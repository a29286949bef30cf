import FlatCode.Proofs.Source.Evaluation

/-! Words and the values they stand for: what the machine computes on the words of values in the range of a kind is the
    word of the result. -/

namespace FlatCode.Source
open Machine (State Outcome perform)

def Scalar.Holds : Scalar → Int → Prop
  | .i32, n => -2 ^ 31 ≤ n ∧ n < 2 ^ 31
  | .i64, n => -2 ^ 63 ≤ n ∧ n < 2 ^ 63
  | .u64, n => 0 ≤ n ∧ n < 2 ^ 64
  | .bool, n => n = 0 ∨ n = 1

namespace Scalar
variable {a b k : Scalar} {n : Int}

theorem holds_wrap (k : Scalar) (n : Int) : k.Holds (k.wrap n) := by
  cases k with
  | i32 =>
    have hle := Int.le_bmod (x := n) (m := 2 ^ 32) (by decide)
    have hlt := Int.bmod_lt (x := n) (m := 2 ^ 32) (by decide)
    simp only [Holds, wrap]
    omega
  | i64 =>
    have hle := Int.le_bmod (x := n) (m := 2 ^ 64) (by decide)
    have hlt := Int.bmod_lt (x := n) (m := 2 ^ 64) (by decide)
    simp only [Holds, wrap]
    omega
  | u64 =>
    simp only [Holds, wrap]
    omega
  | bool =>
    simp only [Holds, wrap]
    split <;> simp

theorem wrap_eq_self (h : k.Holds n) : k.wrap n = n := by
  cases k with
  | i32 => exact Int.bmod_eq_of_le h.1 h.2
  | i64 => exact Int.bmod_eq_of_le h.1 h.2
  | u64 => exact Int.emod_eq_of_lt h.1 h.2
  | bool => rcases h with rfl | rfl <;> rfl

theorem holds_zero (k : Scalar) : k.Holds 0 := by cases k <;> simp [Holds]

theorem holds_one (k : Scalar) : k.Holds 1 := by cases k <;> simp [Holds]

theorem holds_truth (b : Bool) : Scalar.bool.Holds (truth b) := by
  cases b
  · exact .inl rfl
  · exact .inr rfl

/-- The common kind of two numbers is a number, and has the values of both. -/
theorem join?_eq_some (h : a.join? b = some k) : k ≠ .bool ∧ (∀ n, a.Holds n → k.Holds n) ∧ ∀ n, b.Holds n → k.Holds n := by
  have widen {n : Int} (hn : Scalar.i32.Holds n) : Scalar.i64.Holds n :=
    ⟨Int.le_trans (by decide) hn.1, Int.lt_trans hn.2 (by decide)⟩
  cases a <;> cases b <;> cases h
  · exact ⟨nofun, fun _ hn => hn, fun _ hn => hn⟩
  · exact ⟨nofun, fun _ => widen, fun _ hn => hn⟩
  · exact ⟨nofun, fun _ hn => hn, fun _ => widen⟩
  · exact ⟨nofun, fun _ hn => hn, fun _ hn => hn⟩
  · exact ⟨nofun, fun _ hn => hn, fun _ hn => hn⟩

theorem join_eq_some {a b : Option Scalar} (h : join a b = some k) :
    ∃ i j, a = some i ∧ b = some j ∧ k ≠ .bool ∧ (∀ n, i.Holds n → k.Holds n) ∧ ∀ n, j.Holds n → k.Holds n := by
  cases a with
  | none => exact nomatch h
  | some i =>
    cases b with
    | none => exact nomatch h
    | some j => exact ⟨i, j, rfl, rfl, join?_eq_some h⟩

theorem foldl_join_eq_some {a : Option Scalar} {l : List (Option Scalar)} (h : l.foldl join a = some k)
    (ha : ∀ i, a = some i → i ≠ .bool) : k ≠ .bool ∧ ∀ b ∈ a :: l, ∃ i, b = some i ∧ ∀ n, i.Holds n → k.Holds n := by
  induction l generalizing a with
  | nil =>
    refine ⟨ha k h, fun b hb => ?_⟩
    cases List.mem_singleton.mp hb
    exact ⟨k, h, fun _ hn => hn⟩
  | cons b l ih =>
    obtain ⟨hk, hall⟩ := ih h fun i hi => (join_eq_some hi).elim fun _ ⟨_, _, _, hne, _⟩ => hne
    obtain ⟨⟨i, hi, hik⟩, hl⟩ := List.forall_mem_cons.mp hall
    obtain ⟨x, y, rfl, rfl, -, hx, hy⟩ := join_eq_some hi
    refine ⟨hk, List.forall_mem_cons.mpr ⟨⟨x, rfl, fun n hn => hik n (hx n hn)⟩, ?_⟩⟩
    exact List.forall_mem_cons.mpr ⟨⟨y, rfl, fun n hn => hik n (hy n hn)⟩, hl⟩

/-- The common kind of several numbers is a number, and has the values of all. -/
theorem joinAll_eq_some {l : List (Option Scalar)} (h : joinAll l = some k) :
    k ≠ .bool ∧ ∀ a ∈ l, ∃ i, a = some i ∧ ∀ n, i.Holds n → k.Holds n := by
  cases l with
  | nil => exact nomatch h
  | cons a l =>
    obtain ⟨hk, hall⟩ := foldl_join_eq_some h fun i hi => (join_eq_some hi).elim fun _ ⟨_, _, _, hne, _⟩ => hne
    obtain ⟨⟨i, hi, hik⟩, hl⟩ := List.forall_mem_cons.mp hall
    obtain ⟨x, -, rfl, -, -, hx, -⟩ := join_eq_some hi
    exact ⟨hk, List.forall_mem_cons.mpr ⟨⟨x, rfl, fun n hn => hik n (hx n hn)⟩, hl⟩⟩

theorem kind_width (h : k ≠ .bool) : k.width.kind = k.kind := by
  cases k with
  | i32 | i64 | u64 => rfl
  | bool => exact absurd rfl h

theorem holds_result? {op : ArithmeticOp} {m x : Int} (h : result? op k m n = some x) : k.Holds x := by
  cases op with
  | plus | minus | multiply =>
    cases h
    exact k.holds_wrap _
  | divide =>
    obtain ⟨-, h⟩ := Option.ite_none_left_eq_some.mp h
    cases h
    exact k.holds_wrap _

end Scalar

theorem toBitVec_word (n : Int) : (word n).toBitVec = BitVec.ofInt 64 n := by
  apply BitVec.eq_of_toNat_eq
  rw [word, UInt64.ofInt, BitVec.toNat_ofInt, UInt64.toBitVec_ofNat', BitVec.toNat_ofNat]
  omega

theorem int64_word (n : Int) : (word n).int64 = Int64.ofInt n := by
  apply Int64.toBitVec.inj
  exact toBitVec_word n

theorem ofInt64_ofInt (n : Int) : Word.ofInt64 (Int64.ofInt n) = word n := by
  apply UInt64.eq_of_toBitVec_eq
  exact (toBitVec_word n).symm

theorem int32_word (n : Int) : (word n).int32 = Int32.ofInt n := by
  apply Int32.toBitVec.inj
  change BitVec.setWidth 32 (word n).toBitVec = BitVec.ofInt 32 n
  rw [toBitVec_word]
  apply BitVec.eq_of_toNat_eq
  rw [BitVec.toNat_setWidth, BitVec.toNat_ofInt, BitVec.toNat_ofInt]
  omega

theorem ofInt32_ofInt (n : Int) : Word.ofInt32 (Int32.ofInt n) = word (Scalar.i32.wrap n) := by
  obtain ⟨hle, hlt⟩ := Scalar.holds_wrap .i32 n
  rw [← ofInt64_ofInt]
  refine congrArg Int64.toUInt64 (Int64.toInt_inj.mp ?_)
  rw [Int32.toInt_toInt64, Int32.toInt_ofInt]
  exact (Int64.toInt_ofInt_of_le (Int.le_trans (by decide) hle) (Int.lt_trans hlt (by decide))).symm

theorem word_wrap_i64 (n : Int) : word (Scalar.i64.wrap n) = word n := by
  rw [word, word, UInt64.ofInt, UInt64.ofInt]
  congr 2
  exact Int.bmod_emod ..

theorem word_wrap_u64 (n : Int) : word (Scalar.u64.wrap n) = word n := by
  rw [word, word, UInt64.ofInt, UInt64.ofInt]
  congr 2
  exact Int.emod_emod ..

theorem word_add (a b : Int) : word a + word b = word (a + b) := (UInt64.ofInt_add a b).symm

theorem word_mul (a b : Int) : word a * word b = word (a * b) := (UInt64.ofInt_mul a b).symm

theorem word_neg (a : Int) : -word a = word (-a) := (UInt64.ofInt_neg a).symm

theorem word_sub (a b : Int) : word a - word b = word (a - b) := by
  rw [UInt64.sub_eq_add_neg, word_neg, word_add, Int.sub_eq_add_neg]

variable {n : Int} {f : Word → Word → Word}

theorem toNat_word (h : Scalar.u64.Holds n) : ((word n).toNat : Int) = n := by
  obtain ⟨hle, hlt⟩ := h
  rw [word, UInt64.ofInt, UInt64.toNat_ofNat']
  omega

theorem word_eq_zero {k : Scalar} (h : k.Holds n) : word n = 0 ↔ n = 0 := by
  have hzero : word n = 0 ↔ n % 2 ^ 64 = 0 := by
    rw [← UInt64.toNat_inj, word, UInt64.ofInt, UInt64.toNat_ofNat', UInt64.toNat_zero]
    omega
  rw [hzero]
  cases k <;> simp only [Scalar.Holds] at h <;> omega

theorem ofBool_eq_word (b : Bool) : Word.ofBool b = word (truth b) := by cases b <;> rfl

section
variable {a b : Int}

theorem toInt_ofInt32 (h : Scalar.i32.Holds a) : (Int32.ofInt a).toInt = a := Int32.toInt_ofInt_of_le h.1 h.2

theorem toInt_ofInt64 (h : Scalar.i64.Holds a) : (Int64.ofInt a).toInt = a := Int64.toInt_ofInt_of_le h.1 h.2

theorem ofInt32_inj (ha : Scalar.i32.Holds a) (hb : Scalar.i32.Holds b) : Int32.ofInt a = Int32.ofInt b ↔ a = b := by
  rw [← Int32.toInt_inj, toInt_ofInt32 ha, toInt_ofInt32 hb]

theorem ofInt64_inj (ha : Scalar.i64.Holds a) (hb : Scalar.i64.Holds b) : Int64.ofInt a = Int64.ofInt b ↔ a = b := by
  rw [← Int64.toInt_inj, toInt_ofInt64 ha, toInt_ofInt64 hb]

theorem ofInt32_tdiv (ha : Scalar.i32.Holds a) (hb : Scalar.i32.Holds b) :
    Int32.ofInt a / Int32.ofInt b = Int32.ofInt (a.tdiv b) :=
  (Int32.ofInt_tdiv ha.1 (Int.le_of_lt_add_one ha.2) hb.1 (Int.le_of_lt_add_one hb.2)).symm

theorem ofInt64_tdiv (ha : Scalar.i64.Holds a) (hb : Scalar.i64.Holds b) :
    Int64.ofInt a / Int64.ofInt b = Int64.ofInt (a.tdiv b) :=
  (Int64.ofInt_tdiv ha.1 (Int.le_of_lt_add_one ha.2) hb.1 (Int.le_of_lt_add_one hb.2)).symm

theorem word_div (ha : Scalar.u64.Holds a) (hb : Scalar.u64.Holds b) : word a / word b = word (a.tdiv b) := by
  have hpos : 0 ≤ a.tdiv b := Int.tdiv_nonneg ha.1 hb.1
  have hle : a.tdiv b ≤ a := by
    rw [Int.tdiv_eq_ediv_of_nonneg ha.1]
    exact Int.ediv_le_self _ ha.1
  apply UInt64.toNat_inj.mp
  apply Int.ofNat.inj
  change (((word a / word b).toNat : Nat) : Int) = ((word (a.tdiv b)).toNat : Nat)
  rw [UInt64.toNat_div, Int.natCast_ediv, toNat_word ha, toNat_word hb,
    toNat_word ⟨hpos, Int.lt_of_le_of_lt hle ha.2⟩, Int.tdiv_eq_ediv_of_nonneg ha.1]

theorem word_inj_i64 (ha : Scalar.i64.Holds a) (hb : Scalar.i64.Holds b) : word a = word b ↔ a = b := by
  rw [← ofInt64_inj ha hb, ← int64_word, ← int64_word]
  exact ⟨congrArg _, fun h => UInt64.toBitVec_inj.mp (congrArg Int64.toBitVec h)⟩

theorem word_inj_u64 (ha : Scalar.u64.Holds a) (hb : Scalar.u64.Holds b) : word a = word b ↔ a = b := by
  rw [← UInt64.toNat_inj, ← Int.ofNat_inj, toNat_word ha, toNat_word hb]

end

/-- The outcome of an operation that leaves a number; after a division by zero there is none. -/
def pushed (s : State) (rest : List Word) : Option Int → Outcome
  | some n => .continue { s with stack := word n :: rest }
  | none => .fault .divisionByZero

section
variable {env : Machine.Env} {imm : UInt64} {s : State} {v w : Word} {rest : List Word} {k : Scalar} {a b n : Int}

theorem perform_unary {f : Word → Word} (hs : s.stack = v :: rest) (hf : f v = word n) :
    perform env imm s (.unary f) = .continue { s with stack := word n :: rest } := by
  simp [perform, State.pop, hs, State.push, hf]

theorem perform_binary (hs : s.stack = w :: v :: rest) (hf : f v w = word n) :
    perform env imm s (.binary f) = .continue { s with stack := word n :: rest } := by
  simp [perform, State.pop, hs, State.push, hf]

theorem perform_divide {f : Word → Word → Option Word} {x : Option Int} (hs : s.stack = w :: v :: rest)
    (hf : f v w = x.map word) : perform env imm s (.divide f) = pushed s rest x := by
  cases x <;> simp [perform, State.pop, hs, State.push, hf, pushed]

theorem perform_arithmetic (op : ArithmeticOp) (hk : k ≠ .bool) (ha : k.Holds a) (hb : k.Holds b)
    (hs : s.stack = word b :: word a :: rest) :
    perform env imm s (Opcode.arithmetic op k.width).operation = pushed s rest (result? op k a b) := by
  cases k with
  | bool => exact absurd rfl hk
  | i32 =>
    cases op with
    | plus =>
      refine perform_binary hs ?_
      rw [← ofInt32_ofInt, Int32.ofInt_add, int32_word, int32_word]
    | minus =>
      refine perform_binary hs ?_
      rw [← ofInt32_ofInt, Int32.ofInt_sub, int32_word, int32_word]
    | multiply =>
      refine perform_binary hs ?_
      rw [← ofInt32_ofInt, Int32.ofInt_mul, int32_word, int32_word]
    | divide =>
      refine perform_divide hs ?_
      have hzero : Int32.ofInt b = 0 ↔ b = 0 := ofInt32_inj (b := 0) hb ⟨by decide, by decide⟩
      rw [int32_word, int32_word, ofInt32_tdiv ha hb, ofInt32_ofInt, result?]
      simp only [hzero]
      split <;> rfl
  | i64 =>
    cases op with
    | plus => exact perform_binary hs (by rw [word_wrap_i64, word_add])
    | minus => exact perform_binary hs (by rw [word_wrap_i64, word_sub])
    | multiply => exact perform_binary hs (by rw [word_wrap_i64, word_mul])
    | divide =>
      refine perform_divide hs ?_
      have hzero : Int64.ofInt b = 0 ↔ b = 0 := ofInt64_inj (b := 0) hb ⟨by decide, by decide⟩
      rw [int64_word, int64_word, ofInt64_tdiv ha hb, ofInt64_ofInt, result?]
      simp only [hzero]
      split <;> simp [word_wrap_i64]
  | u64 =>
    cases op with
    | plus => exact perform_binary hs (by rw [word_wrap_u64, word_add])
    | minus => exact perform_binary hs (by rw [word_wrap_u64, word_sub])
    | multiply => exact perform_binary hs (by rw [word_wrap_u64, word_mul])
    | divide =>
      refine perform_divide hs ?_
      rw [word_div ha hb, result?]
      simp only [word_eq_zero hb]
      split <;> simp [word_wrap_u64]

theorem perform_test {c : Bool} (hs : s.stack = w :: v :: rest) (hf : f v w = .ofBool c) :
    perform env imm s (.binary f) = .continue { s with stack := word (truth c) :: rest } :=
  perform_binary hs (hf.trans (ofBool_eq_word c))

theorem beq_of_iff {α : Type} [BEq α] [LawfulBEq α] {x y : α} (h : x = y ↔ a = b) : (x == y) = (a == b) := by
  rw [Bool.eq_iff_iff, beq_iff_eq, beq_iff_eq]
  exact h

theorem perform_compare (op : ComparisonOp) (hk : k ≠ .bool) (ha : k.Holds a) (hb : k.Holds b)
    (hs : s.stack = word b :: word a :: rest) :
    perform env imm s (Opcode.compare op k.width).operation =
      .continue { s with stack := word (truth (holds op a b)) :: rest } := by
  cases k with
  | bool => exact absurd rfl hk
  | i32 =>
    have heq := ofInt32_inj ha hb
    have hlt := Int32.lt_iff_toInt_lt (x := .ofInt a) (y := .ofInt b)
    have hgt := Int32.lt_iff_toInt_lt (x := .ofInt b) (y := .ofInt a)
    have hle := Int32.le_iff_toInt_le (x := .ofInt a) (y := .ofInt b)
    have hge := Int32.le_iff_toInt_le (x := .ofInt b) (y := .ofInt a)
    rw [toInt_ofInt32 ha, toInt_ofInt32 hb] at hlt hgt hle hge
    cases op <;> refine perform_test hs ?_ <;> rw [int32_word, int32_word] <;> apply congrArg
    case equal => exact beq_of_iff heq
    case notEqual => exact congrArg Bool.not (beq_of_iff heq)
    case less => exact decide_eq_decide.mpr hlt
    case lessEqual => exact decide_eq_decide.mpr hle
    case greater => exact decide_eq_decide.mpr hgt
    case greaterEqual => exact decide_eq_decide.mpr hge
  | i64 =>
    -- Equality is tested on the words, and the order on the numbers that they stand for.
    have heq := word_inj_i64 ha hb
    have hlt := Int64.lt_iff_toInt_lt (x := .ofInt a) (y := .ofInt b)
    have hgt := Int64.lt_iff_toInt_lt (x := .ofInt b) (y := .ofInt a)
    have hle := Int64.le_iff_toInt_le (x := .ofInt a) (y := .ofInt b)
    have hge := Int64.le_iff_toInt_le (x := .ofInt b) (y := .ofInt a)
    rw [toInt_ofInt64 ha, toInt_ofInt64 hb, ← int64_word, ← int64_word] at hlt hgt hle hge
    cases op <;> refine perform_test hs ?_ <;> apply congrArg
    case equal => exact beq_of_iff heq
    case notEqual => exact congrArg Bool.not (beq_of_iff heq)
    case less => exact decide_eq_decide.mpr hlt
    case lessEqual => exact decide_eq_decide.mpr hle
    case greater => exact decide_eq_decide.mpr hgt
    case greaterEqual => exact decide_eq_decide.mpr hge
  | u64 =>
    have heq := word_inj_u64 ha hb
    have hlt : word a < word b ↔ a < b := by
      rw [UInt64.lt_iff_toNat_lt, ← Int.ofNat_lt, toNat_word ha, toNat_word hb]
    have hgt : word b < word a ↔ b < a := by
      rw [UInt64.lt_iff_toNat_lt, ← Int.ofNat_lt, toNat_word ha, toNat_word hb]
    have hle : word a ≤ word b ↔ a ≤ b := by
      rw [UInt64.le_iff_toNat_le, ← Int.ofNat_le, toNat_word ha, toNat_word hb]
    have hge : word b ≤ word a ↔ b ≤ a := by
      rw [UInt64.le_iff_toNat_le, ← Int.ofNat_le, toNat_word ha, toNat_word hb]
    cases op <;> refine perform_test hs ?_ <;> apply congrArg
    case equal => exact beq_of_iff heq
    case notEqual => exact congrArg Bool.not (beq_of_iff heq)
    case less => exact decide_eq_decide.mpr hlt
    case lessEqual => exact decide_eq_decide.mpr hle
    case greater => exact decide_eq_decide.mpr hgt
    case greaterEqual => exact decide_eq_decide.mpr hge

theorem perform_negate {op : Opcode} (hop : Opcode.negate? k.width = some op) (hk : k ≠ .bool)
    (hs : s.stack = word a :: rest) :
    perform env imm s op.operation = .continue { s with stack := word (k.wrap (-a)) :: rest } := by
  cases k with
  | bool => exact absurd rfl hk
  | u64 => exact nomatch hop
  | i32 =>
    cases hop
    refine perform_unary hs ?_
    rw [int32_word, ← Int32.ofInt_neg, ofInt32_ofInt]
  | i64 =>
    cases hop
    refine perform_unary hs ?_
    rw [word_neg, word_wrap_i64]

end

theorem word_toInt (n : Int64) : word n.toInt = n.toUInt64 := by
  rw [← ofInt64_ofInt, Int64.ofInt_toInt]
  rfl

theorem word_toNat (n : UInt64) : word n.toNat = n := by
  apply UInt64.toNat_inj.mp
  have := toNat_word (n := n.toNat) ⟨Int.natCast_nonneg _, Int.ofNat_lt.mpr n.toNat_lt⟩
  exact Int.ofNat.inj this

theorem word_of_inRange {n : Int64} (h : n.toInt32.toInt64 = n) :
    Word.ofInt32 n.toUInt64.toUInt32.toInt32 = word n.toInt := by
  have hlow : n.toUInt64.toUInt32.toInt32 = n.toInt32 := by
    apply Int32.toBitVec.inj
    exact (BitVec.signExtend_eq_setWidth_of_le n.toBitVec (show 32 ≤ 64 by decide)).symm
  rw [word_toInt, hlow]
  exact congrArg Int64.toUInt64 h

theorem holds_of_inRange {n : Int64} (h : n.toInt32.toInt64 = n) : Scalar.i32.Holds n.toInt := by
  rw [← h, Int32.toInt_toInt64]
  exact ⟨n.toInt32.le_toInt, n.toInt32.toInt_lt⟩

end FlatCode.Source
