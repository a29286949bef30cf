import FlatCode.Proofs.Building.Entry

/-! Collections of literals. A collection takes slots in a row; the code of a literal fills them and leaves the address of the
    first (`builds_collection`). From there on the words are read through addresses (`Collected`). -/

namespace FlatCode

/-! ### Words in a row -/

namespace Machine

def address (k : Nat) : Word := UInt64.ofNat k * slotStride

def State.filled (m : State) (k : Nat) : List Word → State
  | [] => m
  | w :: ws => (m.stored k w m.stack).filled (k + 1) ws

section
variable {m : State} {n i j k : Nat} {w : Word} {ws : List Word}

@[simp] theorem State.stack_filled : (m.filled k ws).stack = m.stack := by
  induction ws generalizing m k with
  | nil => rfl
  | cons w ws ih => exact ih

@[simp] theorem State.output_filled : (m.filled k ws).output = m.output := by
  induction ws generalizing m k with
  | nil => rfl
  | cons w ws ih => exact ih

namespace State.Roomy

theorem filled (h : m.Roomy n) : (m.filled k ws).Roomy n := by
  induction ws generalizing m k with
  | nil => exact h
  | cons w ws ih => exact ih h.stored

theorem slot_filled_of_lt (h : m.Roomy n) (hfits : k + ws.length ≤ n) (hj : j < k) :
    (m.filled k ws).slot j = m.slot j := by
  induction ws generalizing m k with
  | nil => rfl
  | cons w ws ih =>
    rw [List.length_cons] at hfits
    have hrest : ((m.stored k w m.stack).filled (k + 1) ws).slot j = (m.stored k w m.stack).slot j :=
      ih h.stored (by omega) (Nat.lt_succ_of_lt hj)
    exact hrest.trans (h.slot_stored_ne (by omega) (by omega) (Nat.ne_of_lt hj))

theorem slot_filled (h : m.Roomy n) (hfits : k + ws.length ≤ n) (hi : ws[i]? = some w) :
    (m.filled k ws).slot (k + i) = w := by
  induction ws generalizing m k i with
  | nil => exact nomatch hi
  | cons v ws ih =>
    rw [List.length_cons] at hfits
    cases i with
    | zero =>
      cases hi
      exact (h.stored.slot_filled_of_lt (by omega) (Nat.lt_succ_self k)).trans (h.slot_stored (by omega))
    | succ i =>
      rw [← Nat.succ_add_eq_add_succ]
      exact ih h.stored (by omega) hi

/-- The address of a slot leads to it. -/
theorem address_spec (h : m.Roomy n) (hk : k < n) : address k % slotStride = 0 ∧ (address k / slotStride).toNat = k := by
  have hsmall : k < 2 ^ 20 := Nat.lt_of_lt_of_le hk (Nat.le_trans h.slots h.few)
  have htoNat : (address k).toNat = k * 16 := by
    rw [address, UInt64.toNat_mul, UInt64.toNat_ofNat']
    show k % 2 ^ 64 * 16 % 2 ^ 64 = k * 16
    omega
  refine ⟨UInt64.toNat_inj.mp ?_, ?_⟩
  · rw [UInt64.toNat_mod, htoNat]
    exact Nat.mul_mod_left k 16
  · rw [UInt64.toNat_div, htoNat]
    exact Nat.mul_div_cancel k (by decide)

theorem at_address (h : m.Roomy n) (hk : k < n) : m.At (address k) (m.slot k) := by
  obtain ⟨haligned, hslot⟩ := h.address_spec hk
  refine ⟨haligned, by rw [hslot]; exact Nat.lt_of_lt_of_le hk h.slots, ?_⟩
  rw [hslot, slot, h.toNat_ofNat hk]

end State.Roomy

/-- The address of a slot of a collection. -/
theorem address_add (base index scale offset : Nat) :
    address base + (UInt64.ofNat index * UInt64.ofNat scale + UInt64.ofNat offset) * 16 =
      address (base + (index * scale + offset)) := by
  simp only [address, slotStride, UInt64.ofNat_add, UInt64.ofNat_mul]
  grind

/-- A slot holds the address of a row of words that comes after it. -/
structure Collected (m : State) (n base first : Nat) (ws : List Word) : Prop extends m.Roomy n where
  before : base < first
  fits : first + ws.length ≤ n
  address : m.slot base = Machine.address first
  words : ∀ {i : Nat} {w : Word}, ws[i]? = some w → m.slot (first + i) = w

namespace Collected
variable {base first : Nat} {rest : List Word} {v : Word}

theorem of_filled (h : m.Roomy n) (hbefore : base < first) (hfits : first + ws.length ≤ n) :
    Collected ((m.filled first ws).stored base (Machine.address first) rest) n base first ws where
  toRoomy := h.filled.stored
  before := hbefore
  fits := hfits
  address := h.filled.slot_stored (by omega)
  words {i w} hi := by
    have hlt := (List.getElem?_eq_some_iff.mp hi).1
    rw [h.filled.slot_stored_ne (by omega) (by omega) (by omega), h.slot_filled hfits hi]

/-- A slot behind the words may be stored to. -/
theorem stored (h : Collected m n base first ws) (hafter : first + ws.length ≤ k) (hk : k < n) :
    Collected (m.stored k v rest) n base first ws where
  toRoomy := h.toRoomy.stored
  before := h.before
  fits := h.fits
  address := by
    have hbefore := h.before
    rw [h.slot_stored_ne (by omega) hk (by omega), h.address]
  words {i w} hi := by
    have hlt := (List.getElem?_eq_some_iff.mp hi).1
    rw [h.slot_stored_ne (by omega) hk (by omega), h.words hi]

theorem read (h : Collected m n base first ws) (hi : ws[i]? = some w) : m.At (Machine.address (first + i)) w := by
  have hlt := (List.getElem?_eq_some_iff.mp hi).1
  have hfits := h.fits
  exact h.words hi ▸ h.at_address (by omega)

end Collected
end
end Machine

/-! ### Collection literals -/

namespace Source

theorem word_natCast (n : Nat) : word n = UInt64.ofNat n := by
  apply UInt64.toNat_inj.mp
  rw [word, UInt64.ofInt, UInt64.toNat_ofNat', UInt64.toNat_ofNat']
  omega

theorem toNat_word_natCast {n : Nat} (h : n < 2 ^ 31) : (word n).toNat = n := by
  rw [word_natCast, UInt64.toNat_ofNat_of_lt' (Nat.lt_trans h (by decide))]

namespace Scalar

def literals (A B : Scalar) : List Int → List Expr
  | [] => []
  | v :: vs => A.literal v :: B.literals A vs

def HoldsAll (A B : Scalar) : List Int → Prop
  | [] => True
  | v :: vs => A.Holds v ∧ B.HoldsAll A vs

@[simp] theorem length_literals (A B : Scalar) (vs : List Int) : (A.literals B vs).length = vs.length := by
  induction vs generalizing A B with
  | nil => rfl
  | cons v vs ih => rw [literals, List.length_cons, ih, List.length_cons]

theorem element_typeName (T : Scalar) : BindingType.element [] T.kind.typeName = .ok T.kind := by cases T <;> rfl

end Scalar

/-- A collection literal. At even places of a map there are keys and at odd ones values; other collections have one kind. -/
structure Collection where
  form : CollectionForm
  key : Scalar
  value : Scalar
  numbers : List Int
  alike : form ≠ .map → key = value
  paired : form = .map → numbers.length % 2 = 0
  range : key.HoldsAll value numbers

namespace Collection
variable (c : Collection)

def name : String :=
  match c.form with
  | .array => "array"
  | .vector => "vector"
  | .map => "map"

def call : Call where
  name := c.name
  args := c.key.literals c.value c.numbers
  labels := (c.key.literals c.value c.numbers).map fun _ => none
  templateArgs := if c.form = .map then [c.key.kind.typeName, c.value.kind.typeName] else [c.value.kind.typeName]

def expr : Expr := .call [] c.call

def type : BindingType where
  shape := c.form.shape
  kind := c.value.kind
  key := if c.form = .map then c.key.kind else .unknown

def count : Nat := if c.form = .map then c.numbers.length / 2 else c.numbers.length

def header : List Word := if c.form = .vector then [word c.count, word c.count] else [word c.count]

def words : List Word := c.header ++ c.numbers.map word

theorem length_words : c.words.length = c.header.length + c.numbers.length := by
  rw [words, List.length_append, List.length_map]

theorem length_args : c.call.args.length = c.numbers.length := Scalar.length_literals ..

theorem count_le : c.count ≤ c.numbers.length := by
  rw [count]
  split
  · exact Nat.div_le_self ..
  · exact Nat.le_refl _

theorem shape_eq_map : c.type.shape = .map ↔ c.form = .map := by
  obtain ⟨form, -, -, -, -, -, -⟩ := c
  cases form <;> simp [type, CollectionForm.shape]

theorem shape_eq_vector : c.type.shape = .vector ↔ c.form = .vector := by
  obtain ⟨form, -, -, -, -, -, -⟩ := c
  cases form <;> simp [type, CollectionForm.shape]

theorem count_eq : (if c.type.shape = .map then c.call.args.length / 2 else c.call.args.length) = c.count := by
  simp only [shape_eq_map, length_args, count]

theorem headerSlots_eq : Lower.headerSlots c.type = c.header.length := by
  simp only [Lower.headerSlots, shape_eq_vector, header]
  split <;> rfl

theorem literalWidths_eq : Lower.literalWidths c.call c.type = .ok (c.key.width, c.value.width) := by
  have hvalue : c.type.kind.width? = some c.value.width := by
    rw [type]
    cases c.value <;> rfl
  unfold Lower.literalWidths
  simp only [hvalue, shape_eq_map]
  split
  case isTrue hmap =>
    have hkey : c.type.key.width? = some c.key.width := by
      simp only [type, if_pos hmap]
      cases c.key <;> rfl
    simp only [length_args, c.paired hmap, hkey]
    rfl
  case isFalse hother =>
    rw [c.alike hother]
    rfl

theorem collection_types : BindingType.collection [] c.form c.name c.call.templateArgs = .ok c.type := by
  obtain ⟨form, key, value, numbers, -, -, -⟩ := c
  cases form with
  | array | vector =>
    show (do return { shape := _, kind := ← BindingType.element [] value.kind.typeName } : Except Error BindingType) = _
    rw [Scalar.element_typeName]
    rfl
  | map =>
    show (do
      let kind ← BindingType.element [] value.kind.typeName
      let key ← BindingType.element [] key.kind.typeName
      return { shape := .map, kind, key } : Except Error BindingType) = _
    rw [Scalar.element_typeName, Scalar.element_typeName]
    rfl

theorem ofLiteral? : BindingType.ofLiteral? [] c.call = .ok (some c.type) := by
  have hform : BindingType.form? c.call.name = some c.form := by
    obtain ⟨form, -, -, -, -, -, -⟩ := c
    cases form <;> rfl
  rw [BindingType.ofLiteral?, hform]
  show (BindingType.collection [] c.form c.name c.call.templateArgs).map some = _
  rw [collection_types]
  rfl

end Collection
end Source

namespace Lower
open Stateful
open Source (Scalar Collection word)

/-! ### Checking -/

variable {vs : List Int} {cost index : Nat} {A B : Scalar} {builtin : String}

section
variable {depth : Nat} {ctx : Check.Context} {env : Check.Env}

theorem elementRole_add_two (type : BindingType) (i : Nat) : Check.elementRole type (i + 2) = Check.elementRole type i := by
  rw [Check.elementRole, Check.elementRole, Nat.add_mod_right]

/-- Literals pass the check if both kinds are accepted at their places. -/
theorem check_elements {type : BindingType} {i : Nat}
    (hA : (Check.elementRole type i).2.accepts A.kind = true) (hB : (Check.elementRole type (i + 1)).2.accepts B.kind = true) :
    Check.checkElements (.atDepth (depth + 1)) ctx env builtin type i (A.literals B vs) = pure () := by
  induction vs generalizing i A B with
  | nil => rfl
  | cons v vs ih =>
    have hrest := ih hB ((elementRole_add_two type i).symm ▸ hA)
    rw [Scalar.literals, Check.checkElements]
    generalize Check.elementRole type i = place at hA ⊢
    simp only [check_literal, pure_bind, hrest, Operand.isPointer, Operand.kind, hA]
    rfl

theorem check_collection (c : Collection) (hrequire : ctx.effects.require c.name = .ok ()) (htemplates : ctx.templates = []) :
    (Check.Checker.atDepth (depth + 2)).expr ctx env c.expr = pure .unknown := by
  have haccepts : (Check.elementRole c.type 0).2.accepts c.key.kind = true ∧
      (Check.elementRole c.type 1).2.accepts c.value.kind = true := by
    obtain ⟨form, key, value, -, alike, -, -⟩ := c
    cases form with
    | array | vector =>
      cases alike nofun
      cases key <;> exact ⟨rfl, rfl⟩
    | map => cases key <;> cases value <;> exact ⟨rfl, rfl⟩
  have hlabels : c.call.hasLabels = false := by simp [CallOf.hasLabels, Collection.call]
  have hshape : Check.builtinShape ctx ⟨.collection c.form, 0, none⟩ c.call = .ok () := by
    rw [Check.builtinShape, hlabels]
    exact hrequire
  have hpaired : (c.form == .map && c.call.args.length % 2 != 0) = false := by
    have hlength : c.call.args.length = c.numbers.length := Scalar.length_literals ..
    rw [hlength, Bool.and_eq_false_imp]
    intro hmap
    rw [c.paired (eq_of_beq hmap)]
    rfl
  have hexpr : (Check.Checker.atDepth (depth + 2)).expr ctx env c.expr = (do
      Check.builtinShape ctx ⟨.collection c.form, 0, none⟩ c.call
      Check.checkCollection (.atDepth (depth + 1)) ctx env c.form c.call : Check.Checking Operand) := by
    obtain ⟨form, -, -, -, -, -, -⟩ := c
    cases form <;> rfl
  have htypes : BindingType.collection ctx.templates c.form c.call.name c.call.templateArgs = .ok c.type := by
    rw [htemplates]
    exact c.collection_types
  have helements : Check.checkElements (.atDepth (depth + 1)) ctx env c.call.name c.type 0 c.call.args = pure () :=
    check_elements haccepts.1 haccepts.2
  rw [hexpr, hshape, Check.checkCollection, htypes]
  simp only [hpaired]
  show (do
    Check.checkElements (.atDepth (depth + 1)) ctx env c.call.name c.type 0 c.call.args
    return .unknown : Check.Checking Operand) = _
  rw [helements]
  rfl

end

/-! ### Building -/

def Behaviour.fills (k : Nat) (ws : List Word) : Behaviour := fun _ m f => f = .next (m.filled k ws)

def Behaviour.collects (k : Nat) (ws : List Word) : Behaviour := fun _ m f =>
  f = .next { m.filled k ws with stack := Machine.address k :: m.stack }

section
variable {depth n slot : Nat} {ctx : Context} {locals : Locals}

theorem builds_pushCount {count : Nat} (hcount : count < 2 ^ 31) :
    Builds n (emitWith .pushI32 (UInt64.ofNat count)) () n 0 1 (.pushes fun _ => word count) := by
  have hholds : Scalar.i32.Holds count := ⟨by omega, by omega⟩
  have hword : Word.ofInt32 (Word.int32 (UInt64.ofNat count)) = word count := by
    rw [← Source.word_natCast, Source.int32_word, Source.ofInt32_ofInt, Scalar.wrap_eq_self hholds]
  rw [← hword]
  exact builds_push (g := fun imm => .ofInt32 imm.toUInt32.toInt32) rfl rfl

theorem builds_elements (hvs : A.HoldsAll B vs) (hfits : slot + vs.length ≤ n) :
    Builds n (emitElements (.atDepth (depth + 1)) ctx locals builtin A.width B.width slot (A.literals B vs)) () n 0
      (2 * vs.length) (.fills slot (vs.map word)) := by
  induction vs generalizing A B slot with
  | nil => exact .pure
  | cons v vs ih =>
    rw [List.length_cons] at hfits
    have hrest : Builds n (emitElements (.atDepth (depth + 1)) ctx locals builtin B.width A.width (slot + 1)
        (B.literals A vs)) () n 0 (2 * vs.length) (.fills (slot + 1) (vs.map word)) := ih hvs.2 (by omega)
    refine Builds.mono (.bind (builds_literal hvs.1) (.check Bool.false_ne_true (.bind (builds_coerce A A)
      (.bind (builds_store (by omega)) hrest)))) rfl (by omega) ?_ ?_
    · rw [List.length_cons]
      omega
    · rintro env m f rfl
      exact .next rfl (.next rfl (.next ⟨_, _, rfl, rfl⟩ rfl))

theorem pushes_filled {env : Machine.Env} {m : Machine.State} {k : Nat} {w : Word} {ws : List Word} :
    Behaviour.pushes (fun _ => w) env (m.filled k ws) (.next { m.filled k ws with stack := w :: m.stack }) := by
  rw [Behaviour.pushes, Machine.State.stack_filled]

/-- The code of a literal fills its slots and leaves the address of the first. -/
theorem builds_literalOf (c : Collection) (hrequire : ctx.effects.require c.name = .ok ())
    (hsmall : c.numbers.length < 2 ^ 31) :
    Builds n (emitLiteral (.atDepth (depth + 1)) ctx locals c.call c.type) () (n + c.words.length) 0
      (2 * c.words.length + 1) (.collects n c.words) := by
  have hcount : c.count < 2 ^ 31 := Nat.lt_of_le_of_lt c.count_le hsmall
  have hlength := c.length_words
  have htail : Builds (n + c.words.length) (do
      emitElements (.atDepth (depth + 1)) ctx locals c.name c.key.width c.value.width (n + c.header.length) c.call.args
      emitWith .addressOfLocal (UInt64.ofNat n)) () (n + c.words.length) 0 (2 * c.numbers.length + 1)
      (.AndThen (.fills (n + c.header.length) (c.numbers.map word)) (.pushes fun _ => Machine.address n)) :=
    Builds.mono (.bind (builds_elements c.range (by omega)) (builds_push rfl rfl)) rfl (by omega) (by omega)
      fun _ _ _ => id
  have hnew : Builds n (newSlots (c.header.length + c.call.args.length)) n (n + c.words.length) 0 0 .skips := by
    rw [c.length_args, ← hlength]
    exact builds_newSlots
  unfold emitLiteral
  refine .lift hrequire (.lift c.literalWidths_eq ?_)
  simp only [c.count_eq, c.headerSlots_eq, c.shape_eq_vector]
  -- A vector has its count twice, as its capacity is that of its elements.
  split
  case isTrue hvector =>
    have hheader : c.header = [word c.count, word c.count] := if_pos hvector
    simp only [hheader, List.length_cons, List.length_nil] at htail hlength hnew ⊢
    refine Builds.mono (.bind hnew (.bind (builds_pushCount hcount) (.bind (builds_store (by omega))
      (.bind (builds_pushCount hcount) (.bind (builds_store (by omega)) htail))))) rfl (by omega) (by omega) ?_
    rintro env m f rfl
    rw [Collection.words, hheader]
    exact .next rfl (.next rfl (.next ⟨_, _, rfl, rfl⟩ (.next rfl (.next ⟨_, _, rfl, rfl⟩ (.next rfl pushes_filled)))))
  case isFalse hother =>
    have hheader : c.header = [word c.count] := if_neg hother
    simp only [hheader, List.length_cons, List.length_nil] at htail hlength hnew ⊢
    refine Builds.mono (.bind hnew (.bind (builds_pushCount hcount) (.bind (builds_store (by omega)) htail))) rfl
      (by omega) (by omega) ?_
    rintro env m f rfl
    rw [Collection.words, hheader]
    exact .next rfl (.next rfl (.next ⟨_, _, rfl, rfl⟩ (.next rfl pushes_filled)))

theorem builds_collection (c : Collection) (hrequire : ctx.effects.require c.name = .ok ())
    (hsmall : c.numbers.length < 2 ^ 31) :
    Builds n (emitCollection (.atDepth (depth + 1)) ctx locals c.expr) c.type (n + c.words.length) 0
      (2 * c.words.length + 1) (.collects n c.words) := by
  unfold emitCollection Collection.expr
  exact .lift c.ofLiteral? (.lift rfl (.map (builds_literalOf c hrequire hsmall)))

/-! ### Addresses and indices -/

theorem builds_address {base : Nat} {scale offset : Int64} :
    Builds n (emitAddress base index scale offset) () n 0 9
      (.pushes fun m => m.slot base + (m.slot index * scale.toUInt64 + offset.toUInt64) * 16) := by
  have hpush (v : Int64) : Builds n (pushInt .i64 v) () n 0 1 (.pushes fun _ => v.toUInt64) :=
    builds_push (g := id) rfl rfl
  have hplus : Builds n (arithmetic .plus .i64) () n 0 1 (.computes (· + ·)) := builds_computes rfl rfl
  have htimes : Builds n (arithmetic .multiply .i64) () n 0 1 (.computes (· * ·)) := builds_computes rfl rfl
  refine Builds.mono (.bind builds_load (.bind builds_load (.bind (hpush scale) (.bind htimes (.bind (hpush offset)
    (.bind hplus (.bind (hpush 16) (.bind htimes hplus)))))))) rfl (by omega) (by omega) ?_
  rintro env m f rfl
  exact .next rfl (.next rfl (.next rfl (.next ⟨_, _, _, rfl, rfl⟩ (.next rfl (.next ⟨_, _, _, rfl, rfl⟩
    (.next rfl (.next ⟨_, _, _, rfl, rfl⟩ ⟨_, _, _, rfl, rfl⟩)))))))

variable {I : Scalar} {i : Int}

theorem builds_spillIndex {scope : Scope} {depth' : Nat} (hI : I ≠ .bool) (hi : I.Holds i)
    (hinferrer : ctx.inferrer = .atDepth scope (depth' + 1)) :
    Builds n (spillIndex (.atDepth (depth + 1)) ctx locals builtin (I.literal i)) (n, I.width) (n + 1) (n + 1) 2
      (.fills n [word i]) := by
  have hwidth : indexWidth ctx locals builtin (I.literal i) = pure I.width := by
    rw [indexWidth, operand_literal _ _ hinferrer]
    cases I with
    | i32 | i64 | u64 => rfl
    | bool => exact absurd rfl hI
  rw [spillIndex, hwidth, pure_bind]
  refine .fresh (Builds.mono (.bind (builds_literalAt hi) (.map (builds_store (Nat.lt_succ_self n)))) rfl (by omega)
    (by omega) ?_)
  rintro env m f rfl
  exact .next rfl ⟨_, _, rfl, rfl⟩

/-- The index in a slot is compared with the bound that `B` pushes; unless it is in range, a message is reported. -/
def Behaviour.ranges (I : Scalar) (index : Nat) (B : Behaviour) (message : String) : Behaviour := fun env m f =>
  ∃ (i : Int) (count : Nat), m.slot index = word i ∧ I.Holds i ∧ I.Holds count ∧
    (∀ stack, B env { m with stack } (.next { m with stack := word count :: stack })) ∧
    if 0 ≤ i ∧ i < count then f = .next m else fails message env m f

theorem builds_checkRange {bound : Lowering Unit} {B : Behaviour} {message : String} (hI : I ≠ .bool)
    (hbound : Builds n bound () n 0 cost B) :
    Builds n (checkRange I.width index bound message) () n 0 (cost + 15) (.ranges I index B message) := by
  refine Builds.mono (.bind (builds_failIfNegative hI) (.bind builds_load (.bind hbound (.bind (builds_compare hI)
    builds_fail.whenNonzero)))) rfl (by omega) (by omega) ?_
  rintro env m f ⟨i, count, hslot, hi, hcount, hB, hf⟩
  by_cases hneg : i < 0
  · rw [if_neg (by omega)] at hf
    cases hf
    exact .stop ⟨i, hslot, hi, .inr ⟨hneg, rfl⟩⟩ trivial
  · refine .next ⟨i, hslot, hi, .inl ⟨Int.not_lt.mp hneg, rfl⟩⟩ (.next rfl (.next (hB _) ?_))
    refine .next ⟨i, count, m.stack, congrArg _ (congrArg (· :: _) hslot), hi, hcount, rfl⟩ ?_
    by_cases hlt : i < count
    · rw [if_pos ⟨Int.not_lt.mp hneg, hlt⟩] at hf
      have hfalse : Source.holds .greaterEqual i count = false := decide_eq_false (Int.not_le.mpr hlt)
      cases hf
      rw [hfalse]
      exact .skip rfl
    · rw [if_neg (fun h => hlt h.2)] at hf
      have htrue : Source.holds .greaterEqual i count = true := decide_eq_true (Int.not_lt.mp hlt)
      rw [htrue]
      exact .enter rfl (by decide) hf

end

/-! ### Indexing -/

/-- An index into a collection literal evaluates to an element or a value, if its code is built. -/
theorem evaluates_index {effects : EffectSet} {c : Collection} {P : Scalar} {p : Int} {n top : Nat}
    {R : Behaviour} (hbuiltin : builtin = "at" ∨ builtin = "at_unsafe") (hrequire : effects.require c.name = .ok ())
    (hposition : if c.form = .map then P = c.key else P ≠ .bool)
    (hbuilt : ∀ (depth : Nat) (ctx : Context), ctx.effects = effects →
      (∃ scope depth', ctx.inferrer = .atDepth scope (depth' + 1)) →
      Builds 0 (if c.type.shape = .map
        then emitLookup (.atDepth (depth + 1)) ctx [] c.type c.expr (P.literal p) (builtin == "at")
        else emitElement (.atDepth (depth + 1)) ctx [] builtin c.type c.expr (P.literal p) (builtin == "at")) () n top cost R) :
    Evaluates effects (.plainCall builtin [c.expr, P.literal p]) c.value n top cost R := by
  constructor
  case checked =>
    intro depth ctx cache heffects htemplates
    have hexpr : (Check.Checker.atDepth (depth + 3)).expr ctx [] (.plainCall builtin [c.expr, P.literal p]) =
        Check.checkIndex (.atDepth (depth + 2)) ctx [] builtin c.expr (P.literal p) := by
      rcases hbuiltin with rfl | rfl <;> rfl
    have hcollection : Check.collection? ctx.templates [] c.expr = .ok (some c.type) := by
      rw [htemplates]
      exact c.ofLiteral?
    rw [hexpr, Check.checkIndex, check_collection c (heffects ▸ hrequire) htemplates, hcollection, check_literal]
    obtain ⟨form, key, value, _, _, _, _⟩ := c
    cases form with
    | array | vector =>
      cases P with
      | i32 | i64 | u64 => rfl
      | bool => exact absurd rfl hposition
    | map =>
      cases hposition
      cases key <;> rfl
  case inferred =>
    intro scope depth site cache
    have hexpr : (Check.Inferrer.atDepth scope (depth + 3)).operand site [] (.plainCall builtin [c.expr, P.literal p]) =
        pure (.value ((Check.indexed? [] c.expr).getD .unknown)) := by
      rcases hbuiltin with rfl | rfl <;> rfl
    have hindexed : Check.indexed? [] c.expr = some c.value.kind := by
      have hcollection : Check.collection? [] [] c.expr = .ok (some c.type) := c.ofLiteral?
      rw [Check.indexed?, hcollection]
      rfl
    rw [hexpr, hindexed]
    rfl
  case told =>
    intro scope depth site cache
    have hexpr : (Inferrer.atDepth scope (depth + 3)).operand site [] (.plainCall builtin [c.expr, P.literal p]) =
        inferIndex (.atDepth scope (depth + 2)) site []
          { name := builtin, args := [c.expr, P.literal p], labels := [none, none] } := by
      rcases hbuiltin with rfl | rfl <;> rfl
    have hcollection : collection? [] c.expr = .ok (some c.type) := c.ofLiteral?
    rw [hexpr]
    refine run_bind_eq_ok.mpr ⟨c.expr, cache, rfl, ?_⟩
    exact run_bind_eq_ok.mpr ⟨some c.type, cache, run_lift_eq_ok.mpr ⟨hcollection, rfl⟩, rfl⟩
  case built =>
    intro depth ctx heffects ⟨scope, depth', hinferrer⟩
    have hexpr : (Emitter.atDepth (depth + 3)).expr ctx [] (.plainCall builtin [c.expr, P.literal p]) =
        emitIndex (.atDepth (depth + 2)) ctx []
          { name := builtin, args := [c.expr, P.literal p], labels := [none, none] } c.expr (P.literal p)
          (builtin == "at") := by
      rcases hbuiltin with rfl | rfl <;> rfl
    have hcollection : collection? [] c.expr = .ok (some c.type) := c.ofLiteral?
    rw [hexpr]
    refine .lift hcollection ?_
    have hcode := hbuilt (depth + 1) ctx heffects ⟨scope, depth' + 2, hinferrer⟩
    by_cases hmap : c.type.shape = .map
    · rw [if_pos hmap] at hcode
      simp only [if_pos hmap]
      exact .map hcode
    · rw [if_neg hmap] at hcode
      simp only [if_neg hmap]
      exact .map hcode

end Lower
end FlatCode
