import FlatCode.Lower.Math
import FlatCode.Proofs.Source.Simulation

/-! The instructions on the words of values, and the code of the functions that select one of their arguments. -/

namespace FlatCode.Source
open Lower
open Machine (exec perform)

/-! ### Instructions -/

variable {slots : Array Word} {n : Int} {x : Nat} {op : Opcode} {f : Selection} {s t : State} {α : Type} {w : Word}

section
variable {env : Machine.Env} {fuel : Nat} {stack : List Word} {slots : Array Word} {k : Scalar} {a b : Int}

theorem plain_arithmetic (op : ArithmeticOp) (w : Width) : (Opcode.arithmetic op w).isJump = false := by
  cases op <;> cases w <;> rfl

theorem plain_compare (op : ComparisonOp) (w : Width) : (Opcode.compare op w).isJump = false := by
  cases op <;> cases w <;> rfl

theorem plain_push (w : Width) : (Opcode.push w).isJump = false := by cases w <;> rfl

theorem goes_load {plain} (h : slots[x]? = some w) (small : slots.size < 2 ^ 64) :
    Goes (exec env fuel (.op { op := .loadLocal, imm := UInt64.ofNat x } plain)) stack slots (w :: stack) slots := by
  obtain ⟨hx, -⟩ := Array.getElem?_eq_some_iff.mp h
  refine Does.goes fun m hstack hslots => ?_
  subst hstack hslots
  have hw : m.slots.getD (UInt64.ofNat x).toNat 0 = w := by
    rw [UInt64.toNat_ofNat_of_lt' (Nat.lt_trans hx small), Array.getD_eq_getD_getElem?, h]
    rfl
  simp only [Opcode.operation, perform, Machine.State.push, hw]

theorem goes_store {w : Word} {plain} (hx : x < 2 ^ 64) :
    Goes (exec env fuel (.op { op := .storeLocal, imm := UInt64.ofNat x } plain)) (w :: stack) slots stack
      (slots.setIfInBounds x w) := by
  refine Does.goes fun m hstack hslots => ?_
  subst hslots
  simp only [Opcode.operation, perform, Machine.State.pop, hstack, UInt64.toNat_ofNat_of_lt' hx]

theorem goes_dup {w : Word} {imm : UInt64} {plain} :
    Goes (exec env fuel (.op { op := .dup, imm } plain)) (w :: stack) slots (w :: w :: stack) slots := by
  refine Does.goes fun m hstack hslots => ?_
  subst hslots
  simp only [Opcode.operation, perform, Machine.State.pop, Machine.State.push, hstack]

theorem goes_pop {w : Word} {imm : UInt64} {plain} :
    Goes (exec env fuel (.op { op := .pop, imm } plain)) (w :: stack) slots stack slots := by
  refine Does.goes fun m hstack hslots => ?_
  subst hslots
  simp only [Opcode.operation, perform, Machine.State.pop, hstack]

theorem goes_push {i : Instruction} {plain} {f : UInt64 → Word} (hop : i.op.operation = .push f)
    (hw : f i.imm = w) : Goes (exec env fuel (.op i plain)) stack slots (w :: stack) slots := by
  refine Does.goes fun m hstack hslots => ?_
  subst hstack hslots hw
  simp only [hop, perform, Machine.State.push]

theorem goes_pushInt {n : Int64} {plain} (h : n.toInt32.toInt64 = n) :
    Goes (exec env fuel (.op { op := Opcode.push k.width, imm := intWord k.width n } plain)) stack slots
      (word n.toInt :: stack) slots := by
  cases k with
  | i32 | bool => exact goes_push rfl (word_of_inRange h)
  | i64 | u64 => exact goes_push rfl (word_toInt n).symm

theorem goes_compare (op : ComparisonOp) {imm : UInt64} {plain} (hk : k ≠ .bool) (ha : k.Holds a) (hb : k.Holds b) :
    Goes (exec env fuel (.op { op := Opcode.compare op k.width, imm } plain)) (word b :: word a :: stack) slots
      (word (truth (holds op a b)) :: stack) slots := by
  refine Does.goes fun m hstack hslots => ?_
  subst hslots
  exact perform_compare op hk ha hb hstack

theorem goes_negate {imm : UInt64} {plain} (hop : Opcode.negate? k.width = some op) (hk : k ≠ .bool) :
    Goes (exec env fuel (.op { op, imm } plain)) (word a :: stack) slots (word (k.wrap (-a)) :: stack) slots := by
  refine Does.goes fun m hstack hslots => ?_
  subst hslots
  exact perform_negate hop hk hstack

/-- Arithmetic leaves a number, or ends the run at a division by zero. -/
theorem does_arithmetic {f : Int → α} {post : α → List Word → Array Word → Prop} {op : ArithmeticOp}
    {imm : UInt64} {plain} (hk : k ≠ .bool) (ha : k.Holds a) (hb : k.Holds b)
    (hpost : ∀ n, result? op k a b = some n → k.Holds n → post (f n) (word n :: stack) slots) :
    Does (exec env fuel (.op { op := Opcode.arithmetic op k.width, imm } plain)) (word b :: word a :: stack) slots
      (match result? op k a b with
      | some n => .done (f n)
      | none => .stop .divisionByZero) post :=
  Does.op (fun _ hstack _ => perform_arithmetic op hk ha hb hstack) fun n hn => hpost n hn (Scalar.holds_result? hn)

end

/-! ### Code that pushes a number -/

section
variable {θ : Type}

/-- The code pushes the number `v` and changes nothing, on slots that hold what `H` says. -/
def PushCode (env : Machine.Env) (fuel : Nat) (H : θ → Array Word → Prop) (v : θ → Int) (next : Nat) (_ : Unit)
    (t : State) (p : Piece) : Prop :=
  t.nextSlot = next ∧
    ∀ args stack slots, H args slots → Goes (exec env fuel p) stack slots (word (v args) :: stack) slots

def Pushes (env : Machine.Env) (fuel : Nat) (H : θ → Array Word → Prop) (x : Lowering Unit) (v : θ → Int) : Prop :=
  ∀ s, Yields x s (PushCode env fuel H v s.nextSlot)

variable {env : Machine.Env} {fuel : Nat} {H : θ → Array Word → Prop} {x y : Lowering Unit} {v w : θ → Int}
  {k : Scalar} {i : Nat}

theorem pushes_load (h : ∀ args slots, H args slots → slots[i]? = some (word (v args)) ∧ slots.size < 2 ^ 64) :
    Pushes env fuel H (load i) v :=
  fun _ => .emitWith rfl fun _ => ⟨rfl, fun args _ slots hH => goes_load (h args slots hH).1 (h args slots hH).2⟩

theorem pushes_int {n : Int64} (h : n.toInt32.toInt64 = n) : Pushes env fuel H (pushInt k.width n) fun _ => n.toInt :=
  fun _ => .emitWith (plain_push _) fun _ => ⟨rfl, fun _ _ _ _ => goes_pushInt h⟩

theorem Pushes.of_eq (h : Pushes env fuel H x v) (hv : ∀ args slots, H args slots → v args = w args) :
    Pushes env fuel H x w := fun s => (h s).imp fun _ _ _ ⟨hslot, hgoes⟩ =>
  ⟨hslot, fun args stack slots hH => hv args slots hH ▸ hgoes args stack slots hH⟩

theorem Pushes.andThen {f : Lowering α} {Φ : α → State → Piece → Prop}
    (hx : Pushes env fuel H x v)
    (hf : ∀ t p, t.nextSlot = s.nextSlot →
      (∀ args stack slots, H args slots → Goes (exec env fuel p) stack slots (word (v args) :: stack) slots) →
      Yields f t fun a u q => Later t u → Φ a u (p.seq q)) :
    Yields (x >>= fun _ => f) s Φ :=
  (hx s).bind fun _ t p _ ⟨hslot, hgoes⟩ => hf t p hslot hgoes

theorem pushes_negate (hop : Opcode.negate? k.width = some op) (hk : k ≠ .bool)
    (hx : Pushes env fuel H x v) : Pushes env fuel H (do x; emit op) fun args => k.wrap (-v args) := by
  intro s
  refine hx.andThen fun t p hslot hp => .emitWith (by cases k <;> cases hop <;> rfl) fun c _ => ⟨hslot, ?_⟩
  exact fun args stack slots hH => (hp args stack slots hH).after (goes_negate hop hk)

theorem pushes_compareSlot (hk : k ≠ .bool) (op : ComparisonOp) (hi : Pushes env fuel H (load i) v)
    (hx : Pushes env fuel H x w) (range : ∀ args slots, H args slots → k.Holds (v args) ∧ k.Holds (w args)) :
    Pushes env fuel H (compareSlot k.width i op x) fun args => truth (holds op (v args) (w args)) := by
  intro s
  refine hi.andThen fun t p ht hp => hx.andThen fun u q hu hq => .emitWith (plain_compare _ _) ?_
  refine fun c _ _ => ⟨hu.trans ht, fun args stack slots hH => ?_⟩
  obtain ⟨hv, hw⟩ := range args slots hH
  exact (hp args stack slots hH).after ((hq args _ slots hH).after (goes_compare _ hk hv hw))

/-- The choice between two numbers by such a comparison. -/
theorem pushes_select {yes no : Lowering Unit} {m n : θ → Int} (hk : k ≠ .bool) (op : ComparisonOp)
    (hi : Pushes env fuel H (load i) v) (hx : Pushes env fuel H x w) (hyes : Pushes env fuel H yes m)
    (hno : Pushes env fuel H no n) (range : ∀ args slots, H args slots → k.Holds (v args) ∧ k.Holds (w args)) :
    Pushes env fuel H (select k.width i op x yes no) fun args =>
      if holds op (v args) (w args) then m args else n args := by
  intro s
  refine (pushes_compareSlot hk op hi hx range).andThen fun t p ht hp => .bindPure ?_
  refine .branch (Φ := PushCode env fuel H m t.nextSlot) (fun c k => hyes _) fun _ t₁ p₁ _ ⟨ht₁, hp₁⟩ c k => ?_
  refine (hno _).imp fun _ t₂ p₂ ⟨ht₂, hp₂⟩ c k _ _ => ⟨?_, fun args stack slots hH => ?_⟩
  · exact ht₂.trans (ht₁.trans ht)
  · change Goes _ stack slots (word (if holds op (v args) (w args) then m args else n args) :: stack) slots
    refine (hp args stack slots hH).after ?_
    cases holds op (v args) (w args) with
    | true => exact .branch (fun _ => hp₁ args stack slots hH) fun h => nomatch h
    | false => exact .branch (fun h => absurd rfl h) fun _ => hp₂ args stack slots hH

/-! ### Selections -/

def Holding (k : Scalar) (slots : Array Word) (i : Nat) (n : Int) : Prop :=
  slots.size < 2 ^ 64 ∧ slots[i]? = some (word n) ∧ k.Holds n

theorem Holding.store (small : slots.size < 2 ^ 64) (hi : i < slots.size)
    (hn : k.Holds n) : Holding k (slots.setIfInBounds i (word n)) i n := by
  refine ⟨?_, Array.getElem?_setIfInBounds_self_of_lt hi, hn⟩
  rw [Array.size_setIfInBounds]
  exact small

theorem Fits.goes_store {stack : List Word} {w : Word} {plain} (h : Fits env slots.size t) (hi : i < t.nextSlot) :
    Goes (exec env fuel (.op { op := .storeLocal, imm := UInt64.ofNat i } plain)) (w :: stack) slots stack
      (slots.setIfInBounds i w) :=
  Source.goes_store (Nat.lt_of_lt_of_le hi (Nat.le_of_lt (Nat.lt_of_le_of_lt h.slots h.small)))

theorem Fits.holding_store (h : Fits env slots.size t) (hi : i < t.nextSlot)
    (hn : k.Holds n) : Holding k (slots.setIfInBounds i (word n)) i n :=
  .store h.small (Nat.lt_of_lt_of_le hi h.slots) hn

theorem pushes_held : Pushes env fuel (fun n slots => Holding k slots i n) (load i) fun n => n :=
  pushes_load fun _ _ h => ⟨h.2.1, h.1⟩

theorem pushes_abs (hk : k ≠ .bool) : Pushes env fuel (fun n slots => Holding k slots i n) (emitAbs k.width i) fun n =>
    k.wrap (if n < 0 then -n else n) := by
  rw [emitAbs]
  cases hneg : Opcode.negate? k.width with
  | none =>
    -- An unsigned number is its own absolute value.
    refine pushes_held.of_eq fun n slots h => ?_
    cases k <;> cases hneg
    rw [if_neg (Int.not_lt.mpr h.2.2.1), Scalar.wrap_eq_self h.2.2]
  | some op =>
    refine (pushes_select hk .less pushes_held (pushes_int rfl) (pushes_negate hneg hk pushes_held) pushes_held ?_).of_eq ?_
    · exact fun n slots h => ⟨h.2.2, k.holds_zero⟩
    · intro n slots h
      by_cases hn : n < 0
      · simp [holds, hn]
      · simp [holds, hn, Scalar.wrap_eq_self h.2.2]

theorem pushes_positive (hk : k ≠ .bool) :
    Pushes env fuel (fun n slots => Holding k slots i n) (emitPositive k.width i) fun n => if 0 < n then 1 else 0 := by
  refine (pushes_select hk .greater pushes_held (pushes_int rfl) (pushes_int rfl) (pushes_int rfl) ?_).of_eq ?_
  · exact fun n slots h => ⟨h.2.2, k.holds_zero⟩
  · intro n slots h
    simp [holds]

theorem pushes_sign (hk : k ≠ .bool) :
    Pushes env fuel (fun n slots => Holding k slots i n) (emitSign k.width i) Int.sign := by
  rw [emitSign]
  split
  case isTrue hw =>
    -- An unsigned number is positive or zero.
    refine (pushes_positive hk).of_eq fun n slots h => ?_
    cases k <;> cases hw
    rcases Int.lt_or_eq_of_le h.2.2.1 with hn | rfl
    · rw [if_pos hn, Int.sign_eq_one_of_pos hn]
    · rfl
  case isFalse hw =>
    refine (pushes_select hk .less pushes_held (pushes_int rfl) (pushes_int rfl) (pushes_positive hk) ?_).of_eq ?_
    · exact fun n slots h => ⟨h.2.2, k.holds_zero⟩
    · intro n slots h
      rcases Int.lt_trichotomy n 0 with hn | rfl | hn
      · simp [holds, hn, Int.sign_eq_neg_one_of_neg hn]
      · rfl
      · simp [holds, hn, Int.sign_eq_one_of_pos hn, Int.le_of_lt hn]

theorem pushes_clamp {θ : Type} {H : θ → Array Word → Prop} {v l h : θ → Int} {low high : Lowering Unit} (hk : k ≠ .bool)
    (hload : Pushes env fuel H (load i) v) (hlow : Pushes env fuel H low l) (hhigh : Pushes env fuel H high h)
    (range : ∀ args slots, H args slots → k.Holds (v args) ∧ k.Holds (l args) ∧ k.Holds (h args)) :
    Pushes env fuel H (emitClamp k.width i low high) fun args => between (v args) (l args) (h args) := by
  have hupper := pushes_select hk .greater hload hhigh hhigh hload fun args slots hH =>
    ⟨(range args slots hH).1, (range args slots hH).2.2⟩
  refine (pushes_select hk .less hload hlow hlow hupper ?_).of_eq fun args slots hH => ?_
  · exact fun args slots hH => ⟨(range args slots hH).1, (range args slots hH).2.1⟩
  · simp [holds, between]

inductive AllHeld (k : Scalar) (slots : Array Word) : List Nat → List Int → Prop
  | nil : AllHeld k slots [] []
  | cons {i n is ns} (h : Holding k slots i n) (hs : AllHeld k slots is ns) : AllHeld k slots (i :: is) (n :: ns)

theorem sign_holds (h : k.Holds n) : k.Holds n.sign := by
  rcases Int.lt_trichotomy n 0 with hn | rfl | hn
  · rw [Int.sign_eq_neg_one_of_neg hn]
    cases k <;> simp only [Scalar.Holds] at h ⊢ <;> omega
  · exact k.holds_zero
  · rw [Int.sign_eq_one_of_pos hn]
    exact k.holds_one

theorem between_holds {l h : Int} (hn : k.Holds n) (hl : k.Holds l) (hh : k.Holds h) : k.Holds (between n l h) := by
  rw [between]
  split
  · exact hl
  · split
    · exact hh
    · exact hn

/-- The code leaves the result of a selection from the values in some slots. -/
def SelectCode (env : Machine.Env) (fuel : Nat) (k : Scalar) (f : Selection) (is : List Nat) (next : Nat) (_ : Unit)
    (t : State) (p : Piece) : Prop :=
  t.nextSlot = next ∧ ∀ ns stack slots, AllHeld k slots is ns → ∃ n, select? f k ns = some n ∧ k.Holds n ∧
    Goes (exec env fuel p) stack slots (word n :: stack) slots

theorem Pushes.select1 {g : Int → Int} (h : Pushes env fuel (fun n slots => Holding k slots i n) x g)
    (hg : ∀ n, k.Holds n → select? f k [n] = some (g n) ∧ k.Holds (g n)) :
    Yields x s (SelectCode env fuel k f [i] s.nextSlot) := by
  refine (h s).imp fun _ t p ⟨hslot, hp⟩ => ⟨hslot, fun ns stack slots hs => ?_⟩
  cases hs with
  | cons hn hs =>
    cases hs
    exact ⟨_, (hg _ hn.2.2).1, (hg _ hn.2.2).2, hp _ stack slots hn⟩

theorem yields_choice {op : ComparisonOp} {j : Nat} (hk : k ≠ .bool)
    (hf : ∀ a b, select? f k [a, b] = some (if holds op a b then a else b)) :
    Yields (select k.width i op (load j) (load i) (load j)) s (SelectCode env fuel k f [i, j] s.nextSlot) := by
  let H : Int × Int → Array Word → Prop := fun n slots => Holding k slots i n.1 ∧ Holding k slots j n.2
  have hi : Pushes env fuel H (load i) Prod.fst := pushes_load fun _ _ h => ⟨h.1.2.1, h.1.1⟩
  have hj : Pushes env fuel H (load j) Prod.snd := pushes_load fun _ _ h => ⟨h.2.2.1, h.2.1⟩
  have hpush := pushes_select hk op hi hj hi hj fun n slots h => ⟨h.1.2.2, h.2.2.2⟩
  refine (hpush s).imp fun _ t p ⟨hslot, hp⟩ => ⟨hslot, fun ns stack slots hs => ?_⟩
  cases hs with
  | @cons _ a _ _ ha hs =>
    cases hs with
    | @cons _ b _ _ hb hs =>
      cases hs
      refine ⟨_, hf a b, ?_, hp (a, b) stack slots ⟨ha, hb⟩⟩
      split
      · exact ha.2.2
      · exact hb.2.2

theorem yields_clamp {low high : Nat} (hk : k ≠ .bool) :
    Yields (emitClamp k.width i (load low) (load high)) s (SelectCode env fuel k .clamp [i, low, high] s.nextSlot) := by
  let H : Int × Int × Int → Array Word → Prop := fun n slots =>
    Holding k slots i n.1 ∧ Holding k slots low n.2.1 ∧ Holding k slots high n.2.2
  have hi : Pushes env fuel H (load i) Prod.fst := pushes_load fun _ _ h => ⟨h.1.2.1, h.1.1⟩
  have hl : Pushes env fuel H (load low) fun n => n.2.1 := pushes_load fun _ _ h => ⟨h.2.1.2.1, h.2.1.1⟩
  have hh : Pushes env fuel H (load high) fun n => n.2.2 := pushes_load fun _ _ h => ⟨h.2.2.2.1, h.2.2.1⟩
  have hpush := pushes_clamp hk hi hl hh fun n slots h => ⟨h.1.2.2, h.2.1.2.2, h.2.2.2.2⟩
  refine (hpush s).imp fun _ t p ⟨hslot, hp⟩ => ⟨hslot, fun ns stack slots hs => ?_⟩
  cases hs with
  | cons ha hs =>
    cases hs with
    | cons hb hs =>
      cases hs with
      | cons hc hs =>
        cases hs
        exact ⟨_, rfl, between_holds ha.2.2 hb.2.2 hc.2.2, hp (_, _, _) stack slots ⟨ha, hb, hc⟩⟩

/-- The code of a selection leaves its result; with another number of arguments there is none. -/
theorem yields_applyMath (hk : k ≠ .bool) {name : String} {is : List Nat} :
    Yields (applyMath name f.function k.width is) s (SelectCode env fuel k f is s.nextSlot) := by
  cases f with
  | abs =>
    match is with
    | [x] => exact (pushes_abs hk).select1 fun n _ => ⟨rfl, k.holds_wrap _⟩
    | [] | _ :: _ :: _ => exact .throw
  | sign =>
    match is with
    | [x] => exact (pushes_sign hk).select1 fun n hn => ⟨rfl, sign_holds hn⟩
    | [] | _ :: _ :: _ => exact .throw
  | saturate =>
    match is with
    | [x] =>
      have hpush : Pushes env fuel (fun n slots => Holding k slots x n) (applyMath name .saturate k.width [x])
          fun n => between n 0 1 :=
        pushes_clamp hk pushes_held (pushes_int (n := 0) rfl) (pushes_int (n := 1) rfl)
          fun n slots h => ⟨h.2.2, k.holds_zero, k.holds_one⟩
      exact hpush.select1 fun n hn => ⟨rfl, between_holds hn k.holds_zero k.holds_one⟩
    | [] | _ :: _ :: _ => exact .throw
  | min =>
    match is with
    | [x, y] =>
      refine yields_choice hk fun a b => congrArg some ?_
      by_cases hab : a < b
      · simp [holds, hab, Int.min_eq_left (Int.le_of_lt hab)]
      · simp [holds, hab, Int.min_eq_right (Int.not_lt.mp hab)]
    | [] | [_] | _ :: _ :: _ :: _ => exact .throw
  | max =>
    match is with
    | [x, y] =>
      refine yields_choice hk fun a b => congrArg some ?_
      by_cases hab : b < a
      · simp [holds, hab, Int.max_eq_left (Int.le_of_lt hab)]
      · simp [holds, hab, Int.max_eq_right (Int.not_lt.mp hab)]
    | [] | [_] | _ :: _ :: _ :: _ => exact .throw
  | clamp =>
    match is with
    | [x, y, z] => exact yields_clamp hk
    | [] | [_] | [_, _] | _ :: _ :: _ :: _ :: _ => exact .throw

end

end FlatCode.Source
