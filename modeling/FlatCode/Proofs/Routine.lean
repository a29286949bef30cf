import FlatCode.Lower.Collection
import FlatCode.Lower.Expression
import FlatCode.Proofs.Balance
import FlatCode.Proofs.Growth

/-! Routine code: the parts of lowering that look at no expression. They emit instructions that neither jump nor print,
    take slots, report the failure of a run, and branch and loop around such parts. What holds of all of them is proved
    by induction on how they are built; main result: routine code is laid out as a plain piece (`Routine.plain`). -/

namespace FlatCode

def Opcode.isQuiet (op : Opcode) : Bool :=
  match op.operation with
  | .jump | .jumpIfZero | .printString | .print _ | .printArgument => false
  | _ => true

def Opcode.Quiet (op : Opcode) (a b : Nat) : Prop :=
  op.isQuiet = true ∧ op.operation.takes = a ∧ op.operation.leaves = b

instance (op : Opcode) (a b : Nat) : Decidable (op.Quiet a b) := inferInstanceAs (Decidable (_ ∧ _ ∧ _))

theorem Opcode.isJump_of_isQuiet {op : Opcode} (h : op.isQuiet = true) : op.isJump = false := by
  cases op <;> first | rfl | contradiction

namespace Lower
open Stateful

def failureMessages : List String :=
  ["array index out of bounds", "string index out of bounds", "map key not found",
    "loop count must be non-negative", "pow exponent must be non-negative"]

theorem flags_shiftRight (mode : PrintMode) : mode.flags.toNat >>> 2 = 0 := by
  obtain ⟨_ | _, _ | _⟩ := mode <;> rfl

/-- The immediate of a print holds the index of the string in its upper bits. -/
theorem toNat_stringIndex_ofString (mode : PrintMode) (i : Nat) :
    (PrintMode.stringIndex (mode.ofString i)).toNat = i % 2 ^ 62 := by
  have h : (PrintMode.stringIndex (mode.ofString i)).toNat =
      ((UInt64.ofNat i).toNat <<< 2 % 2 ^ 64) >>> 2 ||| mode.flags.toNat >>> 2 := by
    simp [PrintMode.stringIndex, PrintMode.ofString, Nat.shiftRight_or_distrib]
  rw [h, flags_shiftRight, Nat.or_zero, UInt64.toNat_ofNat', Nat.shiftLeft_eq, Nat.shiftRight_eq_div_pow]
  omega

theorem ofImm_flags (mode : PrintMode) : PrintMode.ofImm mode.flags = mode := by
  obtain ⟨_ | _, _ | _⟩ := mode <;> rfl

theorem shift_or_and (x f : UInt64) {c : UInt64} (hc : c.toNat < 2 ^ 2) : (x <<< 2 ||| f) &&& c = f &&& c := by
  apply UInt64.toNat_inj.mp
  simp only [UInt64.toNat_and, UInt64.toNat_or, UInt64.toNat_shiftLeft]
  refine Nat.eq_of_testBit_eq fun i => ?_
  rcases Nat.lt_or_ge i 2 with hi | hi
  · have hlow : ((x.toNat <<< ((2 : UInt64).toNat % 64)) % 2 ^ 64).testBit i = false := by
      change ((x.toNat <<< 2) % 2 ^ 64).testBit i = false
      rw [Nat.testBit_mod_two_pow, Nat.testBit_shiftLeft]
      simp [Nat.not_le.mpr hi]
    rw [Nat.testBit_and, Nat.testBit_and, Nat.testBit_or, hlow, Bool.false_or]
  · have hhigh : c.toNat.testBit i = false :=
      Nat.testBit_lt_two_pow (Nat.lt_of_lt_of_le hc (Nat.pow_le_pow_right (by decide) hi))
    rw [Nat.testBit_and, Nat.testBit_and, hhigh, Bool.and_false, Bool.and_false]

/-- The lower bits of the immediate of a print hold the mode. -/
theorem ofImm_ofString (mode : PrintMode) (i : Nat) : PrintMode.ofImm (mode.ofString i) = mode := by
  rw [PrintMode.ofImm, PrintMode.ofString, shift_or_and _ _ (by decide), shift_or_and _ _ (by decide)]
  exact ofImm_flags mode

/-- A loop that is left as soon as `test` leaves a word that is not zero; `after` runs if it ends by itself. -/
def loopUntil (cond test next after : Lowering Unit) : Lowering Unit := do
  let found ← loop cond fun _ => do
    test
    let found ← whenNonzero (openJump .jump)
    next
    return found
  after
  closeJump found

theorem emitSearch_eq {w : Width} {base key count entry : Nat} {checked : Bool} :
    emitSearch w base key count entry checked =
      loopUntil (emitEntriesLeft count entry) (emitKeyTest w base key entry) (nextEntry entry)
        (if checked then fail "map key not found" else pure ()) := by
  cases checked <;> rfl

end Lower

namespace Piece

def failure (index : Nat) : Piece :=
  (op { op := .printString, imm := PrintMode.ofString { newline := true, stderr := true } index } rfl).seq
    ((op { op := .pushI32, imm := Lower.failureCode } rfl).seq (op { op := .returnI32 } rfl))

theorem balanced_failure {index n : Nat} (h : index < n) (d : Nat) : (failure index).Balanced n none d d := by
  have hprint : (PrintMode.stringIndex (PrintMode.ofString { newline := true, stderr := true } index)).toNat < n :=
    Lower.toNat_stringIndex_ofString _ index ▸ Nat.lt_of_le_of_lt (Nat.mod_le ..) h
  have hall : (failure index).Balanced n none 0 0 :=
    .seq (.op fun _ => hprint) (.seq (.op nofun) (.op nofun))
  have hframe : (failure index).Balanced n none (0 + d) (0 + d) := .frame d hall
  rwa [Nat.zero_add] at hframe

def loopUntil (cond test next after : Piece) : Piece :=
  .scope ((Piece.loop cond (test.seq ((Piece.guard (.exit 0)).seq next))).seq after)

/-- Code of quiet instructions and of failures, over the strings `S`, that takes `d` words and leaves `d'`. -/
inductive Plain (S : List String) : Piece → Nat → Nat → Prop
  | nop (d : Nat) : Plain S .nop d d
  | op {i plain a b} (quiet : i.op.Quiet a b) (k : Nat) : Plain S (.op i plain) (k + a) (k + b)
  | seq {p q d m d'} (hp : Plain S p d m) (hq : Plain S q m d') : Plain S (p.seq q) d d'
  | branch {yes no d d'} (hy : Plain S yes d d') (hn : Plain S no d d') : Plain S (.branch yes no) (d + 1) d'
  | guard {body d} (hb : Plain S body d d) : Plain S (.guard body) (d + 1) d
  | loop {cond body d} (hc : Plain S cond d (d + 1)) (hb : Plain S body d d) : Plain S (.loop cond body) d d
  | failure {message index} (h : message ∈ Lower.failureMessages) (hS : S[index]? = some message) (d : Nat) :
    Plain S (failure index) d d
  | loopUntil {cond test next after} (hc : Plain S cond 0 1) (ht : Plain S test 0 1) (hn : Plain S next 0 0)
    (ha : Plain S after 0 0) : Plain S (loopUntil cond test next after) 0 0

namespace Plain
variable {S : List String} {p : Piece} {d d' : Nat}

/-- Plain code is balanced, and has no exits. -/
theorem balanced (h : p.Plain S d d') : p.Balanced S.length none d d' := by
  induction h with
  | nop d => exact .skip d
  | @op i plain a b quiet k =>
    obtain ⟨hquiet, rfl, rfl⟩ := quiet
    rw [Nat.add_comm k, Nat.add_comm k]
    refine .frame k (.op fun hop => ?_)
    rw [hop] at hquiet
    exact nomatch hquiet
  | seq _ _ ihp ihq => exact .seq ihp ihq
  | branch _ _ ihy ihn => exact .branch ihy ihn
  | guard _ ih => exact .guard ih
  | loop _ _ ihc ihb => exact .loop ihc ihb
  | failure _ hS d => exact balanced_failure (List.getElem?_eq_some_iff.mp hS).1 d
  | @loopUntil cond test next after _ _ _ _ ihc iht ihn iha =>
    refine .scope (.seq (.loop ihc.closed (.seq iht.closed (.seq (.guard .exit) ihn.closed))) iha.closed) ?_
    intro w hw
    simp only [waits, ← map_waiting_exits _ 0, ihc.exits_eq_nil, iht.exits_eq_nil, ihn.exits_eq_nil,
      iha.exits_eq_nil] at hw
    simpa using hw

theorem exits_eq_nil (h : p.Plain S d d') (k : Nat) : p.exits k = [] := h.balanced.exits_eq_nil k

theorem mono {S' : List String} (h : p.Plain S d d') (hS : S <+: S') : p.Plain S' d d' := by
  induction h with
  | nop d => exact .nop d
  | op quiet k => exact .op quiet k
  | seq _ _ ihp ihq => exact .seq ihp ihq
  | branch _ _ ihy ihn => exact .branch ihy ihn
  | guard _ ih => exact .guard ih
  | loop _ _ ihc ihb => exact .loop ihc ihb
  | failure hmessage hindex d =>
    obtain ⟨hlt, rfl⟩ := List.getElem?_eq_some_iff.mp hindex
    exact .failure hmessage (List.prefix_iff_getElem?.mp hS _ hlt) d
  | loopUntil _ _ _ _ ihc iht ihn iha => exact .loopUntil ihc iht ihn iha

end Plain
end Piece

def MathFunction.arity : MathFunction → Nat
  | .clamp => 3
  | .min | .max | .pow => 2
  | _ => 1

namespace Lower
open Stateful

/-- `x` extends the code by a piece with the property `Φ`, provided that the strings at its end are the first of `S`. -/
def Lays {α : Type} (S : List String) (Φ : Piece → Prop) (x : Lowering α) : Prop :=
  ∀ s a t, x s = .ok (a, t) → t.strings.toList <+: S → ∃ p, Extends s p t ∧ Φ p

namespace Lays
variable {S : List String} {Φ Ψ Χ : Piece → Prop} {α β : Type} {x : Lowering α} {f : α → Lowering β}

theorem bind (hx : Lays S Φ x) (hf : ∀ a, Lays S Ψ (f a)) (hseq : ∀ p q, Φ p → Ψ q → Χ (p.seq q)) :
    Lays S Χ (x >>= f) := by
  intro s b u h hS
  obtain ⟨a, t, h₁, h₂⟩ := bind_eq_ok.mp h
  obtain ⟨q, hq, hΨ⟩ := hf a t b u h₂ hS
  obtain ⟨p, hp, hΦ⟩ := hx s a t h₁ (hq.strings.trans hS)
  exact ⟨p.seq q, hp.seq hq, hseq p q hΦ hΨ⟩

theorem branch {y : Lowering β} (hx : Lays S Φ x) (hy : Lays S Ψ y) (hbranch : ∀ p q, Φ p → Ψ q → Χ (.branch p q)) :
    Lays S Χ (branch x y) := by
  intro s ⟨a, b⟩ t h hS
  obtain ⟨s₁, t₁, s₂, t₂, hyes, hno, -, hm, ht, hext⟩ := branch_inv h
  rw [ht.strings] at hS
  obtain ⟨q, hq, hΨ⟩ := hy s₂ b t₂ hno hS
  obtain ⟨p, hp, hΦ⟩ := hx s₁ a t₁ hyes (hm.strings ▸ hq.strings.trans hS)
  exact ⟨.branch p q, hext p q hp hq, hbranch p q hΦ hΨ⟩

theorem whenNonzero (hx : Lays S Φ x) (hguard : ∀ p, Φ p → Ψ (.guard p)) : Lays S Ψ (whenNonzero x) := by
  intro s a t h hS
  obtain ⟨s₁, t₁, hbody, -, -, ht, -, hext⟩ := whenNonzero_inv h
  obtain ⟨p, hp, hΦ⟩ := hx s₁ a t₁ hbody (ht.strings ▸ hS)
  exact ⟨.guard p, hext p hp, hguard p hΦ⟩

theorem loop (hx : Lays S Φ x) (hf : ∀ a, Lays S Ψ (f a)) (hloop : ∀ p q, Φ p → Ψ q → Χ (.loop p q)) :
    Lays S Χ (loop x f) := by
  intro s b t h hS
  obtain ⟨a, t₁, s₂, t₂, hcond, hbody, -, hs, ht, -, hext⟩ := loop_inv h
  rw [ht.strings] at hS
  obtain ⟨q, hq, hΨ⟩ := hf a s₂ b t₂ hbody hS
  obtain ⟨p, hp, hΦ⟩ := hx s a t₁ hcond (hs.strings ▸ hq.strings.trans hS)
  exact ⟨.loop p q, hext p q hp hq, hloop p q hΦ hΨ⟩

end Lays

/-- Lowering that is routine, apart from faults with the property `A` and from loops if `L` holds; its code takes `d`
    words and leaves `d'`. -/
inductive Routine (A : Error → Prop) (L : Prop) : Nat → Nat → {α : Type} → Lowering α → Prop
  | pure {α : Type} {d : Nat} (a : α) : Routine A L d d (pure a)
  | throw {α : Type} {d d' : Nat} {e : Error} (h : A e) : Routine A L d d' (throw e : Lowering α)
  | bind {α β : Type} {d m d' : Nat} {x : Lowering α} {f : α → Lowering β} (hx : Routine A L d m x)
    (hf : ∀ a, Routine A L m d' (f a)) : Routine A L d d' (x >>= f)
  | quiet {op imm a b} (h : op.Quiet a b) (k : Nat) : Routine A L (k + a) (k + b) (emitWith op imm)
  | newSlots {d} (n : Nat) : Routine A L d d (newSlots n)
  | fail {d message} (h : message ∈ failureMessages) : Routine A L d d (fail message)
  | branch {α β : Type} {d d' : Nat} {yes : Lowering α} {no : Lowering β} (hy : Routine A L d d' yes)
    (hn : Routine A L d d' no) : Routine A L (d + 1) d' (branch yes no)
  | whenNonzero {α : Type} {d : Nat} {body : Lowering α} (hb : Routine A L d d body) :
    Routine A L (d + 1) d (whenNonzero body)
  | loop {α β : Type} {d : Nat} {cond : Lowering α} {body : α → Lowering β} (h : L) (hc : Routine A L d (d + 1) cond)
    (hb : ∀ a, Routine A L d d (body a)) : Routine A L d d (loop cond body)
  | loopUntil {cond test next after} (h : L) (hc : Routine A L 0 1 cond) (ht : Routine A L 0 1 test)
    (hn : Routine A L 0 0 next) (ha : Routine A L 0 0 after) : Routine A L 0 0 (loopUntil cond test next after)

variable {op : ArithmeticOp} {c : Float} {rest : List Float} {after cond limit next no test yes : Lowering Unit}
  {base count entry exponent key sum term v : Nat} {s t : State} {message name : String}

theorem fail_inv (h : fail message s = .ok ((), t)) :
    ∃ index, t.strings[index]? = some message ∧ Extends s (.failure index) t := by
  obtain ⟨index, s₁, hintern, h₁⟩ := bind_eq_ok.mp h
  obtain ⟨⟨⟩, s₂, hprint, h₂⟩ := bind_eq_ok.mp h₁
  obtain ⟨⟨⟩, s₃, hpush, hret⟩ := bind_eq_ok.mp h₂
  obtain ⟨hnop, -, hindex⟩ := internText_inv hintern
  obtain ⟨hprint, hsame₁⟩ := emitWith_inv hprint rfl
  obtain ⟨hpush, hsame₂⟩ := emitWith_inv hpush rfl
  obtain ⟨hret, hsame₃⟩ := emitWith_inv hret rfl
  refine ⟨index, ?_, ?_⟩
  · rw [hsame₃.strings, hsame₂.strings, hsame₁.strings, hindex]
  · have hall := hnop.seq (hprint.seq (hpush.seq hret))
    exact ⟨⟨hall.code, hall.expansions, hall.strings, hall.slots, hall.distinct⟩, hall.exits⟩

/-- The parts of a loop that is left from within. Its jump out is not noted as an exit: the loop is a scope of its own, if
    its parts have no exits. -/
theorem loopUntil_inv (h : loopUntil cond test next after s = .ok ((), t)) :
    ∃ t₁ s₂ t₂ s₃ t₃ s₄ t₄, cond s = .ok ((), t₁) ∧ test s₂ = .ok ((), t₂) ∧ next s₃ = .ok ((), t₃) ∧
      after s₄ = .ok ((), t₄) ∧ SameNotes t₁ s₂ ∧ SameNotes t₂ s₃ ∧ SameNotes t₃ s₄ ∧ SameNotes t₄ t ∧
      ∀ pc pt pn pa, Extends s pc t₁ → Extends s₂ pt t₂ → Extends s₃ pn t₃ → Extends s₄ pa t₄ →
        (∀ k, pc.exits k = [] ∧ pt.exits k = [] ∧ pn.exits k = [] ∧ pa.exits k = []) →
        Extends s (.loopUntil pc pt pn pa) t := by
  obtain ⟨found, s₄, hloop, h₁⟩ := bind_eq_ok.mp h
  obtain ⟨⟨⟩, t₄, hafter, hclose⟩ := bind_eq_ok.mp h₁
  obtain ⟨⟨⟩, t₁, s₂, t₃, hcond, hbody, hsize₁, hs, ht', hgrows, -⟩ := loop_inv hloop
  obtain ⟨⟨⟩, t₂, htest, h₂⟩ := bind_eq_ok.mp hbody
  obtain ⟨found', s₃, hjump, h₃⟩ := bind_eq_ok.mp h₂
  obtain ⟨⟨⟩, t₃', hnext, h₄⟩ := bind_eq_ok.mp h₃
  obtain ⟨rfl, rfl⟩ := pure_eq_ok.mp h₄
  obtain ⟨v₁, v₂, hopen, hsize₂, hv, hv', hguard, -⟩ := whenNonzero_inv hjump
  obtain ⟨rfl, hcode, hsame⟩ := openJump_inv hopen
  obtain ⟨hcode', hsame'⟩ := closeJump_inv hclose
  refine ⟨t₁, s₂, t₂, s₃, t₃', s₄, t₄, hcond, htest, hnext, hafter, hs, (hv.trans hsame).trans hv', ht', hsame', ?_⟩
  intro pc pt pn pa hpc hpt hpn hpa hnil
  have hexit : Grows v₁ (.exit 0) v₂ :=
    ⟨hcode, hsame.expansions, hsame.strings ▸ List.prefix_rfl, Nat.le_of_eq hsame.slots.symm, hsame.strings ▸ id⟩
  have hall := (hgrows _ _ hpc.toGrows (hpt.toGrows.seq ((hguard _ hexit).seq hpn.toGrows))).seq hpa.toGrows
  have hexits : ((Piece.loop pc (pt.seq ((Piece.guard (.exit 0)).seq pn))).seq pa).exits s.code.size
      = [{ position := v₁.code.size, waiting := 0 }] := by
    simp only [Piece.exits, fun k => (hnil k).1, fun k => (hnil k).2.1, fun k => (hnil k).2.2.1,
      fun k => (hnil k).2.2.2, hsize₂, hpt.size, hsize₁, hpc.size]
    rfl
  have hscope := hall.scope (u := t) (by rw [hexits, hcode']; rfl) hsame'
  refine ⟨hscope, ?_⟩
  rw [hsame'.exits, hpa.exits, (hnil _).2.2.2, ht'.exits, hpn.exits, (hnil _).2.2.1, hv'.exits, hsame.exits,
    hv.exits, hpt.exits, (hnil _).2.1, hs.exits, hpc.exits, (hnil _).1]
  rfl

theorem lays_loopUntil {S : List String}
    (hc : Lays S (·.Plain S 0 1) cond) (ht : Lays S (·.Plain S 0 1) test) (hn : Lays S (·.Plain S 0 0) next)
    (ha : Lays S (·.Plain S 0 0) after) : Lays S (·.Plain S 0 0) (loopUntil cond test next after) := by
  intro s ⟨⟩ t h hS
  obtain ⟨t₁, s₂, t₂, s₃, t₃, s₄, t₄, hcond, htest, hnext, hafter, h₁, h₂, h₃, h₄, hext⟩ := loopUntil_inv h
  -- The table of strings only grows, so that what it is at the end bounds it in every part.
  rw [h₄.strings] at hS
  obtain ⟨pa, hpa, hpap⟩ := ha s₄ () t₄ hafter hS
  have hS₃ := hpa.strings.trans hS
  rw [h₃.strings] at hS₃
  obtain ⟨pn, hpn, hpnp⟩ := hn s₃ () t₃ hnext hS₃
  have hS₂ := hpn.strings.trans hS₃
  rw [h₂.strings] at hS₂
  obtain ⟨pt, hpt, hptp⟩ := ht s₂ () t₂ htest hS₂
  have hS₁ := hpt.strings.trans hS₂
  rw [h₁.strings] at hS₁
  obtain ⟨pc, hpc, hpcp⟩ := hc s () t₁ hcond hS₁
  refine ⟨_, hext pc pt pn pa hpc hpt hpn hpa fun k => ?_, .loopUntil hpcp hptp hpnp hpap⟩
  exact ⟨hpcp.exits_eq_nil k, hptp.exits_eq_nil k, hpnp.exits_eq_nil k, hpap.exits_eq_nil k⟩

namespace Routine
variable {A : Error → Prop} {L : Prop} {d d' m : Nat} {α β : Type} {x : Lowering α}

/-- Routine lowering lays out plain code. -/
theorem plain (h : Routine A L d d' x) (S : List String) : Lays S (·.Plain S d d') x := by
  induction h with
  | pure =>
    intro s a t hx _
    obtain ⟨-, rfl⟩ := pure_eq_ok.mp hx
    exact ⟨.nop, .nop s, .nop _⟩
  | throw => exact fun _ _ _ hx => absurd hx throw_ne_ok
  | bind _ _ ihx ihf => exact .bind ihx ihf fun _ _ => .seq
  | quiet h k => exact fun _ _ _ hx _ => ⟨_, (emitWith_inv hx (Opcode.isJump_of_isQuiet h.1)).1, .op h k⟩
  | newSlots => exact fun _ _ _ hx _ => ⟨_, (newSlots_inv hx).1, .nop _⟩
  | fail hmessage =>
    intro s ⟨⟩ t hx hS
    obtain ⟨index, hindex, hp⟩ := fail_inv hx
    refine ⟨_, hp, .failure hmessage ?_ _⟩
    have hlt := (Array.getElem?_eq_some_iff.mp hindex).1
    rw [List.prefix_iff_getElem?.mp hS index hlt, ← hindex]
    simp [hlt]
  | branch _ _ ihy ihn => exact .branch ihy ihn fun _ _ => .branch
  | whenNonzero _ ih => exact .whenNonzero ih fun _ => .guard
  | loop _ _ _ ihc ihb => exact .loop ihc ihb fun _ _ => .loop
  | loopUntil _ _ _ _ _ ihc iht ihn iha => exact lays_loopUntil ihc iht ihn iha

theorem andThen {y : Lowering β} (hx : Routine A L d m x) (hy : Routine A L m d' y) : Routine A L d d' (x >>= fun _ => y) :=
  hx.bind fun _ => hy

theorem ite {c : Prop} [Decidable c] {y : Lowering α} (hx : c → Routine A L d d' x) (hy : ¬c → Routine A L d d' y) :
    Routine A L d d' (if c then x else y) := by
  split
  case isTrue h => exact hx h
  case isFalse h => exact hy h

theorem forM {γ : Type} {g : γ → Lowering Unit} (hg : ∀ c, Routine A L d d (g c)) (l : List γ) :
    Routine A L d d (l.forM g) := by
  induction l with
  | nil => exact .pure ()
  | cons c l ih => exact (hg c).andThen ih

end Routine

section
variable {A : Error → Prop} {L : Prop} {d : Nat} {w : Width} {x : Nat}

theorem routine_load : Routine A L d (d + 1) (load x) := .quiet (a := 0) (b := 1) (by decide) d

theorem routine_store : Routine A L (d + 1) d (store x) := .quiet (a := 1) (b := 0) (by decide) d

theorem routine_newSlot : Routine A L d d newSlot := .newSlots 1

theorem routine_spill : Routine A L (d + 1) d spill :=
  routine_newSlot.bind fun _ => routine_store.andThen (.pure _)

theorem routine_pushI32 {imm : UInt64} : Routine A L d (d + 1) (emitWith .pushI32 imm) :=
  .quiet (a := 0) (b := 1) (by decide) d

theorem routine_loadIndirect : Routine A L (d + 1) (d + 1) (emit .loadIndirect) := .quiet (a := 1) (b := 1) (by decide) d

theorem quiet_push (w : Width) : (Opcode.push w).Quiet 0 1 := by
  cases w <;> decide

theorem routine_pushInt {k : Int64} : Routine A L d (d + 1) (pushInt w k) := .quiet (quiet_push w) d

theorem routine_pushFloat {y : Float} : Routine A L d (d + 1) (pushFloat w y) := by
  unfold pushFloat
  split
  · exact .quiet (a := 0) (b := 1) (by decide) d
  · exact .quiet (a := 0) (b := 1) (by decide) d
  · exact routine_pushInt

theorem routine_arithmetic : Routine A L (d + 2) (d + 1) (arithmetic op w) :=
  .quiet (by cases op <;> cases w <;> decide) d

theorem routine_compare {op : ComparisonOp} : Routine A L (d + 2) (d + 1) (compare op w) :=
  .quiet (by cases op <;> cases w <;> decide) d

theorem quiet_negate {op : Opcode} (h : Opcode.negate? w = some op) : op.Quiet 1 1 := by
  cases w <;> cases h <;> decide

theorem quiet_convert {v w : Width} {op : Opcode} (h : Opcode.convert? v w = some op) : op.Quiet 1 1 := by
  cases v <;> cases w <;> cases h <;> decide

theorem routine_coerce {source target : Kind} : Routine A L (d + 1) (d + 1) (coerce source target) := by
  unfold coerce
  split
  · split
    case h_1 h => exact .quiet (quiet_convert h) d
    case h_2 => exact .pure ()
  · exact .pure ()

theorem routine_failIfNegative (h : message ∈ failureMessages) : Routine A L d d (failIfNegative w x message) :=
  .ite (fun _ => .pure _) fun _ =>
    routine_load.andThen <| routine_pushInt.andThen <| routine_compare.andThen <| .whenNonzero (.fail h)

theorem routine_checkRange {bound : Lowering Unit} (hb : Routine A L (d + 1) (d + 2) bound)
    (h : message ∈ failureMessages) : Routine A L d d (checkRange w x bound message) :=
  (routine_failIfNegative h).andThen <| routine_load.andThen <| hb.andThen <| routine_compare.andThen <|
    .whenNonzero (.fail h)

theorem routine_pushArgc : Routine A L d (d + 1) (emit .pushArgc) := .quiet (a := 0) (b := 1) (by decide) d

theorem routine_address {index : Nat} {scale offset : Int64} :
    Routine A L d (d + 1) (emitAddress base index scale offset) :=
  routine_load.andThen <| routine_load.andThen <| routine_pushInt.andThen <| routine_arithmetic.andThen <|
    routine_pushInt.andThen <| routine_arithmetic.andThen <| routine_pushInt.andThen <|
    routine_arithmetic.andThen routine_arithmetic

theorem routine_entriesLeft : Routine A L d (d + 1) (emitEntriesLeft count entry) :=
  routine_load.andThen <| routine_load.andThen <| .quiet (a := 2) (b := 1) (by decide) d

theorem routine_keyTest : Routine A L d (d + 1) (emitKeyTest w base key entry) :=
  routine_address.andThen <| routine_loadIndirect.andThen <| routine_load.andThen routine_compare

theorem routine_nextEntry : Routine A L d d (nextEntry entry) :=
  routine_load.andThen <| routine_pushI32.andThen <|
    Routine.andThen (.quiet (a := 2) (b := 1) (by decide) d) routine_store

theorem routine_search {checked : Bool} (h : L) : Routine A L 0 0 (emitSearch w base key count entry checked) := by
  rw [emitSearch_eq]
  exact .loopUntil h routine_entriesLeft routine_keyTest routine_nextEntry <|
    .ite (fun _ => .fail (by decide)) fun _ => .pure ()

theorem routine_dup : Routine A L (d + 1) (d + 2) (emit .dup) := .quiet (a := 1) (b := 2) (by decide) d

theorem routine_storeIndirect : Routine A L (d + 2) (d + 1) (emit .storeIndirect) :=
  .quiet (a := 2) (b := 1) (by decide) d

theorem routine_stepTop : Routine A L (d + 1) (d + 1) (stepTop op w) :=
  routine_pushInt.andThen routine_arithmetic

theorem routine_stepIndirect {address : Nat} : Routine A L d (d + 1) (stepIndirect op w address) :=
  routine_load.andThen <| routine_load.andThen <| routine_loadIndirect.andThen <|
    routine_stepTop.andThen routine_storeIndirect

theorem routine_compareSlot {op : ComparisonOp} (h : Routine A L (d + 1) (d + 2) limit) :
    Routine A L d (d + 1) (compareSlot w x op limit) :=
  routine_load.andThen <| h.andThen routine_compare

theorem routine_select {op : ComparisonOp} (hl : Routine A L (d + 1) (d + 2) limit) (hy : Routine A L d (d + 1) yes)
    (hn : Routine A L d (d + 1) no) : Routine A L d (d + 1) (select w x op limit yes no) :=
  (routine_compareSlot hl).andThen <| (Routine.branch hy hn).andThen <| .pure _

theorem routine_abs : Routine A L d (d + 1) (emitAbs w x) := by
  unfold emitAbs
  split
  case h_1 => exact routine_load
  case h_2 neg h =>
    exact routine_select routine_pushInt (routine_load.andThen (.quiet (quiet_negate h) d)) routine_load

theorem routine_positive : Routine A L d (d + 1) (emitPositive w x) :=
  routine_select routine_pushInt routine_pushInt routine_pushInt

theorem routine_sign : Routine A L d (d + 1) (emitSign w x) :=
  .ite (fun _ => routine_positive) fun _ => routine_select routine_pushInt routine_pushInt routine_positive

theorem routine_clamp {low high : Lowering Unit} (hl : ∀ d, Routine A L d (d + 1) low)
    (hh : ∀ d, Routine A L d (d + 1) high) : Routine A L d (d + 1) (emitClamp w x low high) :=
  routine_select (hl _) (hl _) <| routine_select (hh _) (hh _) routine_load

theorem routine_trunc : Routine A L d (d + 1) (emitTrunc w x) := by
  refine routine_load.andThen <| .ite (fun _ => ?_) fun _ => ?_
  all_goals exact .andThen (.quiet (a := 1) (b := 1) (by decide) d) (.quiet (a := 1) (b := 1) (by decide) d)

theorem routine_adjusted {wrong : ComparisonOp} : Routine A L d (d + 1) (emitAdjusted w x wrong op) :=
  routine_trunc.andThen <| routine_spill.bind fun _ =>
    routine_select routine_load (routine_load.andThen <| routine_pushFloat.andThen routine_arithmetic) routine_load

theorem routine_halfOff : Routine A L d d (emitHalfOff w x op) :=
  routine_load.andThen <| routine_pushFloat.andThen <| routine_arithmetic.andThen routine_spill

theorem routine_round : Routine A L d (d + 1) (emitRound w x) :=
  routine_select routine_pushFloat (routine_halfOff.bind fun _ => routine_adjusted)
    (routine_halfOff.bind fun _ => routine_adjusted)

theorem routine_fract : Routine A L d (d + 1) (emitFract w x) :=
  Routine.andThen (x := emitFloor w x) routine_adjusted <| routine_spill.bind fun _ =>
    routine_load.andThen <| routine_load.andThen routine_arithmetic

theorem routine_times {k : Nat} {piece : Lowering Unit} (h : Routine A L d d piece) :
    Routine A L d d (times k piece) := by
  induction k with
  | zero => exact .pure _
  | succ k ih => exact h.andThen ih

theorem routine_ratio {a b : Float} : Routine A L d (d + 1) (emitRatio w a b) :=
  routine_pushFloat.andThen <| routine_pushFloat.andThen routine_arithmetic

theorem routine_ifZero {op : ComparisonOp} (hy : Routine A L d (d + 1) yes)
    (hn : Routine A L d (d + 1) no) : Routine A L d (d + 1) (ifZero w x op yes no) :=
  routine_select routine_pushFloat hy hn

theorem routine_sqrtStep : Routine A L d d (sqrtStep w v x) :=
  routine_load.andThen <| routine_load.andThen <| routine_load.andThen <| routine_arithmetic.andThen <|
    routine_arithmetic.andThen <| routine_pushFloat.andThen <| routine_arithmetic.andThen routine_store

theorem routine_sqrt : Routine A L d (d + 1) (emitSqrt w v) :=
  routine_ifZero routine_pushFloat <| routine_ifZero routine_ratio <| routine_load.andThen <| routine_spill.bind fun _ =>
    (routine_times routine_sqrtStep).andThen routine_load

theorem routine_cbrtStep : Routine A L d d (cbrtStep w v x) :=
  routine_load.andThen <| routine_pushFloat.andThen <| routine_arithmetic.andThen <| routine_load.andThen <|
    routine_load.andThen <| routine_load.andThen <| routine_arithmetic.andThen <| routine_arithmetic.andThen <|
    routine_arithmetic.andThen <| routine_pushFloat.andThen <| routine_arithmetic.andThen routine_store

theorem routine_cbrt : Routine A L d (d + 1) (emitCbrt w v) :=
  routine_ifZero routine_pushFloat <| routine_load.andThen <| routine_spill.bind fun _ =>
    (routine_times routine_cbrtStep).andThen routine_load

theorem routine_expStep {k : Float} : Routine A L d d (expStep w v term sum k) :=
  routine_load.andThen <| routine_load.andThen <| routine_arithmetic.andThen <| routine_pushFloat.andThen <|
    routine_arithmetic.andThen <| routine_store.andThen <| routine_load.andThen <| routine_load.andThen <|
    routine_arithmetic.andThen routine_store

theorem routine_exp : Routine A L d (d + 1) (emitExp w v) :=
  routine_pushFloat.andThen <| routine_spill.bind fun _ => routine_pushFloat.andThen <| routine_spill.bind fun _ =>
    (Routine.forM (fun _ => routine_expStep) _).andThen routine_load

theorem routine_logStep {square : Nat} {divisor : Float} : Routine A L d d (logStep w square term sum divisor) :=
  routine_load.andThen <| routine_load.andThen <| routine_arithmetic.andThen <| routine_store.andThen <|
    routine_load.andThen <| routine_load.andThen <| routine_pushFloat.andThen <| routine_arithmetic.andThen <|
    routine_arithmetic.andThen routine_store

theorem routine_moved : Routine A L d (d + 1) (emitMoved w v op) :=
  routine_load.andThen <| routine_pushFloat.andThen routine_arithmetic

theorem routine_log : Routine A L d (d + 1) (emitLog w v) :=
  routine_ifZero routine_ratio <| routine_ifZero routine_ratio <| routine_moved.andThen <| routine_moved.andThen <|
    routine_arithmetic.andThen <| routine_spill.bind fun _ => routine_load.andThen <| routine_load.andThen <|
    routine_arithmetic.andThen <| routine_spill.bind fun _ => routine_load.andThen <| routine_spill.bind fun _ =>
    routine_load.andThen <| routine_spill.bind fun _ => (Routine.forM (fun _ => routine_logStep) _).andThen <|
    routine_load.andThen <| routine_pushFloat.andThen routine_arithmetic

theorem routine_intPow (h : L) : Routine A L d (d + 1) (emitIntPow w base exponent) :=
  (routine_failIfNegative (by decide)).andThen <| routine_pushInt.andThen <| routine_spill.bind fun _ =>
    (Routine.loop h (routine_compareSlot routine_pushInt) fun _ =>
      routine_load.andThen <| routine_load.andThen <| routine_arithmetic.andThen <| routine_store.andThen <|
        routine_load.andThen <| routine_pushInt.andThen <| routine_arithmetic.andThen routine_store).andThen routine_load

theorem routine_floatPow : Routine A L d (d + 1) (emitFloatPow w base exponent) :=
  routine_ifZero routine_ratio <| routine_ifZero
    (routine_ifZero routine_pushFloat (routine_ifZero routine_ratio routine_pushFloat))
    (routine_log.andThen <| routine_load.andThen <| routine_arithmetic.andThen <| routine_spill.bind fun _ => routine_exp)

theorem routine_foldTurn : Routine A L d d (foldTurn w x) :=
  (routine_compareSlot routine_pushFloat).andThen <| .whenNonzero <|
    routine_load.andThen <| routine_pushFloat.andThen <| routine_arithmetic.andThen routine_store

theorem routine_foldHalf {sign : Nat} {op : ComparisonOp} {limit centre : Float} :
    Routine A L d d (foldHalf w x sign op limit centre) :=
  (routine_compareSlot routine_pushFloat).andThen <| .whenNonzero <|
    routine_pushFloat.andThen <| routine_load.andThen <| routine_arithmetic.andThen <| routine_store.andThen <|
    routine_pushFloat.andThen routine_store

/-- A polynomial without coefficients would leave nothing. -/
theorem routine_polynomial : Routine A L d (d + 1) (emitPolynomial w x (c :: rest)) :=
  routine_pushFloat.andThen <| .forM (fun _ =>
    routine_load.andThen <| routine_arithmetic.andThen <| routine_pushFloat.andThen routine_arithmetic) rest

theorem routine_scaled {factor : Nat} : Routine A L d (d + 1) (emitScaled w x (c :: rest) factor) :=
  routine_polynomial.andThen <| routine_load.andThen routine_arithmetic

theorem routine_turned : Routine A L d d (emitTurned w v) :=
  routine_load.andThen <| routine_pushFloat.andThen <| routine_arithmetic.andThen <| routine_spill.bind fun turns =>
    Routine.andThen (x := emitFloor w turns) routine_adjusted <| routine_pushFloat.andThen <| routine_arithmetic.andThen <|
    routine_spill.bind fun _ => routine_load.andThen <| routine_load.andThen <| routine_arithmetic.andThen routine_spill

theorem routine_withAngle {k : Nat → Nat → Nat → Lowering Unit}
    (hk : ∀ x square sign, Routine A L d (d + 1) (k x square sign)) : Routine A L d (d + 1) (withAngle w v k) :=
  routine_turned.bind fun _ => routine_foldTurn.andThen <| routine_pushFloat.andThen <| routine_spill.bind fun _ =>
    routine_foldHalf.andThen <| routine_foldHalf.andThen <| routine_load.andThen <| routine_load.andThen <|
    routine_arithmetic.andThen <| routine_spill.bind fun _ => hk _ _ _

theorem routine_applyMath_of_length : ∀ {f : MathFunction} {slots : List Nat}, (f = .pow → L) →
    slots.length = f.arity → Routine A L d (d + 1) (applyMath name f w slots)
  | .abs, [_], _, _ => routine_abs
  | .sign, [_], _, _ => routine_sign
  | .saturate, [_], _, _ => routine_clamp (fun _ => routine_pushInt) fun _ => routine_pushInt
  | .min, [_, _], _, _ => routine_select routine_load routine_load routine_load
  | .max, [_, _], _, _ => routine_select routine_load routine_load routine_load
  | .clamp, [_, _, _], _, _ => routine_clamp (fun _ => routine_load) fun _ => routine_load
  | .pow, [_, _], h, _ => .ite (fun _ => routine_floatPow) fun _ => routine_intPow (h rfl)
  | .floor, [_], _, _ => .ite (fun _ => routine_adjusted) fun _ => routine_load
  | .ceil, [_], _, _ => .ite (fun _ => routine_adjusted) fun _ => routine_load
  | .round, [_], _, _ => .ite (fun _ => routine_round) fun _ => routine_load
  | .trunc, [_], _, _ => .ite (fun _ => routine_trunc) fun _ => routine_load
  | .fract, [_], _, _ => .ite (fun _ => routine_fract) fun _ => routine_pushInt
  | .sqrt, [_], _, _ => routine_sqrt
  | .cbrt, [_], _, _ => routine_cbrt
  | .exp, [_], _, _ => routine_exp
  | .log, [_], _, _ => routine_log
  | .sin, [_], _, _ => routine_withAngle fun _ _ _ => routine_scaled
  | .cos, [_], _, _ => routine_withAngle fun _ _ _ => routine_scaled
  | .tan, [_], _, _ =>
    routine_withAngle fun _ _ _ => routine_scaled.andThen <| routine_scaled.andThen routine_arithmetic

/-- The only fault is a wrong number of arguments, and only a power may take a loop. -/
theorem routine_applyMath {f : MathFunction} {slots : List Nat} (hL : f = .pow → L)
    (h : slots.length ≠ f.arity → A (.callShape (.builtinArity name))) :
    Routine A L d (d + 1) (applyMath name f w slots) := by
  by_cases hlength : slots.length = f.arity
  · exact routine_applyMath_of_length hL hlength
  · unfold applyMath
    split
    case h_20 => exact .throw (h hlength)
    all_goals exact absurd rfl hlength

end
end Lower
end FlatCode
