import FlatCode.Proofs.Layout.Expansion

/-! Which slots lowering uses. Slots are handed out by a counter and never taken back, so code may name only slots below
    the counter at its end; and of the slots that were taken before it starts, it stores only to those that it is
    granted. Here are the judgement that a part of lowering keeps to this, and the rules by which the parts come
    together. -/

namespace FlatCode

namespace Piece

def ops : Piece → List Instruction
  | nop | exit _ => []
  | op i _ => [i]
  | seq a b | branch a b | loop a b | expansion _ a b => a.ops ++ b.ops
  | guard body | scope body => body.ops

/-- Wherever a piece stands and its exits lead, its plain instructions are the same. -/
theorem mem_ops {p : Piece} {i : Instruction} (target k : Nat) :
    i ∈ p.ops ↔ i ∈ p.code target k ∧ i.op.isJump = false := by
  have hjump (n : Nat) : ¬(i = .leadingTo .jump n ∧ i.op.isJump = false) := by
    rintro ⟨rfl, h⟩
    exact nomatch h
  have hzero (n : Nat) : ¬(i = .leadingTo .jumpIfZero n ∧ i.op.isJump = false) := by
    rintro ⟨rfl, h⟩
    exact nomatch h
  induction p generalizing target k with
  | nop => simp [ops, code]
  | op j h =>
    simp only [ops, code, List.mem_singleton]
    exact ⟨fun hi => ⟨hi, hi ▸ h⟩, And.left⟩
  | seq a b iha ihb => simp only [ops, code, List.mem_append, iha target k, ihb target (k + a.size), or_and_right]
  | branch yes no ihy ihn =>
    simp only [ops, code, List.mem_append, List.mem_cons, ihy target (k + 1), ihn target (k + yes.size + 2),
      or_and_right, hjump, hzero, false_or]
  | guard body ih => simp only [ops, code, List.mem_cons, ih target (k + 1), or_and_right, hzero, false_or]
  | loop cond body ihc ihb =>
    simp only [ops, code, List.mem_append, List.mem_cons, List.not_mem_nil, ihc target k,
      ihb target (k + cond.size + 1), or_and_right, hjump, hzero, false_or, or_false]
  | exit => simp only [ops, code, List.mem_singleton, List.not_mem_nil, hjump]
  | scope body ih => exact ih _ _
  | expansion callee args body iha ihb =>
    simp only [ops, code, List.mem_append, iha target k, ihb (k + args.size + body.size) (k + args.size), or_and_right]

end Piece

/-- The slot that an instruction names, if it names one, is below `m`; and it may store only to slots in `G`. -/
def Instruction.Within (G : Nat → Prop) (m : Nat) (i : Instruction) : Prop :=
  i.op.namesSlot = true → ∃ k, i.imm = UInt64.ofNat k ∧ k < m ∧ (i.op = .storeLocal → G k)

theorem Instruction.Within.mono {G : Nat → Prop} {m m' : Nat} {i : Instruction} (h : i.Within G m) (hm : m ≤ m') :
    i.Within G m' := fun hop =>
  have ⟨k, himm, hk, hG⟩ := h hop
  ⟨k, himm, Nat.lt_of_lt_of_le hk hm, hG⟩

theorem Opcode.isJump_of_namesSlot {op : Opcode} (h : op.namesSlot = true) : op.isJump = false := by
  unfold Opcode.namesSlot at h
  split at h
  case h_4 => exact nomatch h
  all_goals rfl

/-- The slots that the code of a piece names, as numbers. -/
theorem Piece.within_code {p : Piece} {G : Nat → Prop} {m : Nat} (h : ∀ i ∈ p.ops, i.Within G m) (hm : m ≤ 2 ^ 64)
    (target k : Nat) : ∀ i ∈ p.code target k, i.op.namesSlot = true →
      i.imm.toNat < m ∧ (i.op = .storeLocal → G i.imm.toNat) := by
  intro i hi hop
  obtain ⟨slot, himm, hslot, hG⟩ := h i ((mem_ops target k).mpr ⟨hi, Opcode.isJump_of_namesSlot hop⟩) hop
  have htoNat : i.imm.toNat = slot := by
    rw [himm]
    exact UInt64.toNat_ofNat_of_lt' (Nat.lt_of_lt_of_le hslot hm)
  exact htoNat.symm ▸ ⟨hslot, hG⟩

namespace Lower
open Stateful

/-- `x` keeps to the slots in `G`, if the first `m` are taken: it extends the code by instructions that name taken slots
    only and store only to those in `G`. Its result and the number of taken slots after it have the property `Q`. -/
def Respects {α : Type} (G : Nat → Prop) (m : Nat) (x : Lowering α) (Q : α → Nat → Prop) : Prop :=
  ∀ s a t, m ≤ s.nextSlot → x s = .ok (a, t) →
    ∃ p, Extends s p t ∧ (∀ i ∈ p.ops, i.Within G t.nextSlot) ∧ Q a t.nextSlot

abbrev Tidy {α : Type} (G : Nat → Prop) (m : Nat) (x : Lowering α) : Prop := Respects G m x fun _ _ => True

def Fresh (G : Nat → Prop) (m : Nat) : Prop := ∀ k, m ≤ k → G k

theorem Fresh.mono {G : Nat → Prop} {m m' : Nat} (h : Fresh G m) (hm : m ≤ m') : Fresh G m' :=
  fun k hk => h k (Nat.le_trans hm hk)

variable {op : Opcode} {message : String}

section
variable {G : Nat → Prop} {m m' : Nat} {α β : Type}

namespace Respects
variable {x : Lowering α} {f : α → Lowering β} {Q : α → Nat → Prop} {R : β → Nat → Prop}

theorem later (h : Respects G m x Q) (hm : m ≤ m') : Respects G m' x Q :=
  fun s a t hs => h s a t (Nat.le_trans hm hs)

theorem bind (hx : Respects G m x Q) (hf : ∀ a m', m ≤ m' → Q a m' → Respects G m' (f a) R) :
    Respects G m (x >>= f) R := by
  intro s b v hs h
  obtain ⟨a, t, h₁, h₂⟩ := bind_eq_ok.mp h
  obtain ⟨p, hp, hops, ha⟩ := hx s a t hs h₁
  obtain ⟨q, hq, hops', hb⟩ := hf a t.nextSlot (Nat.le_trans hs hp.slots) ha t b v (Nat.le_refl _) h₂
  refine ⟨p.seq q, hp.seq hq, fun i hi => ?_, hb⟩
  rcases List.mem_append.mp hi with hi | hi
  · exact (hops i hi).mono hq.slots
  · exact hops' i hi

variable {e : Error} {y : Lowering β} {γ : Type}

theorem andThen (hx : Respects G m x Q) (hy : Respects G m y R) : Respects G m (x >>= fun _ => y) R :=
  hx.bind fun _ _ hm _ => hy.later hm

theorem pure {a : α} (ha : ∀ m', m ≤ m' → Q a m') : Respects G m (pure a) Q := by
  intro s b t hs h
  obtain ⟨rfl, rfl⟩ := pure_eq_ok.mp h
  exact ⟨.nop, .nop s, nofun, ha _ hs⟩

theorem throw : Respects G m (throw e : Lowering α) Q := fun _ _ _ _ h => absurd h throw_ne_ok

theorem of_nop (h : ∀ s a t, m ≤ s.nextSlot → x s = .ok (a, t) → Extends s .nop t ∧ Q a t.nextSlot) :
    Respects G m x Q := by
  intro s a t hs hx
  obtain ⟨hp, ha⟩ := h s a t hs hx
  exact ⟨.nop, hp, nofun, ha⟩

theorem liftBind {e : Except Error α} (hf : ∀ a, e = .ok a → Respects G m (f a) R) :
    Respects G m (liftM e >>= f) R := by
  intro s b v hs h
  obtain ⟨a, t, h₁, h₂⟩ := bind_eq_ok.mp h
  obtain ⟨he, rfl⟩ := lift_eq_ok.mp h₁
  exact hf a he _ b v hs h₂

theorem check {failed : Prop} [Decidable failed] {k : Unit → Lowering α} (hk : ¬failed → Respects G m (k ()) Q) :
    Respects G m (if failed then MonadExcept.throw e >>= k else k ()) Q :=
  fun s a t hs h => hk (check_eq_ok.mp h).1 s a t hs (check_eq_ok.mp h).2

theorem ite {c : Prop} [Decidable c] {y : Lowering α} (hx : c → Respects G m x Q) (hy : ¬c → Respects G m y Q) :
    Respects G m (if c then x else y) Q := by
  split
  case isTrue h => exact hx h
  case isFalse h => exact hy h

theorem branch (hx : Respects G m x Q) (hy : Respects G m y R) : Tidy G m (branch x y) := by
  intro s ⟨a, b⟩ t hs h
  obtain ⟨s₁, t₁, s₂, t₂, hyes, hno, hstart, hm, ht, hext⟩ := branch_inv h
  obtain ⟨p, hp, hops, -⟩ := hx s₁ a t₁ (hstart.slots ▸ hs) hyes
  have hs₂ : m ≤ s₂.nextSlot := by rw [hm.slots]; exact Nat.le_trans (hstart.slots ▸ hs) hp.slots
  obtain ⟨q, hq, hops', -⟩ := hy s₂ b t₂ hs₂ hno
  refine ⟨.branch p q, hext p q hp hq, fun i hi => ?_, trivial⟩
  rw [ht.slots]
  rcases List.mem_append.mp hi with hi | hi
  · exact (hops i hi).mono (hm.slots ▸ hq.slots)
  · exact hops' i hi

theorem whenNonzero (hx : Respects G m x Q) : Tidy G m (whenNonzero x) := by
  intro s a t hs h
  obtain ⟨s₁, t₁, hbody, -, hstart, ht, -, hext⟩ := whenNonzero_inv h
  obtain ⟨p, hp, hops, -⟩ := hx s₁ a t₁ (hstart.slots ▸ hs) hbody
  exact ⟨.guard p, hext p hp, fun i hi => ht.slots ▸ hops i hi, trivial⟩

theorem loop (hx : Respects G m x Q) (hf : ∀ a m', m ≤ m' → Q a m' → Tidy G m' (f a)) : Tidy G m (loop x f) := by
  intro s b t hs h
  obtain ⟨a, t₁, s₂, t₂, hcond, hbody, -, hm, ht, -, hext⟩ := loop_inv h
  obtain ⟨p, hp, hops, ha⟩ := hx s a t₁ hs hcond
  obtain ⟨q, hq, hops', -⟩ := hf a t₁.nextSlot (Nat.le_trans hs hp.slots) ha s₂ b t₂ (Nat.le_of_eq hm.slots.symm) hbody
  refine ⟨.loop p q, hext p q hp hq, fun i hi => ?_, trivial⟩
  rw [ht.slots]
  rcases List.mem_append.mp hi with hi | hi
  · exact (hops i hi).mono (hm.slots ▸ hq.slots)
  · exact hops' i hi

theorem forM {g : γ → Lowering Unit} (hg : ∀ c, Tidy G m (g c)) (l : List γ) : Tidy G m (l.forM g) := by
  induction l with
  | nil => exact .pure fun _ _ => trivial
  | cons c l ih => exact (hg c).andThen ih

/-- Results with a property that stays true as slots are taken. -/
theorem mapM {g : γ → Lowering α} {P : α → Nat → Prop} (hP : ∀ a m m', m ≤ m' → P a m → P a m') {l : List γ}
    (hg : ∀ c ∈ l, ∀ m', m ≤ m' → Respects G m' (g c) P) : Respects G m (l.mapM g) fun as m' => ∀ a ∈ as, P a m' := by
  induction l generalizing m with
  | nil => exact .pure fun _ _ => nofun
  | cons c l ih =>
    rw [List.mapM_cons]
    refine (hg c List.mem_cons_self m (Nat.le_refl _)).bind fun a m₁ hm₁ ha => ?_
    refine (ih fun c hc m' hm' => hg c (List.mem_cons_of_mem _ hc) m' (Nat.le_trans hm₁ hm')).bind ?_
    intro as m₂ hm₂ has
    refine .pure fun m₃ hm₃ => List.forall_mem_cons.mpr ⟨hP a _ _ (Nat.le_trans hm₂ hm₃) ha, fun b hb => ?_⟩
    exact hP b _ _ hm₃ (has b hb)

end Respects

theorem respects_newSlots {n : Nat} : Respects G m (newSlots n) fun k m' => m ≤ k ∧ k + n ≤ m' :=
  .of_nop fun s k t hs h => by
    obtain ⟨hp, rfl, ht, -⟩ := newSlots_inv h
    exact ⟨hp, hs, Nat.le_of_eq ht.symm⟩

theorem respects_newSlot : Respects G m newSlot fun k m' => m ≤ k ∧ k < m' := respects_newSlots (n := 1)

theorem tidy_internText {text : String} : Tidy G m (internText text) :=
  .of_nop fun _ _ _ _ h => ⟨(internText_inv h).1, trivial⟩

theorem tidy_infer {x : Infer α} : Tidy G m (infer x) :=
  .of_nop fun s _ _ _ h => by
    obtain ⟨cache, -, rfl⟩ := infer_inv h
    exact ⟨extends_cache.mp (.nop { s with cache }), trivial⟩

theorem tidy_get : Tidy G m (get : Lowering State) :=
  .of_nop fun s _ _ _ h => by
    cases h
    exact ⟨.nop s, trivial⟩

theorem tidy_operand {ctx : Context} {locals : Locals} {e : Expr} : Tidy G m (ctx.operand locals e) := tidy_infer

theorem tidy_emitWith {imm : UInt64} (hjump : op.isJump = false) (hslot : op.namesSlot = false) :
    Tidy G m (emitWith op imm) := by
  intro s ⟨⟩ t _ hx
  refine ⟨_, (emitWith_inv hx hjump).1, fun i hi hop => ?_, trivial⟩
  obtain rfl := List.mem_singleton.mp hi
  exact absurd (hslot.symm.trans hop) nofun

theorem tidy_slot {k : Nat} (hjump : op.isJump = false) (hk : k < m) (hG : op = .storeLocal → G k) :
    Tidy G m (emitWith op (UInt64.ofNat k)) := by
  intro s ⟨⟩ t hs hx
  have hext := (emitWith_inv hx hjump).1
  refine ⟨_, hext, fun i hi _ => ?_, trivial⟩
  obtain rfl := List.mem_singleton.mp hi
  exact ⟨k, rfl, Nat.lt_of_lt_of_le hk (Nat.le_trans hs hext.slots), hG⟩

section
variable {slot : Nat} {w : Width}

theorem tidy_load (h : slot < m) : Tidy G m (load slot) := tidy_slot rfl h nofun

theorem tidy_address (h : slot < m) : Tidy G m (emitWith .addressOfLocal (UInt64.ofNat slot)) := tidy_slot rfl h nofun

theorem tidy_store (h : slot < m) (hG : G slot) : Tidy G m (store slot) := tidy_slot rfl h fun _ => hG

theorem respects_spill (hG : Fresh G m) : Respects G m spill fun k m' => k < m' ∧ G k :=
  respects_newSlot.bind fun k _ _ hk => (tidy_store hk.2 (hG k hk.1)).andThen <|
    .pure fun _ hm' => ⟨Nat.lt_of_lt_of_le hk.2 hm', hG k hk.1⟩

theorem tidy_pushInt {k : Int64} : Tidy G m (pushInt w k) :=
  tidy_emitWith (by cases w <;> rfl) (by cases w <;> rfl)

theorem tidy_pushFloat {y : Float} : Tidy G m (pushFloat w y) := by
  unfold pushFloat
  split
  · exact tidy_emitWith rfl rfl
  · exact tidy_emitWith rfl rfl
  · exact tidy_pushInt

theorem tidy_arithmetic {op : ArithmeticOp} : Tidy G m (arithmetic op w) :=
  tidy_emitWith (by cases op <;> cases w <;> rfl) (by cases op <;> cases w <;> rfl)

theorem tidy_compare {op : ComparisonOp} : Tidy G m (compare op w) :=
  tidy_emitWith (by cases op <;> cases w <;> rfl) (by cases op <;> cases w <;> rfl)

theorem tidy_negate (h : Opcode.negate? w = some op) : Tidy G m (emit op) :=
  tidy_emitWith (by cases w <;> cases h <;> rfl) (by cases w <;> cases h <;> rfl)

theorem tidy_coerce {source target : Kind} : Tidy G m (coerce source target) := by
  unfold coerce
  split
  · split
    case h_1 v w _ _ _ op h =>
      exact tidy_emitWith (by cases v <;> cases w <;> cases h <;> rfl) (by cases v <;> cases w <;> cases h <;> rfl)
    case h_2 => exact .pure fun _ _ => trivial
  · exact .pure fun _ _ => trivial

end

theorem tidy_fail : Tidy G m (fail message) :=
  tidy_internText.bind fun _ _ _ _ => (tidy_emitWith rfl rfl).andThen <| (tidy_emitWith rfl rfl).andThen <|
    tidy_emitWith rfl rfl

theorem tidy_failIfNegative {w : Width} {slot : Nat} (h : slot < m) : Tidy G m (failIfNegative w slot message) :=
  .ite (fun _ => .pure fun _ _ => trivial) fun _ =>
    (tidy_load h).andThen <| tidy_pushInt.andThen <| tidy_compare.andThen <| tidy_fail.whenNonzero

end
end Lower
end FlatCode
