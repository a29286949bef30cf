import FlatCode.Lower.Emitter
import FlatCode.Proofs.Growth
import FlatCode.Proofs.Source.Syntax

/-! Lowering that yields a piece of code with a property, and the rules by which its parts come together. -/

namespace FlatCode

def Piece.Stores (slot : Nat) : Piece → Prop
  | .op i _ => i = { op := .storeLocal, imm := UInt64.ofNat slot }
  | .seq a b | .branch a b | .loop a b | .expansion _ a b => a.Stores slot ∨ b.Stores slot
  | .guard a | .scope a => a.Stores slot
  | .nop | .exit _ => False

theorem Piece.Stores.mem_code {p : Piece} {slot : Nat} (h : p.Stores slot) (target k : Nat) :
    { op := .storeLocal, imm := UInt64.ofNat slot } ∈ p.code target k := by
  induction p generalizing target k with
  | nop | exit => exact h.elim
  | op i => exact List.mem_singleton.mpr h.symm
  | seq a b iha ihb =>
    rcases h with h | h
    · exact List.mem_append_left _ (iha h ..)
    · exact List.mem_append_right _ (ihb h ..)
  | branch a b iha ihb =>
    rcases h with h | h
    · exact List.mem_append_left _ (List.mem_cons_of_mem _ (iha h ..))
    · exact List.mem_append_right _ (List.mem_cons_of_mem _ (ihb h ..))
  | guard a ih => exact List.mem_cons_of_mem _ (ih h ..)
  | loop a b iha ihb =>
    rcases h with h | h
    · exact List.mem_append_left _ (List.mem_append_left _ (iha h ..))
    · exact List.mem_append_left _ (List.mem_append_right _ (List.mem_cons_of_mem _ (ihb h ..)))
  | scope a ih => exact ih h ..
  | expansion _ a b iha ihb =>
    rcases h with h | h
    · exact List.mem_append_left _ (iha h ..)
    · exact List.mem_append_right _ (ihb h ..)

namespace Source
open Lower Stateful

/-! ### Slots -/

def Fills (lo hi : Nat) (p : Piece) : Prop := ∀ i, lo ≤ i → i < hi → p.Stores i

section
variable {lo mid hi : Nat} {p q : Piece}

theorem Fills.none : Fills lo lo p := fun _ hlo hhi => absurd hhi (Nat.not_lt.mpr hlo)

theorem Fills.seq (hp : Fills lo mid p) (hq : Fills mid hi q) : Fills lo hi (p.seq q) := by
  intro i hlo hhi
  by_cases hmid : i < mid
  · exact .inl (hp i hlo hmid)
  · exact .inr (hq i (Nat.not_lt.mp hmid) hhi)

theorem Fills.branch (hp : Fills lo mid p) (hq : Fills mid hi q) : Fills lo hi (.branch p q) := hp.seq hq

theorem Fills.loop (hp : Fills lo mid p) (hq : Fills mid hi q) : Fills lo hi (.loop p q) := hp.seq hq

theorem Fills.slot {plain : Opcode.storeLocal.isJump = false} :
    Fills lo (lo + 1) (.op { op := .storeLocal, imm := UInt64.ofNat lo } plain) := by
  intro i hlo hhi
  cases Nat.le_antisymm hlo (Nat.le_of_lt_succ hhi)
  rfl

/-- The first slot is stored to after the others. -/
theorem Fills.store {plain : Opcode.storeLocal.isJump = false} (h : Fills (lo + 1) hi p) :
    Fills lo hi (p.seq (.op { op := .storeLocal, imm := UInt64.ofNat lo } plain)) := by
  intro i hlo hhi
  rcases Nat.eq_or_lt_of_le hlo with rfl | hlt
  · exact .inr rfl
  · exact .inl (h i hlt hhi)

end

/-! ### Lowering -/

def failureText : String := "loop count must be non-negative"

/-- The tables of `s` are still there in `t`, and no text has come to them but the message. -/
structure Later (s t : State) : Prop where
  strings : s.strings.toList <+: t.strings.toList
  slots : s.nextSlot ≤ t.nextSlot
  texts : ∀ x ∈ t.strings, x ∈ s.strings ∨ x = failureText

theorem Later.refl {s : State} : Later s s := ⟨List.prefix_rfl, Nat.le_refl _, fun _ => .inl⟩

theorem Later.trans {s t u : State} (h : Later s t) (h' : Later t u) : Later s u where
  strings := h.strings.trans h'.strings
  slots := Nat.le_trans h.slots h'.slots
  texts x hx := (h'.texts x hx).elim (h.texts x) .inr

/-- If `x` succeeds, it lays out a piece of code such that `Φ` holds of it, of the result and of the state it leads to. -/
def Yields {α : Type} (x : Lowering α) (s : State) (Φ : α → State → Piece → Prop) : Prop :=
  ∀ a t, x s = .ok (a, t) → ∃ p, Extends s p t ∧ Later s t ∧ Φ a t p

theorem mem_of_mem_intern {strings : Array String} {text x : String} (h : x ∈ (intern strings text).2) :
    x ∈ strings ∨ x = text := by
  rw [intern] at h
  split at h
  · exact .inl h
  · exact Array.mem_push.mp h

section
variable {α β : Type} {x : Lowering α} {s : State} {Φ Ψ : α → State → Piece → Prop} {Θ : β → State → Piece → Prop}
  {f : α → Lowering β}

namespace Yields

theorem imp (h : Yields x s Φ) (hΦ : ∀ a t p, Φ a t p → Ψ a t p) : Yields x s Ψ := by
  intro a t hx
  obtain ⟨p, hp, hlater, ha⟩ := h a t hx
  exact ⟨p, hp, hlater, hΦ a t p ha⟩

theorem later (h : Yields x s Φ) : Yields x s fun a t p => Later s t ∧ Φ a t p := by
  intro a t hx
  obtain ⟨p, hp, hlater, ha⟩ := h a t hx
  exact ⟨p, hp, hlater, hlater, ha⟩

theorem pure {a : α} (h : Φ a s .nop) : Yields (pure a) s Φ := by
  intro b t hx
  obtain ⟨rfl, rfl⟩ := pure_eq_ok.mp hx
  exact ⟨.nop, .nop s, .refl, h⟩

variable {e : Error} {op : Opcode} {imm : UInt64} {b : α → β}

theorem throw : Yields (throw e : Lowering α) s Φ := fun _ _ h => absurd h throw_ne_ok

theorem bind (hx : Yields x s Φ)
    (hf : ∀ a t p, Later s t → Φ a t p → Yields (f a) t fun b u q => Later t u → Θ b u (p.seq q)) :
    Yields (x >>= f) s Θ := by
  intro b u h
  obtain ⟨a, t, h₁, h₂⟩ := bind_eq_ok.mp h
  obtain ⟨p, hp, hst, ha⟩ := hx a t h₁
  obtain ⟨q, hq, htu, hb⟩ := hf a t p hst ha b u h₂
  exact ⟨p.seq q, hp.seq hq, hst.trans htu, hb htu⟩

theorem bindEnd (hx : Yields x s fun a t p => ∀ b u, f a t = .ok (b, u) → u = t ∧ Θ b t p) : Yields (x >>= f) s Θ := by
  intro b u h
  obtain ⟨a, t, h₁, h₂⟩ := bind_eq_ok.mp h
  obtain ⟨p, hp, hst, ha⟩ := hx a t h₁
  obtain ⟨rfl, hb⟩ := ha b u h₂
  exact ⟨p, hp, hst, hb⟩

theorem bindPure (hx : Yields x s fun a t p => Θ (b a) t p) : Yields (x >>= fun a => Pure.pure (b a)) s Θ :=
  bindEnd (hx.imp fun a t p ha c u h => by
    obtain ⟨rfl, rfl⟩ := pure_eq_ok.mp h
    exact ⟨rfl, ha⟩)

/-- The same, where the rest is known only from the property of the result. -/
theorem bindDone (hx : Yields x s fun a t p => f a = Pure.pure (b a) ∧ Θ (b a) t p) : Yields (x >>= f) s Θ :=
  bindEnd (hx.imp fun a t p ⟨hf, ha⟩ c u h => by
    rw [hf] at h
    obtain ⟨rfl, rfl⟩ := pure_eq_ok.mp h
    exact ⟨rfl, ha⟩)

theorem liftBind {e : Except Error α} (hf : ∀ a, e = .ok a → Yields (f a) s Θ) : Yields (liftM e >>= f) s Θ := by
  intro b u h
  obtain ⟨a, t, h₁, h₂⟩ := bind_eq_ok.mp h
  obtain ⟨he, rfl⟩ := lift_eq_ok.mp h₁
  exact hf a he b u h₂

theorem check {failed : Prop} [Decidable failed] {k : Unit → Lowering α}
    (hk : ¬failed → Yields (k ()) s Φ) : Yields (if failed then MonadExcept.throw e >>= k else k ()) s Φ :=
  fun a t h => hk (check_eq_ok.mp h).1 a t (check_eq_ok.mp h).2

theorem ite {c : Prop} [Decidable c] {y : Lowering α} (hx : c → Yields x s Φ) (hy : ¬c → Yields y s Φ) :
    Yields (if c then x else y) s Φ := by
  split
  case isTrue hc => exact hx hc
  case isFalse hc => exact hy hc

theorem inferBind {m : Infer α}
    (hf : ∀ a cache cache', m.run cache = some (.ok a, cache') → Yields (f a) { s with cache := cache' } Θ) :
    Yields (infer m >>= f) s Θ := by
  intro b u h
  obtain ⟨a, t, h₁, h₂⟩ := bind_eq_ok.mp h
  obtain ⟨cache, hm, rfl⟩ := infer_inv h₁
  obtain ⟨p, hp, hlater, hb⟩ := hf a _ cache hm b u h₂
  exact ⟨p, extends_cache.mp hp, ⟨hlater.strings, hlater.slots, hlater.texts⟩, hb⟩

theorem newSlotBind {f : Nat → Lowering β}
    (hf : Yields (f s.nextSlot) { s with nextSlot := s.nextSlot + 1 } fun b u q => s.nextSlot < u.nextSlot → Θ b u q) :
    Yields (newSlot >>= f) s Θ := by
  intro b u h
  obtain ⟨a, t, h₁, h₂⟩ := bind_eq_ok.mp h
  cases h₁
  obtain ⟨p, hp, hlater, hb⟩ := hf b u h₂
  refine ⟨p, ⟨⟨hp.code, hp.expansions, hp.strings, Nat.le_of_succ_le hp.slots, hp.distinct⟩, hp.exits⟩, ?_, hb hp.slots⟩
  exact ⟨hlater.strings, Nat.le_of_succ_le hlater.slots, hlater.texts⟩

theorem internTextBind {f : Nat → Lowering β}
    (hf : ∀ i t, t.nextSlot = s.nextSlot → i < t.strings.size → Yields (f i) t fun b u q => Later t u → Θ b u q) :
    Yields (internText failureText >>= f) s Θ := by
  intro b u h
  obtain ⟨i, t, h₁, h₂⟩ := bind_eq_ok.mp h
  obtain ⟨hext, hslots, hi⟩ := internText_inv h₁
  obtain ⟨hi, -⟩ := Array.getElem?_eq_some_iff.mp hi
  obtain ⟨p, hp, htu, hb⟩ := hf i t hslots hi b u h₂
  have hst : Later s t := ⟨hext.strings, hext.slots, by cases h₁; exact fun x hx => mem_of_mem_intern hx⟩
  have hcode := hext.code
  have hsize := hext.size
  simp only [Piece.code, List.append_nil, Piece.size, Nat.add_zero] at hcode hsize
  refine ⟨p, ⟨⟨?_, ?_, hext.strings.trans hp.strings, Nat.le_trans hext.slots hp.slots, hp.distinct ∘ hext.distinct⟩, ?_⟩,
    hst.trans htu, hb htu⟩
  · rw [hp.code, hcode, hsize]
  · rw [hp.expansions, hext.expansions, hsize]
    rfl
  · rw [hp.exits, hext.exits, hsize]
    rfl

/-! ### Instructions, branches and loops -/

theorem emitWith {Φ : Unit → State → Piece → Prop} (plain : op.isJump = false)
    (h : ∀ c, Φ () { s with code := c } (.op { op, imm } plain)) : Yields (emitWith op imm) s Φ := by
  intro a t hx
  refine ⟨_, (emitWith_inv hx plain).1, ?_⟩
  cases hx
  exact ⟨⟨List.prefix_rfl, Nat.le_refl _, fun _ => .inl⟩, h _⟩

theorem emitBind {f : Unit → Lowering β} (plain : op.isJump = false)
    (hf : ∀ c, Yields (f ()) { s with code := c } fun b u q => Θ b u (.seq (.op { op, imm } plain) q)) :
    Yields (Lower.emitWith op imm >>= f) s Θ := by
  refine .bind (Φ := fun _ t p => (∃ c, t = { s with code := c }) ∧ p = .op { op, imm } plain)
    (.emitWith plain fun c => ⟨⟨c, rfl⟩, rfl⟩) ?_
  rintro ⟨⟩ _ _ - ⟨⟨c, rfl⟩, rfl⟩
  exact (hf c).imp fun _ _ _ hb _ => hb

theorem branch {y : Lowering β} {Θ : α × β → State → Piece → Prop}
    (hx : ∀ c k, Yields x { s with code := c, cache := k } Φ)
    (hy : ∀ a t p, Later s t → Φ a t p → ∀ c k, Yields y { t with code := c, cache := k } fun b u q =>
      ∀ c k, Later t { u with code := c, cache := k } → Θ (a, b) { u with code := c, cache := k } (.branch p q)) :
    Yields (branch x y) s Θ := by
  intro ⟨a, b⟩ t h
  obtain ⟨s₁, t₁, s₂, t₂, hyes, hno, hs, hm, ht, hext⟩ := branch_inv h
  rw [hs.eq] at hyes
  obtain ⟨p, hp, hst, ha⟩ := hx _ _ a t₁ hyes
  replace hst : Later s t₁ := ⟨hst.strings, hst.slots, hst.texts⟩
  rw [hm.eq] at hno
  obtain ⟨q, hq, htu, hb⟩ := hy a t₁ p hst ha _ _ b t₂ hno
  rw [← hs.eq] at hp
  rw [← hm.eq] at hq
  refine ⟨.branch p q, hext p q hp hq, ?_⟩
  rw [ht.eq]
  have htv : Later t₁ { t₂ with code := t.code, cache := t.cache } := ⟨htu.strings, htu.slots, htu.texts⟩
  exact ⟨hst.trans htv, hb _ _ htv⟩

theorem whenNonzero (hx : ∀ c k, Yields x { s with code := c, cache := k } fun a t p =>
      ∀ c k, Φ a { t with code := c, cache := k } (.guard p)) :
    Yields (whenNonzero x) s Φ := by
  intro a t h
  obtain ⟨s₁, t₁, hbody, -, hs, ht, -, hext⟩ := whenNonzero_inv h
  rw [hs.eq] at hbody
  obtain ⟨p, hp, hst, ha⟩ := hx _ _ a t₁ hbody
  rw [← hs.eq] at hp
  refine ⟨.guard p, hext p hp, ?_⟩
  rw [ht.eq]
  exact ⟨⟨hst.strings, hst.slots, hst.texts⟩, ha _ _⟩

theorem loop (hx : Yields x s Φ)
    (hf : ∀ a t p, Later s t → Φ a t p → ∀ c k, Yields (f a) { t with code := c, cache := k } fun b u q =>
      ∀ c k, Later t { u with code := c, cache := k } → Θ b { u with code := c, cache := k } (.loop p q)) :
    Yields (loop x f) s Θ := by
  intro b t h
  obtain ⟨a, t₁, s₂, t₂, hcond, hbody, -, hm, ht, -, hext⟩ := loop_inv h
  obtain ⟨p, hp, hst, ha⟩ := hx a t₁ hcond
  rw [hm.eq] at hbody
  obtain ⟨q, hq, htu, hb⟩ := hf a t₁ p hst ha _ _ b t₂ hbody
  rw [← hm.eq] at hq
  refine ⟨.loop p q, hext p q hp hq, ?_⟩
  rw [ht.eq]
  have htv : Later t₁ { t₂ with code := t.code, cache := t.cache } := ⟨htu.strings, htu.slots, htu.texts⟩
  exact ⟨hst.trans htv, hb _ _ htv⟩

end Yields
end
end Source
end FlatCode
