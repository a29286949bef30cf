import FlatCode.Proofs.Monad
import FlatCode.Proofs.Piece

/-! How the pieces that lowering is built from change its state: each lays out one piece of structured code at the end
    of the code and leaves everything before it as it was. -/

namespace FlatCode.Lower
open Stateful

/-- From `s` to `t` the code has grown by a piece whose open exits lead to zero, and the tables have only grown; no
    string is added that is there. -/
structure Grows (s : State) (p : Piece) (t : State) : Prop where
  code : t.code.toList = s.code.toList ++ p.code 0 s.code.size
  expansions : t.expansions = p.expansions s.code.size ++ s.expansions
  strings : s.strings.toList <+: t.strings.toList
  slots : s.nextSlot ≤ t.nextSlot
  distinct : s.strings.toList.Nodup → t.strings.toList.Nodup

/-- The code has grown by a piece, and its open exits are noted. -/
structure Extends (s : State) (p : Piece) (t : State) : Prop extends Grows s p t where
  exits : t.exits = p.exits s.code.size ++ s.exits

/-- All but the code, and the results known, is the same. -/
structure SameNotes (s t : State) : Prop where
  strings : t.strings = s.strings
  slots : t.nextSlot = s.nextSlot
  exits : t.exits = s.exits
  expansions : t.expansions = s.expansions

variable {k : Nat} {op : Opcode} {text : String} {α β : Type} {a : α} {b : β}

section
variable {s t u : State} {p q : Piece}

theorem SameNotes.trans (h : SameNotes s t) (h' : SameNotes t u) : SameNotes s u where
  strings := h'.strings.trans h.strings
  slots := h'.slots.trans h.slots
  exits := h'.exits.trans h.exits
  expansions := h'.expansions.trans h.expansions

/-- A state with the same notes differs in the code and in the results known. -/
theorem SameNotes.eq (h : SameNotes s t) : t = { s with code := t.code, cache := t.cache } := by
  obtain ⟨hstrings, hslots, hexits, hexpansions⟩ := h
  cases s
  cases t
  cases hstrings
  cases hslots
  cases hexits
  cases hexpansions
  rfl

theorem Grows.size (h : Grows s p t) : t.code.size = s.code.size + p.size := by
  rw [← Array.length_toList, h.code, List.length_append, Piece.length_code, Array.length_toList]

theorem Extends.nop (s : State) : Extends s .nop s where
  code := by simp [Piece.code]
  expansions := rfl
  strings := List.prefix_rfl
  slots := Nat.le_refl _
  distinct := id
  exits := rfl

theorem Grows.seq (h : Grows s p t) (h' : Grows t q u) : Grows s (p.seq q) u where
  code := by rw [h'.code, h.code, h.size, Piece.code, List.append_assoc]
  expansions := by rw [h'.expansions, h.expansions, h.size, Piece.expansions, List.append_assoc]
  strings := h.strings.trans h'.strings
  slots := Nat.le_trans h.slots h'.slots
  distinct := h'.distinct ∘ h.distinct

theorem Extends.seq (h : Extends s p t) (h' : Extends t q u) : Extends s (p.seq q) u where
  toGrows := h.toGrows.seq h'.toGrows
  exits := by rw [h'.exits, h.exits, h.size, Piece.exits, List.append_assoc]

/-- A state with other results known is as good as the first. -/
theorem extends_cache {cache : ReturnCache} : Extends { s with cache } p t ↔ Extends s p t :=
  ⟨fun h => ⟨⟨h.code, h.expansions, h.strings, h.slots, h.distinct⟩, h.exits⟩,
    fun h => ⟨⟨h.code, h.expansions, h.strings, h.slots, h.distinct⟩, h.exits⟩⟩

/-! ### Instructions and slots -/

theorem emitWith_inv {imm : UInt64} (h : emitWith op imm s = .ok ((), t)) (plain : op.isJump = false) :
    Extends s (.op { op, imm } plain) t ∧ SameNotes s t := by
  cases h
  exact ⟨⟨⟨Array.toList_push, rfl, List.prefix_rfl, Nat.le_refl _, id⟩, rfl⟩, ⟨rfl, rfl, rfl, rfl⟩⟩

theorem newSlots_inv {n : Nat} (h : newSlots n s = .ok (k, t)) :
    Extends s .nop t ∧ k = s.nextSlot ∧ t.nextSlot = s.nextSlot + n ∧ t.strings = s.strings := by
  cases h
  refine ⟨⟨⟨?_, rfl, List.prefix_rfl, Nat.le_add_right _ _, id⟩, rfl⟩, rfl, rfl, rfl⟩
  exact (List.append_nil _).symm

theorem intern_prefix (strings : Array String) (text : String) : strings.toList <+: (intern strings text).2.toList := by
  unfold intern
  split
  · exact List.prefix_rfl
  · simp

theorem intern_nodup {strings : Array String} (h : strings.toList.Nodup) : (intern strings text).2.toList.Nodup := by
  unfold intern
  split
  case h_1 => exact h
  case h_2 hnone =>
    have hnew : text ∉ strings.toList := by simpa [Array.idxOf?_eq_none_iff] using hnone
    rw [Array.toList_push, List.nodup_append]
    refine ⟨h, by simp, fun a ha b hb => ?_⟩
    rintro rfl
    exact hnew (List.mem_singleton.mp hb ▸ ha)

theorem intern_getElem? (strings : Array String) (text : String) :
    (intern strings text).2[(intern strings text).1]? = some text := by
  unfold intern
  split
  case h_1 i hi =>
    obtain ⟨l⟩ := strings
    obtain ⟨h, heq, -⟩ := List.idxOf?_eq_some_iff.mp (by simpa using hi)
    simp [h, heq]
  case h_2 => simp

theorem internText_inv (h : internText text s = .ok (k, t)) :
    Extends s .nop t ∧ t.nextSlot = s.nextSlot ∧ t.strings[k]? = some text := by
  cases h
  refine ⟨⟨⟨?_, rfl, intern_prefix _ _, Nat.le_refl _, intern_nodup⟩, rfl⟩, rfl, intern_getElem? _ _⟩
  exact (List.append_nil _).symm

theorem infer_inv {m : Infer α} (h : infer m s = .ok (a, t)) :
    ∃ cache, m.run s.cache = some (.ok a, cache) ∧ t = { s with cache } := by
  unfold infer at h
  split at h
  · cases h
    exact ⟨_, by assumption, rfl⟩
  · exact nomatch h
  · exact nomatch h

/-! ### Jumps -/

theorem openJump_inv (h : openJump op s = .ok (k, t)) :
    k = s.code.size ∧ t.code.toList = s.code.toList ++ [.leadingTo op 0] ∧ SameNotes s t := by
  cases h
  exact ⟨rfl, Array.toList_push, ⟨rfl, rfl, rfl, rfl⟩⟩

theorem closeJump_inv (h : closeJump k s = .ok ((), t)) :
    t.code.toList = Piece.fill s.code.size k s.code.toList ∧ SameNotes s t := by
  cases h
  exact ⟨Array.toList_modify .., ⟨rfl, rfl, rfl, rfl⟩⟩

/-- A guard grows around its body. -/
theorem whenNonzero_inv {body : Lowering α} (h : whenNonzero body s = .ok (a, t)) :
    ∃ s₁ t₁, body s₁ = .ok (a, t₁) ∧ s₁.code.size = s.code.size + 1 ∧ SameNotes s s₁ ∧ SameNotes t₁ t ∧
      (∀ p, Grows s₁ p t₁ → Grows s (.guard p) t) ∧ ∀ p, Extends s₁ p t₁ → Extends s (.guard p) t := by
  obtain ⟨toEnd, s₁, hopen, h₁⟩ := bind_eq_ok.mp h
  obtain ⟨a', t₁, hbody, h₂⟩ := bind_eq_ok.mp h₁
  obtain ⟨⟨⟩, t', hclose, h₃⟩ := bind_eq_ok.mp h₂
  obtain ⟨rfl, rfl⟩ := pure_eq_ok.mp h₃
  obtain ⟨rfl, hcode₁, hs⟩ := openJump_inv hopen
  obtain ⟨hcode, ht⟩ := closeJump_inv hclose
  have hsize : s₁.code.size = s.code.size + 1 := by simpa using congrArg List.length hcode₁
  have hgrows : ∀ p, Grows s₁ p t₁ → Grows s (.guard p) t' := fun p hp => {
    code := by
      have hend : t₁.code.size = s.code.size + p.size + 1 := by rw [hp.size, hsize]; omega
      rw [hcode, hp.code, hcode₁, List.append_assoc, List.singleton_append,
        Piece.fill_leadingTo _ _ _ s.code.length_toList, hend, hsize, Piece.code]
    expansions := by rw [ht.expansions, hp.expansions, hs.expansions, hsize, Piece.expansions]
    strings := by rw [ht.strings, ← hs.strings]; exact hp.strings
    slots := by rw [ht.slots, ← hs.slots]; exact hp.slots
    distinct := by rw [ht.strings, ← hs.strings]; exact hp.distinct }
  refine ⟨s₁, t₁, hbody, hsize, hs, ht, hgrows, fun p hp => ⟨hgrows p hp.toGrows, ?_⟩⟩
  rw [ht.exits, hp.exits, hs.exits, hsize, Piece.exits]

/-- A branch grows around its two ways. -/
theorem branch_inv {yes : Lowering α} {no : Lowering β} (h : branch yes no s = .ok ((a, b), t)) :
    ∃ s₁ t₁ s₂ t₂, yes s₁ = .ok (a, t₁) ∧ no s₂ = .ok (b, t₂) ∧
      SameNotes s s₁ ∧ SameNotes t₁ s₂ ∧ SameNotes t₂ t ∧
      ∀ p q, Extends s₁ p t₁ → Extends s₂ q t₂ → Extends s (.branch p q) t := by
  obtain ⟨toNo, s₁, hopen, h₁⟩ := bind_eq_ok.mp h
  obtain ⟨a', t₁, hyes, h₂⟩ := bind_eq_ok.mp h₁
  obtain ⟨toEnd, u₁, hopen', h₃⟩ := bind_eq_ok.mp h₂
  obtain ⟨⟨⟩, s₂, hclose, h₄⟩ := bind_eq_ok.mp h₃
  obtain ⟨b', t₂, hno, h₅⟩ := bind_eq_ok.mp h₄
  obtain ⟨⟨⟩, t', hclose', h₆⟩ := bind_eq_ok.mp h₅
  obtain ⟨hab, rfl⟩ := pure_eq_ok.mp h₆
  obtain ⟨rfl, rfl⟩ := Prod.mk.inj hab
  obtain ⟨rfl, hcode₁, hs⟩ := openJump_inv hopen
  obtain ⟨rfl, hcode₁', hm⟩ := openJump_inv hopen'
  obtain ⟨hcode₂, hm'⟩ := closeJump_inv hclose
  obtain ⟨hcode, ht⟩ := closeJump_inv hclose'
  have hmid : SameNotes t₁ s₂ := hm.trans hm'
  refine ⟨s₁, t₁, s₂, t₂, hyes, hno, hs, hmid, ht, fun p q hp hq => ?_⟩
  have hsize₁ : s₁.code.size = s.code.size + 1 := by simpa using congrArg List.length hcode₁
  have hend₁ : t₁.code.size = s.code.size + p.size + 1 := by rw [hp.size, hsize₁]; omega
  have hjump : u₁.code.size = s.code.size + p.size + 2 := by
    have : u₁.code.size = t₁.code.size + 1 := by simpa using congrArg List.length hcode₁'
    omega
  -- The jump over the second way is still open where that starts.
  have hcode₂ : s₂.code.toList = s.code.toList ++ .leadingTo .jumpIfZero (s.code.size + p.size + 2)
      :: (p.code 0 (s.code.size + 1) ++ [.leadingTo .jump 0]) := by
    rw [hcode₂, hcode₁', hp.code, hcode₁, List.append_assoc, List.append_assoc, List.singleton_append,
      Piece.fill_leadingTo _ _ _ s.code.length_toList, hjump, hsize₁]
  have hsize₂ : s₂.code.size = s.code.size + p.size + 2 := by
    have := congrArg List.length hcode₂
    simp only [List.length_append, List.length_cons, List.length_nil, Piece.length_code, Array.length_toList] at this
    omega
  have hend₂ : t₂.code.size = s.code.size + p.size + q.size + 2 := by rw [hq.size, hsize₂]; omega
  have hlength : (s.code.toList ++ .leadingTo .jumpIfZero (s.code.size + p.size + 2)
      :: p.code 0 (s.code.size + 1)).length = t₁.code.size := by
    simp only [List.length_append, List.length_cons, Piece.length_code, Array.length_toList]
    omega
  have hfilled := Piece.fill_leadingTo .jump 0 t₂.code.size (r := q.code 0 s₂.code.size) hlength
  refine ⟨⟨?_, ?_, ?_, ?_, ?_⟩, ?_⟩
  · rw [hcode, hq.code, hcode₂]
    simp only [List.append_assoc, List.cons_append, List.nil_append] at hfilled ⊢
    rw [hfilled, hend₂, hsize₂, Piece.code, List.cons_append]
  · rw [ht.expansions, hq.expansions, hmid.expansions, hp.expansions, hs.expansions, hsize₁, hsize₂,
      Piece.expansions, List.append_assoc]
  · rw [ht.strings]
    exact (hs.strings ▸ hp.strings).trans (hmid.strings ▸ hq.strings)
  · rw [ht.slots]
    exact Nat.le_trans (hs.slots ▸ hp.slots) (hmid.slots ▸ hq.slots)
  · rw [ht.strings, ← hs.strings]
    exact fun h => hq.distinct (hmid.strings ▸ hp.distinct h)
  · rw [ht.exits, hq.exits, hmid.exits, hp.exits, hs.exits, hsize₁, hsize₂, Piece.exits, List.append_assoc]

/-- A loop grows around its condition and its body. -/
theorem loop_inv {cond : Lowering α} {body : α → Lowering β} (h : loop cond body s = .ok (b, t)) :
    ∃ a t₁ s₂ t₂, cond s = .ok (a, t₁) ∧ body a s₂ = .ok (b, t₂) ∧ s₂.code.size = t₁.code.size + 1 ∧
      SameNotes t₁ s₂ ∧ SameNotes t₂ t ∧
      (∀ p q, Grows s p t₁ → Grows s₂ q t₂ → Grows s (.loop p q) t) ∧
      ∀ p q, Extends s p t₁ → Extends s₂ q t₂ → Extends s (.loop p q) t := by
  obtain ⟨start, s', hstart, h₁⟩ := bind_eq_ok.mp h
  obtain ⟨a, t₁, hcond, h₂⟩ := bind_eq_ok.mp h₁
  obtain ⟨toEnd, s₂, hopen, h₃⟩ := bind_eq_ok.mp h₂
  obtain ⟨b', t₂, hbody, h₄⟩ := bind_eq_ok.mp h₃
  obtain ⟨⟨⟩, u₂, hback, h₅⟩ := bind_eq_ok.mp h₄
  obtain ⟨⟨⟩, t', hclose, h₆⟩ := bind_eq_ok.mp h₅
  obtain ⟨rfl, rfl⟩ := pure_eq_ok.mp h₆
  cases hstart
  obtain ⟨rfl, hcode₂, hs⟩ := openJump_inv hopen
  cases hback
  obtain ⟨hcode, ht⟩ := closeJump_inv hclose
  have ht : SameNotes t₂ t' := ⟨ht.strings, ht.slots, ht.exits, ht.expansions⟩
  have hsize₂ : s₂.code.size = t₁.code.size + 1 := by simpa using congrArg List.length hcode₂
  -- The jump back is emitted with its target; only the test is filled in.
  have hgrows : ∀ p q, Grows s p t₁ → Grows s₂ q t₂ → Grows s (.loop p q) t' := by
    intro p q hp hq
    have hsize : s₂.code.size = s.code.size + p.size + 1 := by rw [hsize₂, hp.size]
    have hlength : (s.code.toList ++ p.code 0 s.code.size).length = t₁.code.size := by
      rw [List.length_append, Piece.length_code, Array.length_toList, hp.size]
    have hend : t₂.code.size + 1 = s.code.size + p.size + q.size + 2 := by rw [hq.size, hsize]; omega
    refine ⟨?_, ?_, ?_, ?_, ?_⟩
    · have hfilled := Piece.fill_leadingTo .jumpIfZero 0 (t₂.code.size + 1)
        (r := q.code 0 s₂.code.size ++ [.leadingTo .jump s.code.size]) hlength
      rw [hcode]
      simp only [Array.size_push, Array.toList_push]
      rw [hq.code, hcode₂, hp.code]
      simp only [List.append_assoc, List.cons_append, List.nil_append] at hfilled ⊢
      exact hfilled.trans (by rw [hend, hsize, Piece.code, List.append_assoc, List.cons_append])
    · rw [ht.expansions, hq.expansions, hs.expansions, hp.expansions, hsize, Piece.expansions, List.append_assoc]
    · rw [ht.strings]
      exact hp.strings.trans (hs.strings ▸ hq.strings)
    · rw [ht.slots]
      exact Nat.le_trans hp.slots (hs.slots ▸ hq.slots)
    · rw [ht.strings]
      exact fun h => hq.distinct (hs.strings ▸ hp.distinct h)
  refine ⟨a, t₁, s₂, t₂, hcond, hbody, hsize₂, hs, ht, hgrows, fun p q hp hq => ⟨hgrows p q hp.toGrows hq.toGrows, ?_⟩⟩
  rw [ht.exits, hq.exits, hs.exits, hp.exits, hsize₂, hp.size, Piece.exits, List.append_assoc]

/-! ### Scopes -/

theorem closeAll_inv {xs : List Exit} (h : (xs.forM fun x => closeJump x.position) s = .ok ((), t)) :
    t.code.toList = Piece.fillAll s.code.size xs s.code.toList ∧ SameNotes s t := by
  induction xs generalizing s with
  | nil =>
    cases h
    exact ⟨rfl, ⟨rfl, rfl, rfl, rfl⟩⟩
  | cons x xs ih =>
    obtain ⟨⟨⟩, s', hclose, h⟩ := bind_eq_ok.mp h
    obtain ⟨hcode, hs⟩ := closeJump_inv hclose
    obtain ⟨hcode', hs'⟩ := ih h
    have hsize : s'.code.size = s.code.size := by
      have := congrArg List.length hcode
      simpa [Piece.fill] using this
    exact ⟨by rw [hcode', hcode, hsize]; rfl, hs.trans hs'⟩

/-- A piece whose exits are filled in where it ends is a scope. -/
theorem Grows.scope (h : Grows s p t) (hcode : u.code.toList = Piece.fillAll t.code.size (p.exits s.code.size) t.code.toList)
    (hnotes : SameNotes t u) : Grows s (.scope p) u where
  code := by
    have := p.fillAll_exits 0 t.code.size (l := s.code.toList) (r := []) s.code.length_toList
    simp only [List.append_nil] at this
    rw [hcode, h.code, this, h.size, Piece.code]
  expansions := by rw [hnotes.expansions, h.expansions, Piece.expansions]
  strings := by rw [hnotes.strings]; exact h.strings
  slots := by rw [hnotes.slots]; exact h.slots
  distinct := by rw [hnotes.strings]; exact h.distinct

/-- Arguments and a scope after them that is noted are an expansion. -/
theorem Extends.expansion {callee : String} (ha : Extends s p t) (hb : Grows t (.scope q) u)
    (hexits : u.exits = t.exits) :
    Extends s (.expansion callee p q) { u with
      expansions := { callee, start := s.code.size, stop := u.code.size, exits := q.exits t.code.size }
        :: u.expansions } where
  code := by rw [hb.code, ha.code, ha.size, Piece.code, Piece.code, List.append_assoc]
  expansions := by
    simp only [hb.expansions, ha.expansions, hb.size, ha.size, Piece.expansions, Piece.size, List.cons_append,
      List.append_assoc]
  strings := ha.strings.trans hb.strings
  slots := Nat.le_trans ha.slots hb.slots
  distinct := hb.distinct ∘ ha.distinct
  exits := hexits.trans ha.exits

end
end FlatCode.Lower
