import FlatCode.Program.Build
import FlatCode.Proofs.Slots.Statement

/-! Who may store to a slot. Main result: whatever is lowered stores only to slots that it has taken itself, to the
    slots of mutable bindings that it changes by name, and to the slot of the result that it may return; so the slots of
    immutable bindings, loop counters, spilled operands and elements of the code around it are left as they are
    (`stores_to_own_slots`). -/

namespace FlatCode.Lower
open Stateful

/-- An expression or a statement is lowered, and `locals'` are in scope after it. -/
def Lowers (depth : Nat) (ctx : Context) (locals : Locals) (e : Expr) (s : State) (locals' : Locals) (t : State) :
    Prop :=
  (∃ operand, (Emitter.atDepth depth).expr ctx locals e s = .ok (operand, t) ∧ locals' = locals) ∨
    (Emitter.atDepth depth).statement ctx locals e s = .ok (locals', t)

/-- Slot `k` belongs to no binding that can be changed, nor to the result. -/
def Kept (ctx : Context) (locals : Locals) (k : Nat) : Prop :=
  (∀ l ∈ locals, l.2.mutable = true → l.2.isArguments = false → l.2.slot ≠ k) ∧ ctx.resultSlot? ≠ some k

/-- Immutable bindings share their slots with none that can be changed. -/
def Apart (ctx : Context) (locals : Locals) : Prop := ∀ l ∈ locals, l.2.mutable = false → Kept ctx locals l.2.slot

section
variable {G : Nat → Prop} {m m' k : Nat} {ctx : Context} {locals locals' : Locals} {e : Expr}

/-- A new binding takes no slot that was taken before. -/
theorem Entered.kept (h : Entered m e locals locals' m') (hk : k < m) (hkept : Kept ctx locals k) :
    Kept ctx locals' k := by
  unfold Entered at h
  split at h
  · exact h ▸ hkept
  · obtain ⟨b, rfl, -, hb⟩ := h
    refine ⟨List.forall_mem_cons.mpr ⟨fun _ harguments => ?_, hkept.1⟩, hkept.2⟩
    rcases hb with hb | ⟨hb, -⟩
    · exact Nat.ne_of_gt (Nat.lt_of_lt_of_le hk hb)
    · exact absurd (hb.symm.trans harguments) nofun

theorem Entered.apart (h : Entered m e locals locals' m') (hroom : Room G m ctx locals) (hapart : Apart ctx locals) :
    Apart ctx locals' := by
  have hold (l : String × Local) (hl : l ∈ locals) (himmutable : l.2.mutable = false) : Kept ctx locals' l.2.slot :=
    h.kept (hroom.locals l hl) (hapart l hl himmutable)
  unfold Entered at h
  split at h
  · exact h ▸ hapart
  · obtain ⟨b, rfl, -, hb⟩ := h
    refine List.forall_mem_cons.mpr ⟨fun himmutable => ?_, hold⟩
    rcases hb with hb | ⟨-, x, hx⟩
    · refine ⟨List.forall_mem_cons.mpr ⟨fun hmutable => absurd (himmutable.symm.trans hmutable) nofun, ?_⟩, fun h => ?_⟩
      · exact fun l hl _ _ => Nat.ne_of_lt (Nat.lt_of_lt_of_le (hroom.locals l hl) hb)
      · exact absurd (hroom.result _ h).1 (Nat.not_lt.mpr hb)
    · exact hold (x, b) hx himmutable

theorem Lowers.extends {depth : Nat} {s t : State} (h : Lowers depth ctx locals e s locals' t)
    (hroom : Room G s.nextSlot ctx locals) (he : Granted G locals e) :
    ∃ p, Extends s p t ∧ (∀ i ∈ p.ops, i.Within G t.nextSlot) ∧
      (locals' = locals ∨ Entered s.nextSlot e locals locals' t.nextSlot) := by
  have hframes := Emitter.frames_atDepth depth
  rcases h with ⟨operand, h, rfl⟩ | h
  · obtain ⟨p, hp, hops, -⟩ := hframes.expr hroom he s operand t (Nat.le_refl _) h
    exact ⟨p, hp, hops, .inl rfl⟩
  · obtain ⟨p, hp, hops, hentered⟩ := hframes.statement hroom he s locals' t (Nat.le_refl _) h
    exact ⟨p, hp, hops, .inr hentered⟩

end

/-- Whatever is lowered stores only to slots that are new, that belong to mutable bindings which it changes by name, or
    that hold the result. It names no slot that is not taken. So a slot that belongs to no mutable binding, such as that
    of an immutable one, a counter, an operand or an element, is left as it is, also by what is lowered next. -/
theorem stores_to_own_slots {depth : Nat} {ctx : Context} {locals locals' : Locals} {e : Expr} {s t : State}
    (hlocals : ∀ l ∈ locals, l.2.slot < s.nextSlot) (hresult : ∀ k, ctx.resultSlot? = some k → k < s.nextSlot)
    (h : Lowers depth ctx locals e s locals' t) (hslots : t.nextSlot ≤ 2 ^ 64) :
    ∃ code, t.code.toList = s.code.toList ++ code ∧
      (∀ i ∈ code, i.op = .storeLocal → s.nextSlot ≤ i.imm.toNat ∨
        (∃ x l, e.Changes x ∧ locals.lookup x = some l ∧ l.mutable = true ∧ l.slot = i.imm.toNat) ∨
        ctx.resultSlot? = some i.imm.toNat) ∧
      (∀ i ∈ code, i.op.namesSlot = true → i.imm.toNat < t.nextSlot) ∧
      (∀ k < s.nextSlot, Kept ctx locals k →
        (∀ i ∈ code, i.op = .storeLocal → i.imm.toNat ≠ k) ∧ Kept ctx locals' k) ∧
      (∀ l ∈ locals', l.2.slot < t.nextSlot) ∧ (Apart ctx locals → Apart ctx locals') := by
  let G (k : Nat) : Prop := s.nextSlot ≤ k ∨
    (∃ x l, e.Changes x ∧ locals.lookup x = some l ∧ l.mutable = true ∧ l.isArguments = false ∧ l.slot = k) ∨
    ctx.resultSlot? = some k
  have hroom : Room G s.nextSlot ctx locals :=
    ⟨fun k hk => .inl hk, hlocals, fun k hk => ⟨hresult k hk, .inr (.inr hk)⟩⟩
  have hgranted : Granted G locals e := fun x hx l hl hmutable harguments =>
    .inr (.inl ⟨x, l, hx, hl, hmutable, harguments, rfl⟩)
  obtain ⟨p, hp, hops, hscope⟩ := h.extends hroom hgranted
  have hwithin := Piece.within_code hops hslots 0 s.code.size
  have hstore (i : Instruction) (hi : i ∈ p.code 0 s.code.size) (hop : i.op = .storeLocal) : G i.imm.toNat :=
    (hwithin i hi (by rw [hop]; rfl)).2 hop
  refine ⟨p.code 0 s.code.size, hp.code, fun i hi hop => ?_, fun i hi hop => (hwithin i hi hop).1,
    fun k hk hkept => ⟨?_, ?_⟩, ?_, ?_⟩
  · rcases hstore i hi hop with h | ⟨x, l, hx, hl, hmutable, -, hk⟩ | h
    · exact .inl h
    · exact .inr (.inl ⟨x, l, hx, hl, hmutable, hk⟩)
    · exact .inr (.inr h)
  · rintro i hi hop rfl
    rcases hstore i hi hop with h | ⟨x, l, -, hl, hmutable, harguments, hslot⟩ | h
    · omega
    · exact hkept.1 (x, l) (mem_of_lookup hl) hmutable harguments hslot
    · exact hkept.2 h
  · rcases hscope with rfl | hentered
    · exact hkept
    · exact hentered.kept hk hkept
  · rcases hscope with rfl | hentered
    · exact (hroom.later hp.slots).locals
    · exact (hroom.entered hp.slots hentered).locals
  · rcases hscope with rfl | hentered
    · exact id
    · exact hentered.apart hroom

def summingContext : Context :=
  let scope : Scope := {
    definitions := [{
      path := "/twice"
      transforms := [{ name := "return", templateArgs := ["i32"] }]
      parameters := [.parameter "x" ["mut", "i32"]]
      statements := [.assign (.ident "x") (.plainCall "plus" [.ident "x", .ident "x"])]
      result := some (.ident "x") }]
    aliases := [] }
  { scope, inferrer := .atDepth scope 10, defaults := ⟨[]⟩, home := "/sum", effects := ⟨[]⟩
    expanding := ["/main", "/sum"]
    target := .expansion ⟨false, false, .int32⟩ (some 3) }

def summingLocals : Locals :=
  [("total", { slot := 0, mutable := true, type := .scalar .int32 }),
    ("step", { slot := 1, mutable := false, type := .scalar .int32 })]

def summing : Expr :=
  .repeatLoop (.ident "step") [
    .assign (.ident "total") (.plainCall "plus" [.ident "total", .plainCall "twice" [.ident "step"]]),
    .binding "step" ["mut", "i32"] (.int32 0),
    .assign (.ident "step") (.int32 1),
    .ret (.ident "total")]

def summed : Except Error (Locals × State) :=
  (Emitter.atDepth 10).statement summingContext summingLocals summing { nextSlot := 4 }

theorem summed_nextSlot : summed.toOption.map (·.2.nextSlot) = some 8 := by decide +kernel

theorem kept_summing {k : Nat} (hk : k = 1 ∨ k = 2) : Kept summingContext summingLocals k := by
  rcases hk with rfl | rfl <;> simp [Kept, summingContext, summingLocals, Context.resultSlot?]

/-- The immutable `step` and the counter are left as they are. -/
theorem summing_stores_to_own_slots : ∃ locals' t, summed = .ok (locals', t) ∧ Apart summingContext locals' ∧
    ∀ i ∈ t.code.toList, i.op = .storeLocal → i.imm.toNat < 8 ∧ i.imm.toNat ≠ 1 ∧ i.imm.toNat ≠ 2 := by
  have hslots := summed_nextSlot
  cases h : summed with
  | error e =>
    rw [h] at hslots
    cases hslots
  | ok r =>
    obtain ⟨locals', t⟩ := r
    rw [h] at hslots
    have hnext : t.nextSlot = 8 := Option.some.inj hslots
    obtain ⟨code, hcode, -, hbelow, hkept, -, hapart⟩ := stores_to_own_slots
      (by simp [summingLocals]) (by simp [summingContext, Context.resultSlot?]) (.inr h) (by omega)
    refine ⟨locals', t, rfl, hapart fun l hl himmutable => ?_, fun i hi hop => ?_⟩
    · have hstep : l.2.slot = 1 := by
        simp only [summingLocals, List.mem_cons, List.not_mem_nil, or_false] at hl
        rcases hl with rfl | rfl
        · cases himmutable
        · rfl
      exact kept_summing (.inl hstep)
    · have hi : i ∈ code := by simpa [hcode] using hi
      refine ⟨hnext ▸ hbelow i hi (by rw [hop]; rfl), ?_, ?_⟩
      · exact (hkept 1 (by decide) (kept_summing (.inl rfl))).1 i hi hop
      · exact (hkept 2 (by decide) (kept_summing (.inr rfl))).1 i hi hop

end FlatCode.Lower
