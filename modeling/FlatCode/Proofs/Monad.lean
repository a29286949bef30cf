/-! Runs of computations that stop at the first fault: what a successful run says about its parts. There are three
    kinds: without a state, with a state that a fault drops, and with a state that a fault keeps. The last kind may
    also give up. -/

namespace FlatCode.Stateful

variable {σ ε α β : Type}

variable {x : Except ε α} {failed : Prop} {a : α} {r : α × σ} {f : α → Except ε β} {b : β} {e : ε} {s : σ}

theorem except_eq_ok_of_toOption (h : x.toOption = some a) : x = .ok a := by
  cases x with
  | error e => exact nomatch h
  | ok b => exact congrArg Except.ok (Option.some.inj h)

def fault? : Except ε α → Option ε
  | .error e => some e
  | .ok _ => none

theorem except_eq_error_of_fault? (h : fault? x = some e) : x = .error e := by
  cases x with
  | error e' => exact congrArg Except.error (Option.some.inj h)
  | ok a => exact nomatch h

theorem except_bind_eq_ok : (x >>= f) = .ok b ↔ ∃ a, x = .ok a ∧ f a = .ok b := by
  cases x with
  | error e => exact ⟨nofun, nofun⟩
  | ok a =>
    constructor
    · exact fun h => ⟨a, rfl, h⟩
    · rintro ⟨a', heq, h⟩
      cases heq
      exact h

theorem except_bind_eq_error : (x >>= f) = .error e ↔ x = .error e ∨ ∃ a, x = .ok a ∧ f a = .error e := by
  cases x with
  | error e' =>
    constructor
    · intro h
      cases h
      exact .inl rfl
    · rintro (h | ⟨a, heq, -⟩)
      · cases h
        rfl
      · exact nomatch heq
  | ok a =>
    constructor
    · exact fun h => .inr ⟨a, rfl, h⟩
    · rintro (h | ⟨a', heq, h⟩)
      · exact nomatch h
      · cases heq
        exact h

theorem except_error_of_bind (hx : x = .ok a) (h : (x >>= f) = .error e) : f a = .error e := by
  subst hx
  exact h

theorem except_check_eq_ok [Decidable failed] {k : Unit → Except ε α} :
    (if failed then throw e >>= k else k ()) = .ok a ↔ ¬failed ∧ k () = .ok a := by
  by_cases h : failed
  · rw [if_pos h]
    exact ⟨nofun, fun h' => absurd h h'.1⟩
  · rw [if_neg h]
    exact (and_iff_right h).symm

theorem bind_eq_ok {m : StateT σ (Except ε) α} {f : α → StateT σ (Except ε) β} {r : β × σ} :
    (m >>= f) s = .ok r ↔ ∃ a t, m s = .ok (a, t) ∧ f a t = .ok r := by
  show (m s >>= fun p => f p.1 p.2) = .ok r ↔ _
  cases m s with
  | error e => exact ⟨nofun, nofun⟩
  | ok p =>
    constructor
    · exact fun h => ⟨p.1, p.2, rfl, h⟩
    · rintro ⟨a, t, heq, h⟩
      cases heq
      exact h

theorem pure_eq_ok {b : α} {t : σ} : (pure a : StateT σ (Except ε) α) s = .ok (b, t) ↔ a = b ∧ s = t := by
  show Except.ok (a, s) = .ok (b, t) ↔ _
  simp

theorem throw_ne_ok : (throw e : StateT σ (Except ε) α) s ≠ .ok r := nofun

theorem check_eq_ok [Decidable failed] {k : Unit → StateT σ (Except ε) α} :
    (if failed then throw e >>= k else k ()) s = .ok r ↔ ¬failed ∧ k () s = .ok r := by
  by_cases h : failed
  · rw [if_pos h]
    exact ⟨nofun, fun h' => absurd h h'.1⟩
  · rw [if_neg h]
    exact (and_iff_right h).symm

theorem lift_eq_ok : (liftM x : StateT σ (Except ε) α) s = .ok r ↔ x = .ok r.1 ∧ s = r.2 := by
  cases x with
  | error e => exact ⟨nofun, nofun⟩
  | ok a =>
    show Except.ok (a, s) = .ok r ↔ _
    simp [Prod.ext_iff]

theorem lift_bind_eq_ok {f : α → StateT σ (Except ε) β} {r : β × σ} :
    (liftM x >>= f) s = .ok r ↔ ∃ a, x = .ok a ∧ f a s = .ok r := by
  constructor
  · intro h
    obtain ⟨a, t, hx, hf⟩ := bind_eq_ok.mp h
    obtain ⟨hx, rfl⟩ := lift_eq_ok.mp hx
    exact ⟨a, hx, hf⟩
  · rintro ⟨a, rfl, hf⟩
    exact bind_eq_ok.mpr ⟨a, s, rfl, hf⟩

section
variable {x : ExceptT ε (StateT σ Option) α} {f : α → ExceptT ε (StateT σ Option) β} {s t : σ}

theorem run_bind_eq_ok :
    (x >>= f).run s = some (.ok b, t) ↔ ∃ a u, x.run s = some (.ok a, u) ∧ (f a).run u = some (.ok b, t) := by
  show ((x.run s).bind fun r => (ExceptT.bindCont f r.1) r.2) = _ ↔ _
  cases x.run s with
  | none => exact ⟨nofun, nofun⟩
  | some r =>
    obtain ⟨r, u⟩ := r
    cases r with
    | error e =>
      refine ⟨fun h => ?_, nofun⟩
      exact nomatch h
    | ok a =>
      constructor
      · exact fun h => ⟨a, u, rfl, h⟩
      · rintro ⟨a', u', heq, h⟩
        cases heq
        exact h

theorem run_pure_eq_ok {b : α} : (pure a : ExceptT ε (StateT σ Option) α).run s = some (.ok b, t) ↔ a = b ∧ s = t := by
  show some (Except.ok a, s) = some (.ok b, t) ↔ _
  simp

theorem run_throw_ne_ok : (throw e : ExceptT ε (StateT σ Option) α).run s ≠ some (.ok a, t) := by
  intro h
  exact nomatch h

theorem run_lift_eq_ok {x : Except ε α} :
    (liftM x : ExceptT ε (StateT σ Option) α).run s = some (.ok a, t) ↔ x = .ok a ∧ s = t := by
  show some (x, s) = some (.ok a, t) ↔ _
  simp

end
end FlatCode.Stateful
