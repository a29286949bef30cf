import FlatCode.Effect.Set
import FlatCode.Proofs.Monad

/-! Sets of effects: what they hold, how the set inside an expression depends on the one around it, and which faults
    there are in reading them. -/

namespace FlatCode.EffectSet
open Stateful

variable {x : Effect} {outer s s' : EffectSet} {err : Error} {e : Expr} {names : List String}
  {transforms : List Transform} {context home name : String}

theorem mem_of_parseNames {seen effects : List Effect}
    (h : parseNames context seen names = .ok effects) (hx : x ∈ effects) : x ∈ seen ∨ x.name ∈ names := by
  induction names generalizing seen with
  | nil =>
    cases h
    exact .inl hx
  | cons name rest ih =>
    rw [parseNames] at h
    split at h
    · exact nomatch h
    case h_2 y hy =>
      split at h
      · exact nomatch h
      · rcases ih h with hseen | hrest
        · rcases List.mem_cons.mp hseen with rfl | hseen
          · have hname : x.name = name := by simpa using List.find?_some hy
            exact .inr (hname ▸ List.mem_cons_self)
          · exact .inl hseen
        · exact .inr (List.mem_cons_of_mem _ hrest)

/-- A set that is read from names holds only what they spell. -/
theorem mem_of_parse (h : parse names context = .ok s) (hx : s.contains x = true) : x.name ∈ names := by
  unfold parse at h
  cases hnames : parseNames context [] names with
  | error e => rw [hnames] at h; exact nomatch h
  | ok effects =>
    rw [hnames] at h
    cases h
    have hmem : x ∈ effects := by simpa using (List.mem_filter.mp (List.contains_iff_mem.mp hx)).2
    exact (mem_of_parseNames hnames hmem).resolve_left List.not_mem_nil

theorem mem_of_explicit? (h : explicit? transforms context = .ok (some s)) (hx : s.contains x = true) :
    ∃ t ∈ transforms, t.name = "effects" ∧ x.name ∈ t.arguments := by
  unfold explicit? at h
  split at h
  case h_2 => exact nomatch h
  case h_1 t ht =>
    cases hparse : parse t.arguments context with
    | error e => rw [hparse] at h; exact nomatch h
    | ok s' =>
      rw [hparse] at h
      cases h
      have hname : t.name = "effects" := by simpa using List.find?_some ht
      exact ⟨t, List.mem_reverse.mp (List.mem_of_find?_eq_some ht), hname, mem_of_parse hparse hx⟩

theorem contains_of_inside (h : s.inside home e = .ok s') (hx : s'.contains x = true) : s.contains x = true := by
  obtain ⟨explicit, -, h₁⟩ := except_bind_eq_ok.mp h
  split at h₁
  · cases h₁
    exact hx
  · split at h₁
    · exact nomatch h₁
    case h_2 houtside =>
      cases h₁
      simpa using List.find?_eq_none.mp houtside x (List.contains_iff_mem.mp hx)

/-- With more effects around an expression there are no fewer in it. -/
theorem inside_mono (h : s.inside home e = .ok s') (houter : ∀ x, s.contains x = true → outer.contains x = true) :
    ∃ outer', outer.inside home e = .ok outer' ∧ ∀ x, s'.contains x = true → outer'.contains x = true := by
  obtain ⟨explicit, hexplicit, h₁⟩ := except_bind_eq_ok.mp h
  cases explicit with
  | none =>
    cases h₁
    exact ⟨outer, except_bind_eq_ok.mpr ⟨none, hexplicit, rfl⟩, houter⟩
  | some declared =>
    have hdeclared {x : Effect} := contains_of_inside h (x := x)
    dsimp only at h₁
    split at h₁
    · exact nomatch h₁
    · cases h₁
      have hinside : s'.firstOutside? outer = none := List.find?_eq_none.mpr fun x hx => by
        simpa using houter x (hdeclared (List.contains_iff_mem.mpr hx))
      refine ⟨s', except_bind_eq_ok.mpr ⟨some s', hexplicit, ?_⟩, fun _ hx => hx⟩
      dsimp only
      rw [hinside]
      rfl

theorem require_mono (h : s.require name = .ok ())
    (houter : ∀ x, s.contains x = true → outer.contains x = true) : outer.require name = .ok () := by
  unfold require at *
  split at h
  · rfl
  case h_2 x hx =>
    split at h
    case isTrue hcontains => exact if_pos (houter x hcontains)
    case isFalse => exact nomatch h

theorem effect_of_explicit? (h : explicit? transforms context = .error err) : ∃ cause, err = .effect cause := by
  have hnames {names : List String} {seen : List Effect} (h : parseNames context seen names = .error err) :
      ∃ cause, err = .effect cause := by
    induction names generalizing seen with
    | nil => exact nomatch h
    | cons name rest ih =>
      rw [parseNames] at h
      split at h
      · cases h
        exact ⟨_, rfl⟩
      · split at h
        · cases h
          exact ⟨_, rfl⟩
        · exact ih h
  unfold explicit? at h
  split at h
  case h_2 => exact nomatch h
  case h_1 t _ =>
    unfold parse at h
    cases hparse : parseNames context [] t.arguments with
    | ok effects => rw [hparse] at h; exact nomatch h
    | error e =>
      rw [hparse] at h
      cases h
      exact hnames hparse

theorem effect_of_active {defaults : EffectSet}
    (h : active transforms defaults context = .error err) : ∃ cause, err = .effect cause := by
  rcases except_bind_eq_error.mp h with h | ⟨_, -, h⟩
  · exact effect_of_explicit? h
  · exact nomatch h

theorem effect_of_inside (h : s.inside home e = .error err) : ∃ cause, err = .effect cause := by
  rcases except_bind_eq_error.mp h with h | ⟨explicit, -, h⟩
  · exact effect_of_explicit? h
  · split at h
    · exact nomatch h
    · split at h
      · cases h
        exact ⟨_, rfl⟩
      · exact nomatch h

theorem effect_of_require (h : s.require name = .error err) : ∃ cause, err = .effect cause := by
  unfold require at h
  split at h
  · exact nomatch h
  · split at h
    · exact nomatch h
    · cases h
      exact ⟨_, rfl⟩

end FlatCode.EffectSet
