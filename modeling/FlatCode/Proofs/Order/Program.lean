import FlatCode.Program.Build
import FlatCode.Proofs.Acceptance.Basic
import FlatCode.Proofs.Independence
import FlatCode.Proofs.Order.Checking

/-! Whether a program is accepted does not depend on the order of its definitions, if no result is inferred from itself.
    Each definition is checked alike from whatever the checks before it remember, so a program is accepted just if every
    definition and every execution passes on its own. -/

namespace FlatCode

theorem Program.size_execution {p : Program} {x : Execution} (hx : x ∈ p.executions) :
    ∀ e ∈ x.expressions, e.size ≤ p.size := by
  obtain ⟨before, after, h⟩ := List.append_of_mem hx
  have hsize : x.size ≤ p.size := by
    simp only [Program.size, h, List.map_append, List.map_cons, List.sum_append, List.sum_cons]
    omega
  intro e he
  unfold Execution.size at hsize
  rcases List.mem_append.mp he with he | he
  · have := Expr.size_le_sizeList he
    omega
  · have := Expr.size_le_sizeList he
    omega

namespace Check
open Checking

/-! ### Definitions and executions -/

namespace Setting
variable {S : ReturnCache → ReturnCache → Prop} {X : Expr → Prop} {scope : Scope} {s s' : Setting} {ctx : Context}
  {env : Env}

def withScope (scope : Scope) (s : Setting) : Setting := { s with scope }

section
variable (hX : ∀ {e}, X e → e.Parts X) (hctx : ctx.Steady S X scope)
include hX hctx

theorem tracks_declare {path : String} {l : List Expr} (hl : ∀ e ∈ l, X e) :
    Tracks S (s.declare ctx path env l) ((s.withScope scope).declare (ctx.withScope scope) path env l) fun _ => True := by
  induction l generalizing env with
  | nil => exact .pure trivial
  | cons e l ih =>
    obtain ⟨he, hl⟩ := List.forall_mem_cons.mp hl
    unfold declare
    split
    · exact .throw
    · refine .check fun _ => ?_
      exact (tracks_checkBinding (Checker.steady_atDepth hX s.depth) hctx hX he).bind fun _ _ => ih hl

theorem tracks_checkFields {l : List Expr} (hl : ∀ e ∈ l, X e) :
    Tracks S (s.checkFields ctx env l) ((s.withScope scope).checkFields (ctx.withScope scope) env l) fun _ => True := by
  induction l generalizing env with
  | nil => exact .pure trivial
  | cons e l ih =>
    obtain ⟨he, hl⟩ := List.forall_mem_cons.mp hl
    exact (tracks_checkBinding (Checker.steady_atDepth hX s.depth) hctx hX he).bind fun _ _ => ih hl

end

section
variable {p : Program} (hscope : Scope.build p = .ok s.scope) (hacyclic : s.scope.Acyclic) (hdepth : s.depth = p.depth)
  (hagree : s.scope.Agree (fun _ => True) scope)
include hscope hacyclic hdepth hagree

/-- What is checked in a setting is checked alike in the other scope, if it is no greater than the program. -/
theorem steady (home : String) (effects : EffectSet) (returns : ReturnInfo) (templates : List String) :
    Context.Steady (BothRecall p s.scope) (·.size ≤ p.size) scope
      { scope := s.scope, inferrer := s.inferrer, home, effects, returns, templates } := by
  have hdistinct := Scope.distinct_of_build hscope
  have hdefinitions := Scope.definitions_of_build hscope
  refine ⟨hagree, fun {env c} hargs => .ofRecall ?_, fun {d} hd => ?_⟩
  · show Recall.Tracks _ _ (Check.callee? s.scope s.inferrer ⟨home, []⟩ env c)
      (Check.callee? scope s.inferrer ⟨home, []⟩ env c) _
    rw [← callee?_congr hagree, inferrer, hdepth]
    exact tracks_meaning hacyclic hdistinct hdefinitions hargs
  · show Recall.Tracks _ _ (Check.returnInfo s.scope s.inferrer [] d).run (Check.returnInfo scope s.inferrer [] d).run _
    rw [← returnInfo_congr hagree, inferrer, hdepth]
    exact tracks_returnInfo hacyclic hdistinct hdefinitions hd

omit hscope hacyclic hdepth in
theorem inferrer_withScope : (s.withScope scope).inferrer = s.inferrer := by
  show Inferrer.atDepth scope s.depth = Inferrer.atDepth s.scope s.depth
  rw [atDepth_congr hagree]

theorem tracks_checkDefinition {d : Definition} (hd : d ∈ p.definitions) :
    Tracks (BothRecall p s.scope) (s.checkDefinition d) ((s.withScope scope).checkDefinition d) fun _ => True := by
  have hdefinitions := Scope.definitions_of_build hscope
  have hmem : d ∈ s.scope.definitions := hdefinitions ▸ hd
  obtain ⟨hparameters, hbody⟩ := Lower.size_of_definition hdefinitions hmem
  have hsteady (effects : EffectSet) (returns : ReturnInfo) :=
    steady hscope hacyclic hdepth hagree d.path effects returns d.templateArgs
  unfold checkDefinition
  rw [inferrer_withScope hagree]
  refine .liftBind fun effects _ => ?_
  refine (Tracks.ofInfer ((hsteady effects .void).returns hmem)).bind fun returns _ => ?_
  refine .ite (fun _ => .liftBind fun fields hfields => ?_) fun _ => ?_
  · refine tracks_checkFields Expr.parts_size_le (hsteady effects returns) fun e he => ?_
    unfold Definition.fields at hfields
    split at hfields
    · cases hfields
      exact hbody e (Definition.mem_body.mpr (.inl (List.mem_filter.mp he).1))
    · exact nomatch hfields
  · have hctx := hsteady effects returns
    refine (tracks_declare Expr.parts_size_le hctx fun e he => Nat.le_of_lt (hparameters e he)).bind fun env _ => ?_
    refine ((Checker.steady_atDepth Expr.parts_size_le s.depth).block hctx hbody).bind fun _ _ => ?_
    exact .ite (fun _ => .lift) fun _ => .pure trivial

theorem tracks_checkExecution {x : Execution} (hx : x ∈ p.executions) :
    Tracks (BothRecall p s.scope) (s.checkExecution x) ((s.withScope scope).checkExecution x) fun _ => True := by
  have hsize := Program.size_execution hx
  have hK : (Checker.atDepth s.depth).Steady (BothRecall p s.scope) (·.size ≤ p.size) scope :=
    Checker.steady_atDepth Expr.parts_size_le s.depth
  unfold checkExecution
  rw [inferrer_withScope hagree]
  have hresolve : (s.withScope scope).scope.resolve? = s.scope.resolve? := hagree.resolve_congr.symm
  rw [hresolve]
  cases s.scope.resolve? x.path "/" with
  | none => exact .throw
  | some target =>
    refine .liftBind fun effects _ => .liftBind fun params _ => .liftBind fun fillings _ => ?_
    have hctx := steady hscope hacyclic hdepth hagree x.path effects .void []
    refine (hK.all hctx fun e he => hsize e (List.mem_append_left _ he)).bind fun _ _ => ?_
    exact hK.block hctx fun e he => hsize e (List.mem_append_right _ he)

end
end Setting

/-! ### One check after the other -/

section
variable {P : ReturnCache → Prop} {γ : Type} {l : List γ} {f g : γ → Checking Unit} {c : ReturnCache} (hnil : P [])
  (h : ∀ z ∈ l, Tracks (fun c c' => P c ∧ P c') (f z) (g z) fun _ => True)
include hnil h

theorem meets_forM : Meets P (l.forM g) fun _ => ∀ z ∈ l, (f z).Passes := by
  refine Meets.forM fun z hz c a t hc hrun => ?_
  rcases h z hz [] c ⟨hnil, hc⟩ with ⟨e, -, hg⟩ | ⟨_, t₀, t', hf, hg, ⟨-, ht'⟩, -⟩
  · exact nomatch hrun.symm.trans hg
  · cases hrun.symm.trans hg
    exact ⟨ht', t₀, hf⟩

theorem forM_of_passes (hpasses : ∀ z ∈ l, (f z).Passes) (hc : P c) : ∃ t, l.forM g c = .ok ((), t) ∧ P t := by
  induction l generalizing c with
  | nil => exact ⟨c, rfl, hc⟩
  | cons z l ih =>
    obtain ⟨hz, hl⟩ := List.forall_mem_cons.mp h
    obtain ⟨⟨t₀, hf⟩, hpasses⟩ := List.forall_mem_cons.mp hpasses
    rcases hz [] c ⟨hnil, hc⟩ with ⟨e, hf', -⟩ | ⟨_, -, t, -, hg, ⟨-, ht⟩, -⟩
    · exact nomatch hf.symm.trans hf'
    · obtain ⟨t', hrest, ht'⟩ := ih hl hpasses ht
      refine ⟨t', ?_, ht'⟩
      show (g z c >>= fun r => l.forM g r.2) = _
      rw [hg]
      exact hrest

end

/-! ### Programs -/

section
variable {p p' : Program} {entry : String} {defaults entryDefaults : List String} {s : Setting} {d : Definition}
  {scope : Scope}

/-- The other program is checked in the same setting, but for the scope. -/
theorem Setting.Of.withScope (h : s.Of p entry defaults entryDefaults d) (hreordered : p.Reordered p')
    (hscope : Scope.build p' = .ok scope) (hagree : s.scope.Agree (fun _ => True) scope) :
    (s.withScope scope).Of p' entry defaults entryDefaults d where
  scope := hscope
  depth := h.depth.trans hreordered.depth.symm
  entry_eq := h.entry_eq
  defaults := h.defaults
  entryDefaults := h.entryDefaults
  get := (hagree.get_eq entry trivial).symm.trans h.get
  entry := by
    have hentry := h.entry
    unfold checkEntry isArgumentArray at hentry ⊢
    rwa [hagree.declared_congr] at hentry

/-- The check of all is passed just if each definition and each execution passes. -/
theorem checkAll_passes_iff (h : s.Of p entry defaults entryDefaults d) (hacyclic : s.scope.Acyclic)
    (hreordered : p.Reordered p') (hagree : s.scope.Agree (fun _ => True) scope) :
    ((s.withScope scope).checkAll p').Passes ↔
      (∀ d ∈ p.definitions, (s.checkDefinition d).Passes) ∧ ∀ x ∈ p.executions, (s.checkExecution x).Passes := by
  have hnil : Recalls p s.scope [] := .nil
  have hdefinitions (d : Definition) (hd : d ∈ p'.definitions) :=
    Setting.tracks_checkDefinition h.scope hacyclic h.depth hagree (hreordered.definitions.mem_iff.mp hd)
  have hexecutions (x : Execution) (hx : x ∈ p'.executions) :=
    Setting.tracks_checkExecution h.scope hacyclic h.depth hagree (hreordered.executions ▸ hx)
  simp only [← hreordered.definitions.mem_iff, ← hreordered.executions]
  constructor
  · rintro ⟨t, hrun⟩
    obtain ⟨⟨⟩, t₁, h₁, h₂⟩ := Stateful.bind_eq_ok.mp hrun
    obtain ⟨ht₁, hds⟩ := meets_forM hnil hdefinitions [] () t₁ hnil h₁
    exact ⟨hds, (meets_forM hnil hexecutions t₁ () t ht₁ h₂).2⟩
  · rintro ⟨hds, hxs⟩
    obtain ⟨t₁, h₁, ht₁⟩ := forM_of_passes hnil hdefinitions hds hnil
    obtain ⟨t, h₂, -⟩ := forM_of_passes hnil hexecutions hxs ht₁
    exact ⟨t, Stateful.bind_eq_ok.mpr ⟨(), t₁, h₁, h₂⟩⟩

end

/-- Whether a program is accepted does not depend on the order of its definitions, or of its imports, if no result is
    inferred from itself. -/
theorem check_of_reordered {p p' : Program} {entry : String} {defaults entryDefaults : List String}
    (hacyclic : ∀ scope, Scope.build p = .ok scope → scope.Acyclic) (hdefinitions : p'.definitions.Perm p.definitions)
    (himports : p'.imports.Perm p.imports) (hexecutions : p'.executions = p.executions) :
    p.check entry defaults entryDefaults = .ok () ↔ p'.check entry defaults entryDefaults = .ok () := by
  have hreordered : p.Reordered p' := ⟨hdefinitions, himports, hexecutions⟩
  rw [check_eq_ok_iff, check_eq_ok_iff]
  constructor
  · rintro ⟨s, d, hs, hpasses⟩
    have hacyclic := hacyclic _ hs.scope
    obtain ⟨scope', hscope', hagree⟩ := hreordered.agree hs.scope
    have heach := (checkAll_passes_iff hs hacyclic .refl .refl).mp hpasses
    exact ⟨s.withScope scope', d, hs.withScope hreordered hscope' hagree,
      (checkAll_passes_iff hs hacyclic hreordered hagree).mpr heach⟩
  · rintro ⟨s', d, hs', hpasses⟩
    obtain ⟨scope, hscope, hagree⟩ := hreordered.symm.agree hs'.scope
    have hs := hs'.withScope hreordered.symm hscope hagree
    have hacyclic := hacyclic _ hs.scope
    have heach := (checkAll_passes_iff hs hacyclic hreordered hagree.symm).mp hpasses
    exact ⟨s'.withScope scope, d, hs, (checkAll_passes_iff hs hacyclic .refl .refl).mpr heach⟩

def inferring (path : String) (statements : List Expr) (result : Expr) : Definition :=
  { path, statements, result := some result }

/-- An entry that returns a number by way of others; each result is inferred from the one before. -/
def chained : Program := {
  definitions := [
    inferring "/first" [] (.int32 1),
    inferring "/second" [.call [] { name := "x", args := [.plainCall "first" []], labels := [none], isBinding := true }]
      (.plainCall "plus" [.ident "x", .int32 2]),
    inferring "/third" [] (.plainCall "second" []),
    { path := "/main"
      transforms := [{ name := "return", templateArgs := ["i32"] }]
      result := some (.plainCall "third" []) }] }

theorem chained_acyclic : ∀ scope, Scope.build chained = .ok scope → scope.Acyclic := by
  intro scope hscope
  rw [show Scope.build chained = .ok { definitions := chained.definitions, aliases := [] } from rfl] at hscope
  cases hscope
  exact Scope.acyclic_of_isRanked (fun path => chained.definitions.findIdx (·.path == path)) (by decide +kernel)

theorem chained_accepted : chained.check "/main" [] [] = .ok () :=
  Stateful.except_eq_ok_of_toOption (by decide +kernel)

/-- The entry is accepted, too, when the definitions are turned around. -/
theorem chained_reversed_accepted : (∀ scope, Scope.build chained = .ok scope → scope.Acyclic) ∧
    ({ chained with definitions := chained.definitions.reverse } : Program).check "/main" [] [] = .ok () := by
  have hiff := @check_of_reordered chained { chained with definitions := chained.definitions.reverse } "/main" [] []
    chained_acyclic (List.reverse_perm _) (.refl _) rfl
  exact ⟨chained_acyclic, hiff.mp chained_accepted⟩

/-- Two definitions, then one that returns what `g` returns as a bool, and an entry that calls none of them. -/
def circular (first second : Definition) : Program := {
  definitions := [first, second,
    { path := "/h", transforms := [{ name := "return", templateArgs := ["bool"] }], result := some (.plainCall "g" []) },
    { path := "/main", transforms := [{ name := "return", templateArgs := ["i32"] }], result := some (.int32 0) }] }

def circularNumber : Definition :=
  inferring "/f" [.call [] { name := "x", args := [.plainCall "g" []], labels := [none], isBinding := true }] (.int32 1)

def circularCopy : Definition := inferring "/g" [] (.plainCall "f" [])

/-- Results that are inferred from each other depend on the order. If `f` is seen first, its result counts as unknown while
    that of `g` is inferred, which is remembered as unknown; if `g` is seen first, it returns a number. -/
theorem circular_depends_on_order :
    (circular circularCopy circularNumber).definitions.Perm (circular circularNumber circularCopy).definitions ∧
      (circular circularNumber circularCopy).check "/main" [] [] = .ok () ∧
      (circular circularCopy circularNumber).check "/main" [] [] = .error (.type (.returnMismatch "/h")) :=
  ⟨.swap .., Stateful.except_eq_ok_of_toOption (by decide +kernel), Stateful.except_eq_error_of_fault? (by decide +kernel)⟩

end Check
end FlatCode
