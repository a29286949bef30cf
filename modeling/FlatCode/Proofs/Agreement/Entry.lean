import FlatCode.Proofs.Agreement.Statement
import FlatCode.Proofs.Termination

/-! Lowering what is checked. Main results: lowering a program that has been checked knows all of its names
    (`lower_knows_names`), and finds no faults but what the code cannot express, a few faults in kinds, and, unless the
    program is regular, faults in what the check cannot see where a definition is expanded
    (`lower_of_check`). -/

namespace FlatCode

def Program.entry? (p : Program) (entry : String) : Option Definition :=
  (Scope.build p).toOption.bind fun scope => scope.get? entry

theorem Program.isStruct_of_entry? {p : Program} {entry : String}
    (h : (p.entry? entry).all (fun d => !d.isStruct) = true) (d : Definition) (hd : p.entry? entry = some d) :
    d.isStruct = false := by
  simpa [hd] using h

namespace Lower
open Stateful
open Check (AcceptsBody AcceptsProgram Env Setting)

/-! ### The entry -/

variable {ctx : Check.Context} {effects : EffectSet} {env : Env} {e : Error}

section
variable {exact : Prop} {p : Program} {entry : String} {defaults entryDefaults : List String} {s : Setting}
  {d : Definition} {depth : Nat} (h : AcceptsProgram exact p entry defaults entryDefaults s d)
  (hregular : exact → p.Regular entry)

include h hregular in
theorem accepted_of_program : Accepted exact s := by
  have hdefinitions : s.scope.definitions = p.definitions := Scope.definitions_of_build h.scope
  refine ⟨Scope.distinct_of_build h.scope, hdefinitions ▸ h.definitions, fun he d hd hstruct hreached => ?_⟩
  exact (hregular he).2 s.scope h.scope d (hdefinitions ▸ hd) hstruct (h.entry_eq ▸ hreached)

/-- The entry of a regular program is named by its own path. -/
theorem path_of_regular (hscope : Scope.build p = .ok s.scope) (hget : s.scope.get? entry = some d)
    (hregular : p.Regular entry) : d.path = entry := by
  obtain ⟨d', hd', hpath⟩ := List.any_eq_true.mp hregular.1
  cases hat : s.scope.at? entry with
  | none =>
    have hno := List.find?_eq_none.mp hat d' (Scope.definitions_of_build hscope ▸ hd')
    exact absurd hpath hno
  | some d'' =>
    rw [Scope.get?, hat] at hget
    cases hget
    simpa using List.find?_some hat

theorem eq_ok_checkExecutions {scope : Scope} {l : List Execution}
    (h : ∀ x ∈ l, (scope.resolve? x.path "/").isSome = true ∧
      ∃ active, EffectSet.active x.transforms effects x.path = .ok active) :
    checkExecutions scope effects l = .ok () := by
  induction l with
  | nil => rfl
  | cons x rest ih =>
    obtain ⟨⟨hsome, active, hactive⟩, hrest⟩ := List.forall_mem_cons.mp h
    have hnone : (scope.resolve? x.path "/").isNone = false := by simpa [Option.isSome_iff_ne_none] using hsome
    simp only [checkExecutions, hnone, Bool.false_eq_true, if_false, hactive]
    exact ih hrest

include h in
/-- Whatever the effects of the entry are by default, those it lists can be read. -/
theorem ends_entryEffects (hd : d ∈ p.definitions) :
    ∃ effects, EffectSet.active d.transforms s.entryDefaults d.path = .ok effects := by
  obtain ⟨effects, heffects⟩ := (h.definitions d hd).effects
  obtain ⟨explicit, hexplicit, -⟩ := except_bind_eq_ok.mp heffects
  exact ⟨_, except_bind_eq_ok.mpr ⟨explicit, hexplicit, rfl⟩⟩

theorem templateArgs_of_checkEntry (hentry : Check.checkEntry s.scope d = .ok ()) : d.templateArgs = [] := by
  unfold Check.checkEntry at hentry
  split at hentry
  · exact nomatch hentry
  case isFalse htemplates => simpa using htemplates

/-- The scope of the entry is empty, or knows the arguments of the run. -/
theorem safe_entryLocals (hentry : Check.checkEntry s.scope d = .ok ())
    (hbody : AcceptsBody exact s d ctx env) : Safe exact s (entryLocals s.scope d) (Related exact env) := by
  have hparameters := hbody.parameters
  have htemplates := hbody.templates.trans (templateArgs_of_checkEntry hentry)
  unfold Check.checkEntry at hentry
  split at hentry
  case isTrue => cases hentry
  case isFalse =>
    split at hentry
    case h_1 hparams =>
      unfold entryLocals
      rw [hparams] at hparameters ⊢
      cases hparameters
      exact .pure .nil
    case h_3 => cases hentry
    case h_2 param hparams =>
      obtain ⟨isArray, harray, h₁⟩ := except_bind_eq_ok.mp hentry
      obtain ⟨hisArray, -⟩ := except_check_eq_ok.mp h₁
      obtain ⟨declared, hdeclared, h₂⟩ := except_bind_eq_ok.mp harray
      cases declared with
      | none =>
        cases h₂
        exact absurd rfl hisArray
      | some type =>
        obtain rfl : (param.boundName?.isSome && type.shape == .array && type.kind == .string) = isArray :=
          Except.ok.inj h₂
        simp only [Bool.not_eq_true', Bool.not_eq_false, Bool.and_eq_true, beq_iff_eq] at hisArray
        obtain ⟨⟨-, hshape⟩, hkind⟩ := hisArray
        unfold entryLocals
        rw [hparams] at hparameters ⊢
        cases hparameters with
        | @cons _ _ ts c b _ hbinding hb hl =>
          cases hl
          have hname : (Expr.call ts c).boundName? = some c.name := by simp [Expr.boundName?, hbinding]
          have htype : type = b.type := by
            generalize c.args.head? = init at hb
            cases hb with
            | declared h | initialized h =>
              rw [hbody.scope, htemplates, hdeclared] at h
              exact Option.some.inj (Except.ok.inj h)
            | collection h | operand h =>
              rw [hbody.scope, htemplates, hdeclared] at h
              cases h
          have hsettled := BindingType.settled_declared? hdeclared
          refine .okBind hdeclared ?_
          simp only [hname, hshape, hkind, and_self, if_true]
          refine safe_newSlot.bind fun slot _ => .pure (Related.nil.cons fun _ => ⟨?_, htype ▸ hsettled⟩)
          exact htype ▸ (eq_argumentsType hsettled hshape hkind).symm

include h hregular

theorem reached_entry (he : exact) : Reached s d.path := by
  rw [path_of_regular h.scope h.get (hregular he), ← h.entry_eq]
  exact .entry

/-- The body of the entry is lowered in a context that follows the one in which it is accepted. -/
theorem follows_entry (hbody : AcceptsBody exact s d ctx env)
    (heffects : EffectSet.active d.transforms s.entryDefaults d.path = .ok effects) {returns : ReturnInfo}
    (hreturns : exact → d.Gives returns) :
    Follows exact s ctx { scope := s.scope, inferrer := .atDepth s.scope depth, defaults := s.defaults, home := entry
                          effects, expanding := [d.path], target := .run returns } where
  sited := by
    refine ⟨hbody.scope, fun he => ?_, fun _ => ?_, fun he => hbody.home ▸ reached_entry h hregular he⟩
    · rw [hbody.home]
      exact (path_of_regular h.scope h.get (hregular he)).symm
    · exact hbody.templates.trans (templateArgs_of_checkEntry h.entry)
  scope := rfl
  inferrer := Inferrer.agrees_atDepth (accepted_of_program h hregular) _
  defaults := rfl
  effects he x hx := by
    have hpath : (d.path == s.entry) = true := by
      rw [h.entry_eq, path_of_regular h.scope h.get (hregular he)]
      exact beq_self_eq_true entry
    have heffects' := hbody.effects
    rw [Setting.effectsOf, hpath, if_pos rfl, heffects] at heffects'
    cases heffects'
    exact hx
  returns he returns' htarget := by
    cases htarget
    rw [(hreturns he).isVoid, hbody.returns.isVoid]
  expanding he := by
    rw [h.entry_eq, path_of_regular h.scope h.get (hregular he)]
    exact List.mem_singleton_self entry

theorem safe_lowerEntry (depth : Nat) (hstruct : d.isStruct = false)
    (heffects : EffectSet.active d.transforms s.entryDefaults d.path = .ok effects) :
    Safe exact s (lowerEntry (.atDepth depth)
      { scope := s.scope, inferrer := .atDepth s.scope depth, defaults := s.defaults, home := entry
        effects, expanding := [d.path], target := .run .void } d) fun _ => True := by
  have hs := accepted_of_program h hregular
  have hd : d ∈ s.scope.definitions := Scope.mem_of_get? h.get
  have hreached := reached_entry h hregular
  obtain ⟨ctx, env, hbody⟩ := (hs.definition hd hreached).body hstruct
  obtain ⟨env', hlist⟩ := hbody.body
  have hreturns : Safe exact s (infer (returnInfo s.scope (.atDepth s.scope depth) [] d))
      fun info => exact → d.Gives info := .infer (infers_returnInfo hs hd hreached) (.tooDeep rfl)
  unfold lowerEntry
  refine hreturns.bind fun returns hgives => (safe_entryLocals h.entry hbody).bind fun locals hlocals => ?_
  refine .check (fun _ => .residual rfl) fun _ => ?_
  refine ((Emitter.agrees_atDepth hs depth).block (follows_entry h hregular hbody heffects hgives) hlocals hlist).andThen ?_
  refine Meets.bind (Q := fun _ => True) (.of_cache fun _ => ⟨_, _, rfl, rfl⟩) fun _ _ => .ite (fun _ => ?_) fun _ => ?_
  · exact safe_emitWith.andThen <| .pure trivial
  · exact .pure trivial

end

/-! ### Programs -/

section
variable {p : Program} {depth : Nat} {entry : String} {defaults entryDefaults : List String}

/-- The faults of lowering a program that has been checked. -/
theorem tolerated_of_lowered {exact : Prop} (hcheck : p.check entry defaults entryDefaults = .ok ())
    (hstruct : ∀ d, p.entry? entry = some d → d.isStruct = false) (hregular : exact → p.Regular entry)
    (hlower : p.loweredTo depth entry defaults entryDefaults = .error e) : e.Tolerated exact := by
  obtain ⟨s, d, h⟩ := Check.accepts_of_check hcheck hregular
  have hd : d ∈ p.definitions := Scope.definitions_of_build h.scope ▸ Scope.mem_of_get? h.get
  have hstruct : d.isStruct = false := hstruct d (by simp [Program.entry?, h.scope, Except.toOption, h.get])
  have htemplates := templateArgs_of_checkEntry h.entry
  obtain ⟨effects, heffects⟩ := ends_entryEffects h hd
  have h₁ := except_error_of_bind h.scope hlower
  have h₂ := except_error_of_bind h.defaults h₁
  have h₃ := except_error_of_bind h.entryDefaults h₂
  rw [h.get] at h₃
  have h₄ := except_error_of_bind (eq_ok_checkExecutions h.executions) h₃
  rw [htemplates] at h₄
  have h₅ := except_error_of_bind heffects h₄
  rcases except_bind_eq_error.mp h₅ with hrun | ⟨⟨returns, state⟩, -, h₆⟩
  · have hsafe := safe_lowerEntry h hregular depth hstruct heffects {} .nil
    change lowerEntry _ _ d {} = .error e at hrun
    rw [hrun] at hsafe
    exact hsafe
  · dsimp only at h₆
    split at h₆
    · cases h₆
      exact .residual rfl
    · exact nomatch h₆

/-- Scopes are kept from checking to lowering: in a program that is checked and whose entry is not a struct, lowering to
    any depth knows every name that is read, assigned to or changed by one. -/
theorem lower_knows_names (hcheck : p.check entry defaults entryDefaults = .ok ())
    (hstruct : ∀ d, p.entry? entry = some d → d.isStruct = false) (depth : Nat) (x : String) :
    p.loweredTo depth entry defaults entryDefaults ≠ .error (.lowering (.unknownName x)) ∧
      ∀ builtin, p.loweredTo depth entry defaults entryDefaults ≠ .error (.type (.unknownTarget builtin x)) := by
  have htolerated {e : Error} (h : p.loweredTo depth entry defaults entryDefaults = .error e) : e.Tolerated False :=
    tolerated_of_lowered hcheck hstruct nofun h
  refine ⟨fun h => ?_, fun builtin h => ?_⟩
  · cases htolerated h with
    | tooDeep h | residual h | late _ h => exact nomatch h
  · cases htolerated h with
    | tooDeep h | residual h | late _ h => exact nomatch h

example (x : String) : (Error.lowering (.unknownName x)).message = "native backend does not know identifier: " ++ x :=
  rfl

example (builtin x : String) :
    (Error.type (.unknownTarget builtin x)).message = builtin ++ " target must be a known binding: " ++ x := rfl

def nesting : Program := {
  definitions := [
    { path := "/next"
      transforms := [{ name := "return", templateArgs := ["i32"] }]
      parameters := [.call [{ name := "i32" }] { name := "x", isBinding := true }]
      statements := [
        .call [{ name := "i32" }, { name := "mut" }]
          { name := "y", args := [.ident "x"], labels := [none], isBinding := true },
        .plainCall "increment" [.ident "y"]]
      result := some (.ident "y") },
    { path := "/twice"
      transforms := [{ name := "return", templateArgs := ["i32"] }]
      parameters := [.call [{ name := "i32" }] { name := "x", isBinding := true }]
      result := some (.plainCall "next" [.plainCall "next" [.ident "x"]]) },
    { path := "/main"
      transforms := [{ name := "return", templateArgs := ["i32"] }]
      result := some (.plainCall "twice" [.int32 5]) }] }

/-- No name is lost where the calls are expanded within one another. -/
theorem nesting_knows_names : nesting.check "/main" [] [] = .ok () ∧
    (∀ d, nesting.entry? "/main" = some d → d.isStruct = false) ∧
    ∀ depth, nesting.loweredTo depth "/main" [] [] ≠ .error (.lowering (.unknownName "y")) ∧
      ∀ builtin, nesting.loweredTo depth "/main" [] [] ≠ .error (.type (.unknownTarget builtin "y")) := by
  have hcheck : nesting.check "/main" [] [] = .ok () := except_eq_ok_of_toOption (by decide +kernel)
  have hentry : ∀ d, nesting.entry? "/main" = some d → d.isStruct = false := Program.isStruct_of_entry? (by decide +kernel)
  exact ⟨hcheck, hentry, fun depth => lower_knows_names hcheck hentry depth "y"⟩

end

/-! ### Programs that are checked -/

section
open FlatCode.Expr

def returnsWord : Transform := { name := "return", templateArgs := ["i32"] }

/-- A parameter without a type takes that of its argument, and the method is that of another kind. -/
def untyped (others : List Definition) : Program := {
  definitions := [
    { path := "/f", transforms := [returnsWord], parameters := [binding "x" [] (int32 1)]
      result := some (methodCall (ident "x") "m" []) },
    { path := "/i32/m", transforms := [returnsWord], parameters := [parameter "x" ["i32"]], result := some (ident "x") },
    { path := "/main", transforms := [returnsWord], result := some (plainCall "f" [int64 2]) }] ++ others }

def paired : Definition := { path := "/i64/m", parameters := ["x", "y"].map (parameter · ["i64"]) }

end

/-- All that is reached is in a set of paths that has the entry and is closed under the calls at its paths. -/
theorem Reaches.mem {scope : Scope} {entry path : String} {paths : List String} (hentry : entry ∈ paths)
    (hclosed : ∀ path ∈ paths, ∀ x ∈ scope.calledAt path,
      x.1 = false ∧ (scope.resolve? x.2 path).all (fun d => paths.contains d.path) = true)
    (h : scope.Reaches entry path) : path ∈ paths := by
  induction h with
  | entry => exact hentry
  | function _ hx hd ih => simpa [hd] using (hclosed _ ih _ hx).2
  | method _ hx _ ih => cases (hclosed _ ih _ hx).1

end Lower
end FlatCode
