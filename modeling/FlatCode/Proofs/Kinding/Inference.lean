import FlatCode.Check.Program
import FlatCode.Program.Build
import FlatCode.Proofs.Kinding.Basic

/-! Two inferences of results. Checking and lowering infer results on their own, each with its own way out where no rule
    applies. Main result: they always agree on whether there is a value and whether it is an array, and both find what
    can be told by rule (`inferences_agree`). -/

namespace FlatCode

variable {scope : Scope} {table known : ResultTable} {busy : List String} {d : Definition} {info : ReturnInfo}
  {k : Kind}

/-! ### Inference by the check -/

namespace Check
variable {I : Inferrer} {site : Site} {env : Env} {e : Expr} {l : List Expr} {c : Call} {o : Operand} {Γ : Types}
  {t : BindingType} {os : List Operand} {r : Option Kind} {cls : BuiltinClass} {ls : List (List Expr)} {home : String}

def Env.types (env : Env) : Types := env.map fun (x, b) => (x, b.type)

theorem lookup_types {x : String} : (Env.types env).lookup x = (env.lookup x).map (·.type) :=
  lookup_map Binding.type env x

theorem types_cons {x : String} {b : Binding} : Env.types ((x, b) :: env) = (x, b.type) :: env.types := rfl

theorem exists_of_types {x : String} (h : (Env.types env).lookup x = some t) :
    ∃ b, env.lookup x = some b ∧ b.type = t :=
  Option.map_eq_some_iff.mp (lookup_types ▸ h)

structure Inferrer.Finds (scope : Scope) (table : ResultTable) (I : Inferrer) : Prop where
  operand {known : ResultTable} {site : Site} {env : Env} {e : Expr} {o : Operand}
    (hknown : table.Before site.busy known) (h : Tells scope known site.home env.types e o) :
    (I.operand site env e).Finds (scope.Recalls table) o
  firstReturn {known : ResultTable} {site : Site} {env : Env} {l : List Expr} {r : Option Kind}
    (hknown : table.Before site.busy known) (h : First scope known site.home env.types l r) :
    (I.firstReturn site env l).Finds (scope.Recalls table) r

theorem operand_of_types (hscalar : t.shape.isCollection = false) {b : Binding} (h : b.type = t) :
    b.operand = t.operand := by
  subst h
  unfold Binding.operand BindingType.operand
  split <;> simp_all [Shape.isCollection]

theorem collection?_of_collects (h : Collects env.types e t) : collection? [] env e = .ok (some t) := by
  cases h with
  | name bound collection settled =>
    obtain ⟨b, hb, rfl⟩ := exists_of_types bound
    simp only [collection?, hb, collection, if_true, ← settled.struct collection]
  | literal type => exact type

theorem indexed?_of_spells (h : Spells env.types e) : indexed? env e = some .int32 := by
  cases h with
  | name bound shape kind =>
    obtain ⟨b, hb, rfl⟩ := exists_of_types bound
    simp [indexed?, collection?, isString, hb, shape, kind, Shape.isCollection]
  | literal => rfl

theorem collection?_of_tells (h : Tells scope known home env.types e o)
    (hscalar : ∀ c, e.call? = some c → BindingType.form? c.name = none) : collection? [] env e = .ok none := by
  cases e with
  | literal => rfl
  | name =>
    cases h with
    | name bound scalar =>
      obtain ⟨b, hb, rfl⟩ := exists_of_types bound
      simp only [collection?, hb, scalar, if_neg Bool.false_ne_true]
  | call ts c => simp only [collection?, BindingType.ofLiteral?, hscalar c rfl]

theorem methodOwner?_eq {kind : Kind} : methodOwner? env e kind = env.types.owner? e kind := by
  cases e with
  | name ts x =>
    rw [methodOwner?, Types.owner?, Types.struct?, lookup_types, Option.bind_map]
    cases hstruct : (env.lookup x).bind (·.type.struct) with
    | none => rw [Function.comp_def, hstruct, Option.none_or]
    | some path => rw [Function.comp_def, hstruct, Option.some_or]
  | literal | call => rfl

/-- Parameters without templates are inferred like any other declarations. -/
theorem inferParameters_nil : inferParameters scope I site [] env l = inferBindings scope I site env l := by
  induction l generalizing env with
  | nil => rfl
  | cons e l ih =>
    unfold inferParameters inferBindings
    split
    · exact ih
    · simp only [ih, inferBinding]
      rcases BindingType.declared? scope [] e.transforms with _ | _ | _ <;> rfl

section
variable (hI : I.Finds scope table) (hknown : table.Before site.busy known)
include hI hknown

theorem finds_operands (h : TellsAll scope known site.home env.types l os) :
    (l.mapM (I.operand site env)).Finds (scope.Recalls table) os := by
  induction l generalizing os with
  | nil =>
    cases h
    exact .pure rfl
  | cons e l ih =>
    cases h with
    | cons head tail =>
      rw [List.mapM_cons]
      exact (hI.operand hknown head).bind ((ih tail).bind (.pure rfl))

theorem meets_binding (h : TellsBinding scope known site.home env.types e t) :
    Recall.Meets (scope.Recalls table) (inferBinding scope I site env e) (·.type = t) := by
  unfold inferBinding
  cases h with
  | declared declared =>
    rw [declared]
    exact .pure rfl
  | collection undeclared initial collection =>
    rw [undeclared, initial]
    dsimp only
    rw [collection?_of_collects collection]
    exact .pure rfl
  | operand undeclared initial scalar operand =>
    rw [undeclared, initial]
    dsimp only
    rw [collection?_of_tells operand scalar]
    exact (hI.operand hknown operand).bind (.pure rfl)

theorem meets_bindings (h : TellsBindings scope known site.home env.types l Γ) :
    Recall.Meets (scope.Recalls table) (inferBindings scope I site env l) (·.types = Γ) := by
  induction l generalizing env with
  | nil =>
    cases h
    exact .pure rfl
  | cons e l ih =>
    unfold inferBindings
    cases h with
    | skip other rest =>
      rw [other]
      exact ih rest
    | cons name type rest =>
      rw [name]
      refine (meets_binding hI hknown type).bind fun b hb => ih ?_
      rwa [types_cons, hb]

omit hknown in
theorem finds_inferResult (hbefore : table.Before busy known) (hclosed : d.templateArgs = [])
    (hparameters : TellsBindings scope known d.path [] d.parameters Γ)
    (hbody : First scope known d.path Γ d.body (some k)) :
    (inferResult scope I busy d).Finds (scope.Recalls table) k := by
  have hbindings : Recall.Meets _ (inferBindings scope I ⟨d.path, busy⟩ [] d.parameters) (·.types = Γ) :=
    meets_bindings hI hbefore hparameters
  simp only [inferResult, hclosed, inferParameters_nil]
  exact hbindings.bind fun env henv => (hI.firstReturn hbefore (henv ▸ hbody)).bind (.pure rfl)

theorem finds_block (h : TellsBlock scope known site.home env.types l o) :
    (inferBlock scope I site env l).Finds (scope.Recalls table) o := by
  obtain ⟨last, declarations, -, -, operand⟩ := h
  unfold inferBlock
  rw [last]
  exact (meets_bindings hI hknown declarations).bind fun inner hinner => hI.operand hknown (hinner ▸ operand)

theorem finds_callee (h : Calls scope known site.home env.types c d) :
    (callee? scope I site env c).Finds (scope.Recalls table) (some d) := by
  unfold callee?
  cases h with
  | plain plain user found =>
    rw [(isPlain_iff.mp plain).2, if_neg Bool.false_ne_true, found]
    exact .pure rfl
  | @method _ _ _ e rest o owner call method args operand unbuilt owned found =>
    rw [method, if_pos rfl, args]
    refine (hI.operand hknown operand).bind (.pure ?_)
    rw [methodOwner?_eq, owned]
    exact found

theorem finds_builtin (h : TellsBuiltin scope known site.home env.types c cls o) :
    (inferBuiltin scope I site env c cls).Finds (scope.Recalls table) o := by
  cases h with
  | arithmetic args resolved =>
    refine (finds_operands hI hknown args).bind ?_
    simp only [resolved]
    exact .pure rfl
  | negate name args resolved =>
    refine (finds_operands hI hknown args).bind (.pure ?_)
    rw [name, resolveMath_of_resolveNegate resolved, valueAt]
  | math args resolved =>
    refine (finds_operands hI hknown args).bind (.pure ?_)
    rw [resolved, valueAt]
  | truth truth =>
    unfold BuiltinClass.isTruth at truth
    split at truth
    iterate 4 exact .pure rfl
    exact nomatch truth
  | convert target =>
    refine .pure ?_
    rw [ofTypeName?_of_convertTarget target, Option.getD_some]
  | location args bound =>
    obtain ⟨b, hb, rfl⟩ := exists_of_types bound
    simp only [inferBuiltin, args, hb]
    exact .pure rfl
  | reference args bound reference =>
    simp only [inferBuiltin, args]
    refine (hI.operand hknown (.name bound (by rw [reference]; rfl))).bind (.pure ?_)
    rw [BindingType.operand, if_neg (by rw [reference]; decide), Operand.target]
  | pointer args operand =>
    simp only [inferBuiltin, args]
    exact (hI.operand hknown operand).bind (.pure rfl)
  | change change args operand =>
    unfold BuiltinClass.isChange at change
    split at change
    iterate 2
      simp only [inferBuiltin, args]
      exact (hI.operand hknown operand).bind (.pure rfl)
    exact nomatch change
  | count => exact .pure rfl
  | element args collection =>
    simp only [inferBuiltin, args, List.head?_cons, Option.bind_some, indexed?, collection?_of_collects collection]
    exact .pure rfl
  | byte args string =>
    simp only [inferBuiltin, args, List.head?_cons, Option.bind_some, indexed?_of_spells string]
    exact .pure rfl
  | ifElse args yesBody _ yes =>
    simp only [inferBuiltin, args, List.getElem?_cons_succ, List.getElem?_cons_zero, Option.bind_some, yesBody,
      inferBody]
    exact finds_block hI hknown yes
  | block body block =>
    simp only [inferBuiltin, body, inferBody]
    exact finds_block hI hknown block

theorem finds_inferOperand (htable : Told scope table) (hdistinct : Definition.Distinct scope.definitions)
    (h : Tells scope known site.home env.types e o) :
    (inferOperand scope I site env e).Finds (scope.Recalls table) o := by
  cases h with
  | literal => exact .pure rfl
  | name bound scalar =>
    obtain ⟨b, hb, rfl⟩ := exists_of_types bound
    refine .pure ?_
    rw [hb, Option.map_some, Option.getD_some, operand_of_types scalar rfl]
  | builtin call builtin operand =>
    obtain ⟨b, hb, rfl⟩ := Option.map_eq_some_iff.mp builtin
    simp only [inferOperand, call, if_neg Bool.false_ne_true, hb]
    exact finds_builtin hI hknown operand
  | struct callee struct =>
    simp only [inferOperand, callee.isBinding, if_neg Bool.false_ne_true, callee.builtin?]
    refine (finds_callee hI hknown callee).bind ?_
    simp only [struct, if_true]
    exact .pure rfl
  | call callee code result =>
    simp only [inferOperand, callee.isBinding, if_neg Bool.false_ne_true, callee.builtin?]
    refine (finds_callee hI hknown callee).bind ?_
    simp only [code, if_neg Bool.false_ne_true]
    exact (finds_returnInfo htable hdistinct hknown callee.mem result (finds_inferResult hI)).run (.pure rfl)

theorem finds_firstIn (h : FirstIn scope known site.home env.types ls r) :
    (firstReturnIn I site env ls).Finds (scope.Recalls table) r := by
  induction ls with
  | nil =>
    cases h
    exact .pure rfl
  | cons l ls ih =>
    cases h with
    | found block => exact (hI.firstReturn hknown block).bind (.pure rfl)
    | pass block rest => exact (hI.firstReturn hknown block).bind (ih rest)

theorem finds_first (h : First scope known site.home env.types l r) :
    (inferFirstReturn scope I site env l).Finds (scope.Recalls table) r := by
  induction l generalizing env with
  | nil =>
    cases h
    exact .pure rfl
  | cons e l ih =>
    cases h with
    | skip other rest =>
      cases e with
      | call => exact nomatch other
      | literal | name => exact ih rest
    | declare binding type rest =>
      unfold inferFirstReturn
      rw [binding, if_pos rfl]
      refine (meets_binding hI hknown type).bind fun b hb => ih ?_
      rwa [types_cons, hb]
    | value plain name args operand =>
      simp only [inferFirstReturn, (isPlain_iff.mp plain).1, if_neg Bool.false_ne_true, name, beq_self_eq_true,
        if_true, args]
      exact (hI.operand hknown operand).bind (.pure rfl)
    | leave plain name args rest =>
      simp only [inferFirstReturn, (isPlain_iff.mp plain).1, if_neg Bool.false_ne_true, name, beq_self_eq_true,
        if_true, args]
      exact ih rest
    | found call other blocks =>
      unfold inferFirstReturn
      rw [call, if_neg Bool.false_ne_true, if_neg (by simpa using other)]
      exact (finds_firstIn hI hknown blocks).bind (.pure rfl)
    | pass call other blocks rest =>
      unfold inferFirstReturn
      rw [call, if_neg Bool.false_ne_true, if_neg (by simpa using other)]
      exact (finds_firstIn hI hknown blocks).bind (ih rest)

end

theorem Inferrer.finds_atDepth (htable : Told scope table) (hdistinct : Definition.Distinct scope.definitions)
    (n : Nat) : (Inferrer.atDepth scope n).Finds scope table := by
  induction n with
  | zero => exact ⟨fun _ _ => .tooDeep, fun _ _ => .tooDeep⟩
  | succ n ih => exact ⟨fun hknown h => finds_inferOperand ih hknown htable hdistinct h,
      fun hknown h => finds_first ih hknown h⟩

end Check

/-! ### Inference by lowering -/

namespace Lower
open Infer.Finds (liftBind)

variable {I : Inferrer} {site : Site} {locals : Locals} {e : Expr} {l : List Expr} {c : Call} {o : Operand} {Γ : Types}
  {t : BindingType} {os : List Operand} {r : Option Kind} {cls : BuiltinClass} {ls : List (List Expr)}

def Locals.types (locals : Locals) : Types := locals.map fun (x, l) => (x, l.type)

theorem lookup_types {x : String} : (Locals.types locals).lookup x = (locals.lookup x).map (·.type) :=
  lookup_map Local.type locals x

theorem types_cons {x : String} {b : Local} : Locals.types ((x, b) :: locals) = (x, b.type) :: locals.types := rfl

theorem exists_of_types {x : String} (h : (Locals.types locals).lookup x = some t) :
    ∃ b, locals.lookup x = some b ∧ b.type = t := Option.map_eq_some_iff.mp (lookup_types ▸ h)

structure Inferrer.Finds (scope : Scope) (table : ResultTable) (I : Inferrer) : Prop where
  operand {known : ResultTable} {site : Site} {locals : Locals} {e : Expr} {o : Operand}
    (hknown : table.Before site.busy known) (h : Tells scope known site.home locals.types e o) :
    (I.operand site locals e).Finds (scope.Recalls table) o
  firstReturn {known : ResultTable} {site : Site} {locals : Locals} {l : List Expr} {r : Option Kind}
    (hknown : table.Before site.busy known) (h : First scope known site.home locals.types l r) :
    (I.firstReturn site locals l).Finds (scope.Recalls table) r

/-- A collection is the list of arguments, or it is held in slots. -/
theorem collection?_of_collects (h : Collects locals.types e t) :
    isArguments locals e = true ∧ t = { shape := .array, kind := .string } ∨
      isArguments locals e = false ∧ collection? locals e = .ok (some t) := by
  cases h with
  | name bound collection settled =>
    obtain ⟨b, hb, rfl⟩ := exists_of_types bound
    simp only [isArguments, collection?, hb, Option.any_some, Option.bind_some]
    cases harguments : b.isArguments with
    | true =>
      simp only [Local.isArguments, Bool.and_eq_true, beq_iff_eq] at harguments
      refine .inl ⟨rfl, settled.ext ⟨nofun, fun _ => rfl, nofun, fun _ => rfl⟩ collection harguments.1 harguments.2 ?_⟩
      rw [harguments.1]
      exact nofun
    | false => simp [Local.collection?, collection, harguments, ← settled.struct collection]
  | literal type => exact .inr ⟨rfl, type⟩

theorem receiverStruct?_of_unbuilt (h : scope.built? e site.home = none) :
    receiverStruct? scope site locals e = locals.types.struct? e := by
  cases e with
  | name => rw [Types.struct?, lookup_types, Option.bind_map, receiverStruct?, Function.comp_def]
  | literal => rfl
  | call => exact h

theorem argument_of_args {rest : List Expr} (h : c.args = e :: rest) : c.argument 0 = .ok e := by
  rw [CallOf.argument, h, List.getElem?_cons_zero]

/-- A reference tells the kind of its target. -/
theorem kind_of_reference? {b : Local} (h : Tells scope known home locals.types e o)
    (href : reference? locals e = some b) : o = .value b.type.kind := by
  cases h with
  | name bound scalar =>
    obtain ⟨b', hb, rfl⟩ := exists_of_types bound
    simp only [reference?, hb] at href
    split at href
    case isTrue hshape =>
      cases href
      rw [BindingType.operand, if_neg (by rw [hshape]; decide)]
    case isFalse => cases href
  | literal | builtin | struct | call => cases href

theorem collection?_of_tells (h : Tells scope known home locals.types e o)
    (hscalar : ∀ c, e.call? = some c → BindingType.form? c.name = none) :
    isArguments locals e = false ∧ collection? locals e = .ok none := by
  cases e with
  | literal => exact ⟨rfl, rfl⟩
  | name =>
    cases h with
    | name bound scalar =>
      obtain ⟨b, hb, rfl⟩ := exists_of_types bound
      have harguments : b.isArguments = false := by
        rw [Local.isArguments]
        cases hshape : b.type.shape <;> first | rfl | exact nomatch hshape ▸ scalar
      simp [isArguments, collection?, hb, Local.collection?, scalar, harguments]
  | call ts c => exact ⟨rfl, by simp only [collection?, BindingType.ofLiteral?, hscalar c rfl]⟩

theorem finds_index {rest : List Expr} (hargs : c.args = e :: rest) (h : Collects locals.types e t) :
    (inferIndex I site locals c).Finds (scope.Recalls table) (.value t.kind) := by
  refine liftBind (argument_of_args hargs) ?_
  rcases collection?_of_collects h with ⟨harguments, rfl⟩ | ⟨harguments, htype⟩
  · rw [harguments, if_pos rfl]
    exact .pure rfl
  · rw [harguments, if_neg Bool.false_ne_true]
    exact liftBind htype (.pure rfl)

section
variable (hI : I.Finds scope table) (hknown : table.Before site.busy known)
include hI hknown

theorem finds_operands (h : TellsAll scope known site.home locals.types l os) :
    (l.mapM (I.operand site locals)).Finds (scope.Recalls table) os := by
  induction l generalizing os with
  | nil =>
    cases h
    exact .pure rfl
  | cons e l ih =>
    cases h with
    | cons head tail =>
      rw [List.mapM_cons]
      exact (hI.operand hknown head).bind ((ih tail).bind (.pure rfl))

theorem meets_local (h : TellsBinding scope known site.home locals.types e t) :
    Infer.Meets (scope.Recalls table) (fun _ => False) (inferLocal scope I site locals e e.initial?) (·.type = t) := by
  unfold inferLocal
  cases h with
  | declared declared supported => exact liftBind declared (liftBind supported (.pure rfl))
  | collection undeclared initial collection =>
    rw [initial]
    refine liftBind undeclared ?_
    dsimp only
    rcases collection?_of_collects collection with ⟨harguments, rfl⟩ | ⟨harguments, htype⟩
    · rw [harguments, if_pos rfl]
      exact .pure rfl
    · rw [harguments, if_neg Bool.false_ne_true]
      exact liftBind htype (.pure rfl)
  | operand undeclared initial scalar operand told addressable =>
    rw [initial]
    obtain ⟨harguments, hnone⟩ := collection?_of_tells operand scalar
    refine liftBind undeclared ?_
    dsimp only
    rw [harguments, if_neg Bool.false_ne_true]
    refine liftBind hnone ((hI.operand hknown operand).bind ?_)
    split
    · exact absurd rfl addressable
    · exact absurd rfl told
    · exact .pure rfl

theorem meets_locals (h : TellsBindings scope known site.home locals.types l Γ) :
    Infer.Meets (scope.Recalls table) (fun _ => False) (inferLocals scope I site locals l) (·.types = Γ) := by
  induction l generalizing locals with
  | nil =>
    cases h
    exact .pure rfl
  | cons e l ih =>
    unfold inferLocals
    cases h with
    | skip other rest =>
      rw [other]
      exact ih rest
    | cons name type rest =>
      rw [name]
      refine (meets_local hI hknown type).bind fun b hb => ih ?_
      rwa [types_cons, hb]

/-- A declaration whose type is told extends the scope. -/
theorem meets_tryLocal {x : String} (hname : e.boundName? = some x)
    (h : TellsBinding scope known site.home locals.types e t) :
    Recall.Meets (scope.Recalls table) (tryLocal scope I site locals e) (·.types = (x, t) :: locals.types) := by
  unfold tryLocal
  rw [hname]
  refine Recall.Meets.bind (meets_local hI hknown h) fun r hr => ?_
  cases r with
  | ok b => exact .pure (hr ▸ types_cons)
  | error => exact hr.elim

theorem meets_parameters (h : TellsBindings scope known site.home locals.types l Γ) :
    Recall.Meets (scope.Recalls table) (inferParameters scope I site locals l) (·.types = Γ) := by
  induction l generalizing locals with
  | nil =>
    cases h
    exact .pure rfl
  | cons e l ih =>
    unfold inferParameters
    cases h with
    | skip other rest =>
      rw [tryLocal, other]
      exact ih rest
    | cons name type rest => exact (meets_tryLocal hI hknown name type).bind fun _ h => ih (h ▸ rest)

omit hknown in
theorem finds_inferResult (hbefore : table.Before busy known)
    (hparameters : TellsBindings scope known d.path [] d.parameters Γ)
    (hbody : First scope known d.path Γ d.body (some k)) :
    (inferResult scope I busy d).Finds (scope.Recalls table) k := by
  have hparams : Recall.Meets _ (inferParameters scope I ⟨d.path, busy⟩ [] d.parameters) (·.types = Γ) :=
    meets_parameters hI hbefore hparameters
  exact hparams.bind fun locals hlocals => (hI.firstReturn hbefore (hlocals ▸ hbody)).bind (.pure rfl)

theorem finds_block (h : TellsBlock scope known site.home locals.types l o) :
    (inferBlock scope I site locals l).Finds (scope.Recalls table) o := by
  obtain ⟨last, declarations, value, stays, operand⟩ := h
  unfold inferBlock
  rw [last]
  refine (meets_locals hI hknown declarations).bind fun inner hinner => ?_
  simp only [value, stays, if_neg Bool.false_ne_true]
  exact hI.operand hknown (hinner ▸ operand)

theorem finds_if {cond yes no : Expr} {y n : List Expr} (hargs : c.args = [cond, yes, no])
    (hyesBody : yes.body? = some y) (hnoBody : no.body? = some n)
    (hyes : TellsBlock scope known site.home locals.types y o)
    (hno : TellsBlock scope known site.home locals.types n o) :
    (inferIf scope I site locals c).Finds (scope.Recalls table) o := by
  have hmerge : mergeBranches o o = .ok o := by simp [mergeBranches]
  have hlast : (inferBranches scope I site locals [no]).Finds (scope.Recalls table) [o] := by
    simp only [inferBranches, hnoBody]
    exact (finds_block hI hknown hno).bind (.pure rfl)
  have hboth : (inferBranches scope I site locals [yes, no]).Finds (scope.Recalls table) [o, o] := by
    rw [inferBranches, hyesBody]
    exact (finds_block hI hknown hyes).bind (hlast.bind (.pure rfl))
  rw [inferIf, hargs]
  exact hboth.bind (Infer.Finds.lift hmerge)

theorem finds_builtin (h : TellsBuiltin scope known site.home locals.types c cls o) :
    (inferBuiltin scope I site locals c cls).Finds (scope.Recalls table) o := by
  cases h with
  | arithmetic args resolved =>
    obtain ⟨l, tail, hl, hleft, htail⟩ := args.uncons
    obtain ⟨r, rest, rfl, hright, -⟩ := htail.uncons
    have hsecond : c.argument 1 = .ok r := by rw [CallOf.argument, hl, List.getElem?_cons_succ, List.getElem?_cons_zero]
    refine liftBind (argument_of_args hl) ((hI.operand hknown hleft).bind ?_)
    exact liftBind hsecond ((hI.operand hknown hright).bind (liftBind resolved (.pure rfl)))
  | negate name args resolved =>
    obtain ⟨e, rest, he, hoperand, -⟩ := args.uncons
    refine liftBind (argument_of_args he) ((hI.operand hknown hoperand).bind ?_)
    exact liftBind resolved (.pure rfl)
  | math args resolved => exact (finds_operands hI hknown args).bind (liftBind resolved (.pure rfl))
  | truth truth =>
    unfold BuiltinClass.isTruth at truth
    split at truth
    iterate 4 exact .pure rfl
    exact nomatch truth
  | convert target => exact liftBind target (.pure rfl)
  | location args bound addressable =>
    obtain ⟨b, hb, rfl⟩ := exists_of_types bound
    refine liftBind (argument_of_args args) (liftBind (a := b) ?_ (.pure rfl))
    simp only [Lower.addressable, hb, if_neg addressable]
  | reference args bound reference =>
    obtain ⟨b, hb, rfl⟩ := exists_of_types bound
    refine liftBind (argument_of_args args) ?_
    simp only [reference?, hb, reference, if_true]
    exact .pure rfl
  | pointer args operand =>
    refine liftBind (argument_of_args args) ?_
    split
    case h_1 b hb => exact nomatch kind_of_reference? operand hb
    case h_2 => exact (hI.operand hknown operand).bind (.pure rfl)
  | change change args operand =>
    unfold BuiltinClass.isChange at change
    split at change
    iterate 2
      refine liftBind (argument_of_args args) ?_
      split
      case h_1 b hb => exact .pure (kind_of_reference? operand hb).symm
      case h_2 => exact hI.operand hknown operand
    exact nomatch change
  | count => exact .pure rfl
  | element args collection => exact finds_index args collection
  | byte args string =>
    have hoperand := string.tells scope known site.home
    obtain ⟨harguments, hnone⟩ := collection?_of_tells hoperand string.call?
    refine liftBind (argument_of_args args) ?_
    rw [harguments, if_neg Bool.false_ne_true]
    exact liftBind hnone ((hI.operand hknown hoperand).bind (.pure rfl))
  | ifElse args yesBody noBody yes no => exact finds_if hI hknown args yesBody noBody yes no
  | block body block =>
    simp only [inferBuiltin, body, Option.getD_some]
    exact finds_block hI hknown block

theorem finds_callee (h : Calls scope known site.home locals.types c d) :
    (callee scope I site locals c).Finds (scope.Recalls table) d := by
  unfold callee
  cases h with
  | plain plain user found =>
    rw [(isPlain_iff.mp plain).2, if_neg Bool.false_ne_true, found]
    exact .pure rfl
  | @method _ _ _ e rest o owner call method args operand unbuilt owned found =>
    rw [method, if_pos rfl, args]
    rw [Types.owner?, ← receiverStruct?_of_unbuilt unbuilt] at owned
    dsimp only
    cases hstruct : receiverStruct? scope site locals e with
    | some path =>
      rw [hstruct, Option.some_or] at owned
      cases owned
      simp only [pure_bind, found]
      exact .pure rfl
    | none =>
      rw [hstruct, Option.none_or] at owned
      obtain ⟨-, howner⟩ := Option.ite_none_left_eq_some.mp owned
      cases howner
      refine (hI.operand hknown operand).bind ?_
      simp only [pure_bind, found]
      exact .pure rfl

theorem finds_inferOperand (htable : Told scope table) (hdistinct : Definition.Distinct scope.definitions)
    (h : Tells scope known site.home locals.types e o) :
    (inferOperand scope I site locals e).Finds (scope.Recalls table) o := by
  cases h with
  | literal => exact .pure rfl
  | @name _ _ x _ bound scalar =>
    obtain ⟨b, hb, rfl⟩ := exists_of_types bound
    have hread : readable locals x = .ok b := by
      simp only [readable, hb, Local.collection?, scalar, Bool.false_and, if_neg Bool.false_ne_true]
    exact liftBind hread (.pure rfl)
  | builtin call builtin operand =>
    obtain ⟨b, hb, rfl⟩ := Option.map_eq_some_iff.mp builtin
    simp only [inferOperand, call, if_neg Bool.false_ne_true, hb]
    exact finds_builtin hI hknown operand
  | struct callee struct =>
    simp only [inferOperand, callee.isBinding, if_neg Bool.false_ne_true, callee.builtin?]
    refine (finds_callee hI hknown callee).bind ?_
    simp only [struct, if_true]
    exact .pure rfl
  | call callee code result value =>
    simp only [inferOperand, callee.isBinding, if_neg Bool.false_ne_true, callee.builtin?]
    refine (finds_callee hI hknown callee).bind ?_
    simp only [code, if_neg Bool.false_ne_true]
    refine (finds_returnInfo htable hdistinct hknown callee.mem result fun hbefore _ =>
      finds_inferResult hI hbefore).bind ?_
    simp only [value, if_neg Bool.false_ne_true]
    exact .pure rfl

theorem finds_firstIn (h : FirstIn scope known site.home locals.types ls r) :
    (firstReturnIn I site locals ls).Finds (scope.Recalls table) r := by
  induction ls with
  | nil =>
    cases h
    exact .pure rfl
  | cons l ls ih =>
    cases h with
    | found block => exact (hI.firstReturn hknown block).bind (.pure rfl)
    | pass block rest => exact (hI.firstReturn hknown block).bind (ih rest)

theorem finds_first (h : First scope known site.home locals.types l r) :
    (inferFirstReturn scope I site locals l).Finds (scope.Recalls table) r := by
  induction l generalizing locals with
  | nil =>
    cases h
    exact .pure rfl
  | cons e l ih =>
    cases h with
    | skip other rest =>
      cases e with
      | call => exact nomatch other
      | literal | name => exact ih rest
    | @declare _ ts c _ _ _ binding type rest =>
      have hname : (Expr.call ts c).boundName? = some c.name := if_pos binding
      simp only [inferFirstReturn, binding, if_true]
      exact (meets_tryLocal hI hknown hname type).bind fun _ h => ih (h ▸ rest)
    | value plain name args operand =>
      simp only [inferFirstReturn, (isPlain_iff.mp plain).1, if_neg Bool.false_ne_true, Expr.isCallTo, plain, name,
        beq_self_eq_true, Bool.and_self, if_true, args]
      exact (hI.operand hknown operand).run (.pure rfl)
    | leave plain name args rest =>
      simp only [inferFirstReturn, (isPlain_iff.mp plain).1, if_neg Bool.false_ne_true, Expr.isCallTo, plain, name,
        beq_self_eq_true, Bool.and_self, if_true, args]
      exact ih rest
    | found call other blocks =>
      simp only [inferFirstReturn, call, Expr.isCallTo, beq_false_of_ne other, Bool.and_false,
        if_neg Bool.false_ne_true]
      exact (finds_firstIn hI hknown blocks).bind (.pure rfl)
    | pass call other blocks rest =>
      simp only [inferFirstReturn, call, Expr.isCallTo, beq_false_of_ne other, Bool.and_false,
        if_neg Bool.false_ne_true]
      exact (finds_firstIn hI hknown blocks).bind (ih rest)

end

theorem Inferrer.finds_atDepth (htable : Told scope table) (hdistinct : Definition.Distinct scope.definitions)
    (n : Nat) : (Inferrer.atDepth scope n).Finds scope table := by
  induction n with
  | zero => exact ⟨fun _ _ => .tooDeep, fun _ _ => .tooDeep⟩
  | succ n ih =>
    exact ⟨fun hknown h => finds_inferOperand ih hknown htable hdistinct h,
      fun hknown h => finds_first ih hknown h⟩

end Lower

/-! ### Both inferences -/

/-- Whether a result has a value, and whether it is an array. -/
def ReturnInfo.form (info : ReturnInfo) : Bool × Bool := (info.isVoid, info.isArray)

/-- What a definition is found to return has the form of the declared result, if there is one, or else of a value or of
    none. -/
theorem form_of_returnInfo {infer : List String → Definition → Recall Kind} {r : Except Error ReturnInfo}
    {cache : ReturnCache} (h : (d.returnInfo infer busy).run [] = some (r, cache)) :
    r.map ReturnInfo.form = (ReturnInfo.declared? d).map fun declared =>
      (declared.getD (if d.isStruct || !Returns.containsValue d.body then .void else .value .unknown)).form := by
  unfold Definition.returnInfo at h
  cases hdeclared : ReturnInfo.declared? d with
  | error e =>
    rw [hdeclared] at h
    cases h
    rfl
  | ok declared =>
    rw [hdeclared] at h
    cases declared with
    | some info =>
      cases h
      rfl
    | none =>
      split
      case isTrue hvoid =>
        rw [if_pos hvoid] at h
        cases h
        rfl
      case isFalse hvalue =>
        rw [if_neg hvalue] at h
        split at h
        · cases h
          rfl
        · have hform : Infer.Meets (fun _ => True) (fun _ => False)
              (do liftM (ReturnCache.remember d.path (.value (← infer (d.path :: busy) d))))
              (·.form = (false, false)) := by
            refine Infer.Meets.bind (Q := fun _ => True) (.ofRecall fun _ _ _ _ _ => ⟨trivial, trivial⟩) fun k _ => ?_
            refine .ofRecall fun _ _ _ _ hrun => ?_
            cases hrun
            exact ⟨trivial, rfl⟩
          cases r with
          | ok info => exact congrArg Except.ok (hform [] _ cache trivial h).2
          | error e => exact (hform [] _ cache trivial h).2.elim

/-- Where checking and lowering both come to an end, whatever the depths, they find results of the same form or both find
    the declared one faulty; and a result that is told by rule is what both of them find. -/
theorem inferences_agree {p : Program} {n n' : Nat} {r r' : Except Error ReturnInfo} {cache cache' : ReturnCache}
    (hscope : Scope.build p = .ok scope) (hd : d ∈ scope.definitions)
    (hcheck : (Check.returnInfo scope (.atDepth scope n) [] d).run [] = some (r, cache))
    (hlower : (Lower.returnInfo scope (.atDepth scope n') [] d).run [] = some (r', cache')) :
    r.map ReturnInfo.form = r'.map ReturnInfo.form ∧
      ∀ known info, Told scope known → d.result? known = some info → r = .ok info ∧ r' = .ok info := by
  refine ⟨(form_of_returnInfo hcheck).trans (form_of_returnInfo hlower).symm, fun known info htold hresult => ?_⟩
  have hdistinct := Scope.distinct_of_build hscope
  have hknown : known.Before [] known := ⟨List.suffix_refl _, nofun⟩
  have hC := Check.Inferrer.finds_atDepth htold hdistinct n
  have hL := Lower.Inferrer.finds_atDepth htold hdistinct n'
  have hr := finds_returnInfo htold hdistinct hknown hd hresult (Check.finds_inferResult hC)
  have hr' := finds_returnInfo htold hdistinct hknown hd hresult fun hbefore _ => Lower.finds_inferResult hL hbefore
  exact ⟨(hr [] r cache nofun hcheck).2.eq, (hr' [] r' cache' nofun hlower).2.eq⟩

section
open FlatCode.Expr

def picking : Definition :=
  { path := "/pick", statements := [ret (ifElse (bool true) [int64 1] [plainCall "plus" [int32 1, int64 2]])] }

def doubling : Definition :=
  { path := "/double", parameters := [parameter "x" ["i32"]]
    statements := [binding "y" [] (plainCall "pick" []), ret (plainCall "multiply" [ident "x", ident "y"])] }

end

def doubled : Scope := ⟨[picking, doubling], []⟩

theorem told_doubled : Told doubled [("/double", .int64), ("/pick", .int64)] := by
  refine .cons (d := doubling) (.cons (d := picking) .nil (.head _) rfl rfl .nil ?_) (.tail _ (.head _)) rfl rfl
    (.cons rfl (.declared (t := .scalar .int32) (by rfl) (by rfl)) .nil) ?_
  · refine .value (o := .value .int64) rfl rfl rfl (.builtin rfl rfl (.ifElse rfl rfl rfl ?_ ?_))
    · exact .mk rfl .nil rfl rfl .literal
    · exact .mk rfl .nil rfl rfl (.builtin rfl rfl
        (.arithmetic (r := .numeric .i64) (.cons .literal (.cons .literal .nil)) rfl))
  · have hfound : doubled.resolve? "pick" "/double" = some picking := by rfl
    have hresult : picking.result? [("/pick", .int64)] = some (.value .int64) := by rfl
    refine .declare rfl (.operand rfl rfl ?_ (.call (.plain rfl rfl hfound) rfl hresult rfl) (by decide) (by decide)) ?_
    · intro c hc
      cases hc
      rfl
    · exact .value (o := .value .int64) rfl rfl rfl (.builtin rfl rfl
        (.arithmetic (r := .numeric .i64) (.cons (.name rfl rfl) (.cons (.name rfl rfl) .nil)) rfl))

theorem doubling_agrees : Scope.build { definitions := [picking, doubling] } = .ok doubled ∧
    doubling ∈ doubled.definitions ∧ ∃ cache cache',
      (Check.returnInfo doubled (.atDepth doubled 9) [] doubling).run [] = some (.ok (.value .int64), cache) ∧
      (Lower.returnInfo doubled (.atDepth doubled 9) [] doubling).run [] = some (.ok (.value .int64), cache') := by
  have hscope : Scope.build { definitions := [picking, doubling] } = .ok doubled := by rfl
  have hd : doubling ∈ doubled.definitions := .tail _ (.head _)
  have hchecked : ((Check.returnInfo doubled (.atDepth doubled 9) [] doubling).run []).isSome = true := by
    decide +kernel
  have hlowered : ((Lower.returnInfo doubled (.atDepth doubled 9) [] doubling).run []).isSome = true := by
    decide +kernel
  have hresult : doubling.result? [("/double", .int64), ("/pick", .int64)] = some (.value .int64) := by rfl
  obtain ⟨⟨r, cache⟩, hcheck⟩ := Option.isSome_iff_exists.mp hchecked
  obtain ⟨⟨r', cache'⟩, hlower⟩ := Option.isSome_iff_exists.mp hlowered
  obtain ⟨rfl, rfl⟩ := (inferences_agree hscope hd hcheck hlower).2 _ _ told_doubled hresult
  exact ⟨hscope, hd, cache, cache', hcheck, hlower⟩

section
open FlatCode.Expr

def mixing : Definition := { path := "/pick", statements := [ret (ifElse (bool true) [int32 1] [int64 2])] }

def mixed : Program := {
  definitions := [mixing,
    { path := "/i32/same", transforms := [{ name := "return", templateArgs := ["i32"] }]
      parameters := [parameter "x" ["i32"]], statements := [ret (ident "x")] },
    { path := "/main", transforms := [{ name := "return", templateArgs := ["i32"] }]
      statements := [ret (methodCall (plainCall "pick" []) "same" [])] }] }

end

/-- Where the branches of an `if` differ in kind, so do the inferences, in a program that passes the check. -/
theorem mixing_differs : (mixed.check "/main" [] []).toOption = some () ∧
    let scope : Scope := ⟨mixed.definitions, []⟩
    ((Check.returnInfo scope (.atDepth scope 9) [] mixing).run []).bind (·.1.toOption) = some (.value .int32) ∧
      ((Lower.returnInfo scope (.atDepth scope 9) [] mixing).run []).bind (·.1.toOption) = some (.value .int64) := by
  decide +kernel

end FlatCode
