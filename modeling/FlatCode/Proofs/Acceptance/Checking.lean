import FlatCode.Check.Program
import FlatCode.Proofs.Acceptance.Basic
import FlatCode.Proofs.Order.Inference

/-! What is checked is accepted: a check that is passed has seen all that acceptance asks for, and the results that it
    remembers are those of the definitions. -/

namespace FlatCode

/-! ### Regular parts -/

variable {names : List (Bool × String)}

namespace Expr

theorem isRegular_of_mem {l : List Expr} (h : listRegular names l = true) {e : Expr} (he : e ∈ l) :
    e.isRegular names = true := by
  induction l with
  | nil => exact nomatch he
  | cons x l ih =>
    rw [listRegular, Bool.and_eq_true] at h
    rcases List.mem_cons.mp he with rfl | he
    · exact h.1
    · exact ih h.2 he

theorem isRegular_call {ts : List Transform} {c : Call} (h : (Expr.call ts c).isRegular names = true) :
    c.isRegular names = true ∧ (∀ e ∈ c.args, e.isRegular names = true) ∧ ∀ e ∈ c.body.getD [], e.isRegular names = true := by
  obtain ⟨f, args, labels, body, templateArgs, isBinding, isMethod⟩ := c
  simp only [isRegular, Bool.and_eq_true] at h
  obtain ⟨⟨hc, hargs⟩, hbody⟩ := h
  refine ⟨hc, fun e he => isRegular_of_mem hargs he, fun e he => ?_⟩
  cases body with
  | none => exact nomatch he
  | some l => exact isRegular_of_mem hbody he

theorem isRegular_branch {e : Expr} {body : List Expr} (h : e.isRegular names = true)
    (hbody : Returns.branchBody e = .ok body) : ∀ x ∈ body, x.isRegular names = true := by
  have hbody := (Returns.branchBody_inv hbody).2
  cases e with
  | literal | name => exact nomatch hbody
  | call ts c =>
    obtain hbody : c.body = some body := hbody
    simpa only [hbody, Option.getD_some] using (isRegular_call h).2.2

theorem isRegular_parameter {e : Expr} (h : e.isRegularParameter names = true) :
    (∃ t ∈ e.transforms, BindingType.qualifiers.contains t.name = false) ∧ e.isRegular names = true ∧
      ∀ i, e.initial? = some i → i.All (·.isNeutral = true) := by
  simp only [isRegularParameter, Bool.and_eq_true, List.any_eq_true, Bool.not_eq_true'] at h
  obtain ⟨⟨htype, hregular⟩, hinitial⟩ := h
  exact ⟨htype, hregular, fun i hi => by simpa [hi, All] using hinitial⟩

end Expr

theorem Definition.isRegular_parts (d : Definition) (h : d.isRegular names = true) :
    d.templateArgs = [] ∧ (∀ e ∈ d.parameters, e.isRegularParameter names = true) ∧
      (d.hasTransform "return" = true ∨ Returns.containsValue d.body = false) ∧ ∀ e ∈ d.body, e.isRegular names = true := by
  simp only [isRegular, Bool.and_eq_true, Bool.or_eq_true, Bool.not_eq_true', List.isEmpty_iff, List.all_eq_true] at h
  obtain ⟨⟨⟨htemplates, hparams⟩, hresult⟩, hbody⟩ := h
  exact ⟨htemplates, hparams, hresult, fun e he => Expr.isRegular_of_mem hbody he⟩

namespace Check
open Checking

variable {cls : BuiltinClass} {c : Call} {ctx ctx' : Context} {callee d : Definition} {cond e target : Expr}
  {l : List Expr} {ts : List Transform} {o : Operand} {builtin x : String}

theorem enters_of_inside (exact : Prop) (h : ctx.inside e = .ok ctx') : Enters exact ctx e ctx' := by
  obtain ⟨effects, heffects, h⟩ := Stateful.except_bind_eq_ok.mp h
  cases h
  exact ⟨effects, rfl, fun _ => heffects⟩

/-- Without a call, what is inferred can be read off. -/
theorem operand_atDepth {scope : Scope} {n : Nat} {site : Site} {env : Env} {c c' : ReturnCache} (he : e.call? = none)
    (h : (Inferrer.atDepth scope n).operand site env e c = some (o, c')) : o = simpleOperand env e := by
  cases n with
  | zero => exact nomatch h
  | succ n =>
    cases e with
    | literal | name =>
      cases h
      rfl
    | call => exact nomatch he

section
variable {exact : Prop} {scope : Scope}

structure Context.Stands (scope : Scope) (ctx : Context) : Prop where
  scope_eq : ctx.scope = scope
  inferrer_eq : ∃ n, ctx.inferrer = .atDepth scope n

theorem Enters.regular (h : Enters exact ctx e ctx') : ctx.Regular = ctx'.Regular := by
  obtain ⟨effects, rfl, -⟩ := h
  rfl

theorem Enters.stands (h : Enters exact ctx e ctx') (hctx : ctx.Stands scope) : ctx'.Stands scope := by
  obtain ⟨effects, rfl, -⟩ := h
  exact ⟨hctx.scope_eq, hctx.inferrer_eq⟩

structure Checker.Good (exact : Prop) (scope : Scope) (K : Checker) : Prop where
  expr : ∀ {ctx : Context} {env : Env} {e : Expr}, ctx.Stands scope → (exact → ctx.Regular e) →
    Meets scope.Sound (K.expr ctx env e) (Accepts exact ctx env e)
  statement : ∀ {ctx : Context} {env : Env} {e : Expr}, ctx.Stands scope → (exact → ctx.Regular e) →
    Meets scope.Sound (K.statement ctx env e) (AcceptsStatement exact ctx env e)

section
variable {K : Checker} (hK : K.Good exact scope) {ctx : Context} (hctx : ctx.Stands scope) {env : Env}
include hK hctx

theorem Checker.Good.statements (hl : exact → ∀ e ∈ l, ctx.Regular e) :
    Meets scope.Sound (K.statements ctx env l) (AcceptsList exact ctx env l) := by
  induction l generalizing env with
  | nil => exact .pure .nil
  | cons e l ih =>
    refine (hK.statement hctx fun he => hl he e List.mem_cons_self).bind fun env' h => ?_
    exact (ih fun he x hx => hl he x (List.mem_cons_of_mem _ hx)).mono fun _ => .cons h

theorem Checker.Good.block (hl : exact → ∀ e ∈ l, ctx.Regular e) :
    Meets scope.Sound (K.block ctx env l)
      fun _ => ∃ env', AcceptsList exact ctx env l env' :=
  (hK.statements hctx hl).bind fun env' h => .pure ⟨env', h⟩

theorem Checker.Good.all (hl : exact → ∀ e ∈ l, ctx.Regular e) :
    Meets scope.Sound (l.mapM (K.expr ctx env)) (AcceptsAll exact ctx env l) := by
  induction l with
  | nil => exact .pure .nil
  | cons e l ih =>
    rw [List.mapM_cons]
    refine (hK.expr hctx fun he => hl he e List.mem_cons_self).bind fun o h => ?_
    exact (ih fun he x hx => hl he x (List.mem_cons_of_mem _ hx)).bind fun os hos => .pure (.cons h hos)

/-! ### Calls of definitions -/

variable (hdistinct : Definition.Distinct scope.definitions)

omit hK in
include hdistinct in
theorem meets_callee (hc : exact → c.isRegular ctx.called = true) :
    Meets scope.Sound (ctx.callee? env c)
      fun d? => ∀ d, d? = some d → d ∈ scope.definitions ∧ Means exact ctx env c d := by
  obtain ⟨n, hn⟩ := hctx.inferrer_eq
  have hkeeps := Inferrer.keeps_atDepth hdistinct n
  obtain rfl := hctx.scope_eq
  refine .ofRecall ?_
  rw [hn]
  unfold Check.callee?
  split
  case isTrue hmethod =>
    split
    · exact .pure (by simp)
    case h_2 receiver rest hargs =>
      have hreceiver : Recall.Meets ctx.scope.Sound
          ((Inferrer.atDepth ctx.scope n).operand ctx.site env receiver)
          fun o => exact → o = simpleOperand env receiver := by
        intro cache o cache' hcache hrun
        refine ⟨(hkeeps.operand _ _ _ cache o cache' hcache hrun).1, fun he => operand_atDepth ?_ hrun⟩
        simpa [CallOf.isRegular, hmethod, hargs] using (Bool.and_eq_true_iff.mp (Bool.and_eq_true_iff.mp (hc he)).1).2
      refine hreceiver.bind fun o ho => .pure fun d hd => ?_
      obtain ⟨owner, howner, hget⟩ := Option.bind_eq_some_iff.mp hd
      have hmem := Scope.mem_of_get? hget
      exact ⟨hmem, .method hmethod hargs hmem fun he => ⟨owner, ho he ▸ howner, hget⟩⟩
  case isFalse hmethod =>
    refine .pure fun d hd => ⟨Scope.mem_of_resolve? hd, .function (by simpa using hmethod) hd⟩

omit hK hctx in
theorem meets_checkArgument {param arg : Expr} {actual : Operand} :
    Meets scope.Sound (checkArgument ctx env callee param arg actual) fun _ =>
      ∀ type, BindingType.declared? ctx.scope callee.templateArgs param.transforms = .ok (some type) →
        ∃ collection, collection? ctx.templates env arg = .ok collection ∧ fits type collection actual = true := by
  refine .liftBind fun declared hdeclared => ?_
  cases declared with
  | none => exact .pure fun type h => nomatch hdeclared.symm.trans h
  | some type' =>
    refine .liftBind fun collection hcollection => .checkLast fun hfits type h => ?_
    cases hdeclared.symm.trans h
    exact ⟨collection, hcollection, by simpa using hfits⟩

omit hK hctx in
theorem meets_checkArguments {args : List (Expr × Operand)} {l : List (Expr × Filling)} :
    Meets scope.Sound (checkArguments ctx env callee args l) fun _ =>
      ∀ param i arg actual type, (param, Filling.argument i) ∈ l → args[i]? = some (arg, actual) →
        BindingType.declared? ctx.scope callee.templateArgs param.transforms = .ok (some type) →
        ∃ collection, collection? ctx.templates env arg = .ok collection ∧ fits type collection actual = true := by
  induction l with
  | nil => exact .pure fun _ _ _ _ _ h => nomatch h
  | cons x l ih =>
    obtain ⟨param, filling⟩ := x
    unfold checkArguments
    cases filling with
    | default =>
      refine ih.mono fun _ h param' i arg actual type hmem => ?_
      exact h param' i arg actual type ((List.mem_cons.mp hmem).resolve_left nofun)
    | argument i =>
      dsimp only
      split
      case h_1 arg actual harg =>
        refine meets_checkArgument.bind fun _ hfirst => ih.mono fun _ h param' j arg' actual' type hmem hj htype => ?_
        rcases List.mem_cons.mp hmem with heq | hmem
        · cases heq
          cases harg.symm.trans hj
          exact hfirst type htype
        · exact h param' j arg' actual' type hmem hj htype
      case h_2 hnone =>
        refine ih.mono fun _ h param' j arg actual type hmem hj htype => ?_
        rcases List.mem_cons.mp hmem with heq | hmem
        · cases heq
          exact nomatch hnone.symm.trans hj
        · exact h param' j arg actual type hmem hj htype

omit hK in
include hdistinct in
theorem meets_contextReturnInfo (hd : d ∈ scope.definitions) :
    Infer.Meets scope.Sound (fun _ => True) (ctx.returnInfo d) d.Gives := by
  obtain ⟨n, hn⟩ := hctx.inferrer_eq
  obtain rfl := hctx.scope_eq
  unfold Context.returnInfo
  rw [hn]
  exact meets_checkReturnInfo hdistinct (Inferrer.keeps_atDepth hdistinct n) hd

include hdistinct in
theorem meets_checkCall {valueNeeded : Bool} (hc : exact → c.isRegular ctx.called = true)
    (hargs : exact → ∀ e ∈ c.args, ctx.Regular e) :
    Meets scope.Sound (checkCall K ctx env c valueNeeded) fun o =>
      ∃ d, AcceptsCall exact ctx env c d ∧
        (o = .value .int32 ∧ d.isStruct = true ∨ d.isStruct = false ∧ ∃ info, d.Gives info ∧ o = .value info.kind) := by
  refine (meets_callee hctx hdistinct hc).bind fun d? hd? => ?_
  cases d? with
  | none => exact .throw
  | some d =>
    obtain ⟨hmem, hmeans⟩ := hd? d rfl
    refine .check fun _ => .liftBind fun params hparams => .liftBind fun fillings hfillings => ?_
    refine (hK.all hctx hargs).bind fun operands hoperands => meets_checkArguments.bind fun _ hfits => ?_
    have hcall : AcceptsCall exact ctx env c d :=
      .mk hmeans hparams hfillings hoperands fun param i arg actual type hin harg hactual =>
        hfits param i arg actual type hin (List.getElem?_zip_eq_some.mpr ⟨harg, hactual⟩)
    split
    case isTrue hstruct => exact .pure ⟨d, hcall, .inl ⟨rfl, hstruct⟩⟩
    case isFalse hstruct =>
      refine (Meets.ofInfer (meets_contextReturnInfo hctx hdistinct hmem)).bind fun info hinfo => .check fun _ => .pure ?_
      exact ⟨d, hcall, .inr ⟨by simpa using hstruct, info, hinfo, rfl⟩⟩

/-! ### Values -/

omit hK in
include hdistinct in
theorem meets_leavesValue (he : exact → ctx.Regular e) :
    Meets scope.Sound (leavesValue ctx env e) fun _ => True := by
  unfold leavesValue
  split
  case h_1 ts c =>
    split
    · exact .pure trivial
    · refine Meets.bind (Q := fun _ => True) ?_ fun _ _ => .pure trivial
      refine (meets_callee hctx hdistinct fun h => (Expr.isRegular_call (he h)).1).bind fun d? hd? => ?_
      cases d? with
      | none => exact .pure trivial
      | some d =>
        dsimp only
        split
        · exact .pure trivial
        · refine (Meets.ofRecall (meets_contextReturnInfo hctx hdistinct (hd? d rfl).1)).bind fun r _ => ?_
          cases r <;> exact .pure trivial
  · exact .pure trivial

include hdistinct in
theorem meets_checkBlockValue {body : List Expr} (hbody : exact → ∀ e ∈ body, ctx.Regular e) :
    Meets scope.Sound (checkBlockValue K ctx env body) (AcceptsBlock exact ctx env body) := by
  unfold checkBlockValue
  split
  · exact .throw
  case h_2 last hlast =>
    have hdrop : exact → ∀ e ∈ body.dropLast, ctx.Regular e := fun he e h => hbody he e (List.dropLast_subset body h)
    have hregular : exact → ctx.Regular last := fun he => hbody he last (List.mem_of_getLast? hlast)
    refine (hK.statements hctx hdrop).bind fun env' hinit => .check fun hbinding => ?_
    split
    case isTrue hreturn =>
      exact (hK.statement hctx hregular).bind fun _ h => .pure (.leave hlast hinit (by simpa using hbinding) hreturn h)
    case isFalse hreturn =>
      refine (meets_leavesValue hctx hdistinct hregular).bind fun _ _ => .check fun _ =>
        (hK.expr hctx hregular).mono fun o h => ?_
      exact .value hlast hinit (by simpa using hbinding) (by simpa using hreturn) h

theorem meets_checkCondition {construct : ConditionOf} (hcond : exact → ctx.Regular cond) :
    Meets scope.Sound (checkCondition K ctx env construct cond) fun _ =>
      ∃ o, Accepts exact ctx env cond o ∧ o.isCondition = true :=
  (hK.expr hctx hcond).bind fun o h => .checkLast fun ho => ⟨o, h, by simpa using ho⟩

theorem meets_checkDereference (htarget : exact → ctx.Regular target) :
    Meets scope.Sound (checkDereference K ctx env target) fun o =>
      ∃ k, o = .value k ∧ AcceptsPointer exact ctx env target k := by
  unfold checkDereference
  split
  case h_1 k hk =>
    unfold referenced? at hk
    split at hk
    · split at hk
      case h_1 b hb =>
        split at hk <;> cases hk
        case isTrue hshape => exact .pure ⟨_, rfl, .reference hb hshape⟩
      · exact nomatch hk
    · exact nomatch hk
  case h_2 hno =>
    refine (hK.expr hctx htarget).bind fun o h => ?_
    cases o with
    | pointer k => exact .pure ⟨k, rfl, .pointer hno h⟩
    | value k => exact .throw

omit hK hctx in
theorem meets_binding? {fault : Error} : Meets scope.Sound (binding? env x fault) fun b => env.lookup x = some b := by
  unfold binding?
  split
  case h_1 hb => exact .pure hb
  · exact .throw

omit hK hctx in
theorem meets_mutableBinding : Meets scope.Sound (mutableBinding env builtin x) fun b => env.lookup x = some b :=
  meets_binding?.bind fun _ hb => .check fun _ => .pure hb

theorem meets_checkAssign {value : Expr} (hargs : c.args = [target, value])
    (htarget : exact → ctx.Regular target) (hvalue : exact → ctx.Regular value) :
    Meets scope.Sound (checkAssign K ctx env target value) (AcceptsBuiltin exact ctx env c .assign) := by
  unfold checkAssign
  split
  case h_1 ts x =>
    refine meets_mutableBinding.bind fun b hb => ?_
    exact .pureBind <| (hK.expr hctx hvalue).bind fun ov hv => .check fun _ => .pure (.assignName hargs hb hv)
  case h_2 ts d =>
    split
    case isTrue hd =>
      refine (hK.expr hctx htarget).bind fun o ho => (hK.expr hctx hvalue).bind fun ov hv => .check fun _ => .pure ?_
      exact .assign hargs (Bool.and_eq_true_iff.mp hd).1 ho hv
    · exact .throwBind
  case h_3 => exact .throwBind

theorem meets_checkStep {op : ArithmeticOp} (hargs : c.args = [target]) (htarget : exact → ctx.Regular target) :
    Meets scope.Sound (checkStep K ctx env builtin target) (AcceptsBuiltin exact ctx env c (.step op)) := by
  unfold checkStep stepTarget
  split
  case h_1 ts x =>
    refine Meets.bind (Q := fun k => ∃ b : Binding, env.lookup x = some b ∧ k = b.type.kind ∧
      (b.type.shape = .value ∨ b.type.shape = .reference)) ?_ fun k hk => .check fun hkind => .pure ?_
    · refine meets_mutableBinding.bind fun b hb => .check fun hshape => .pure ⟨b, hb, rfl, ?_⟩
      cases h : b.type.shape <;> simp [h] at hshape ⊢
    · obtain ⟨b, hb, rfl, hshape⟩ := hk
      exact .stepName hargs hb hshape (by simpa [Decidable.or_iff_not_imp_left] using hkind)
  case h_2 ts d =>
    split
    case isTrue hd =>
      refine Meets.bind (Q := fun k => ∃ o, Accepts exact ctx env (.call ts d) o ∧ k = o.kind) ?_ fun k hk =>
        .check fun hkind => .pure ?_
      · exact (hK.expr hctx htarget).bind fun o ho => .pure ⟨o, ho, rfl⟩
      · obtain ⟨o, ho, rfl⟩ := hk
        exact .step hargs hd ho (by simpa [Decidable.or_iff_not_imp_left] using hkind)
    · exact .throwBind
  case h_3 => exact .throwBind

theorem meets_checkIndex {checked : Bool} {position : Expr} (hargs : c.args = [target, position])
    (htarget : exact → ctx.Regular target) (hposition : exact → ctx.Regular position) :
    Meets scope.Sound (checkIndex K ctx env builtin target position)
      (AcceptsBuiltin exact ctx env c (.index checked)) := by
  refine (hK.expr hctx htarget).bind fun ot ht => .liftBind fun collection hcollection => ?_
  refine (hK.expr hctx hposition).bind fun op hp => ?_
  cases collection with
  | some type =>
    dsimp only
    split
    case isTrue hmap =>
      exact .check fun _ => .pure (.index hargs ht hp hcollection (fun h => absurd hmap (h type rfl)) rfl)
    case isFalse =>
      split
      case isTrue hindex => exact .pure (.index hargs ht hp hcollection (fun _ => hindex) rfl)
      · exact .throw
  | none =>
    dsimp only
    split
    · exact .throw
    · split
      case isTrue hindex => exact .pure (.index hargs ht hp hcollection (fun _ => hindex) rfl)
      · exact .throw

theorem meets_checkElements {type : BindingType} {i : Nat} (hl : exact → ∀ e ∈ l, ctx.Regular e) :
    Meets scope.Sound (checkElements K ctx env builtin type i l) fun _ =>
      ∃ operands, AcceptsAll exact ctx env l operands ∧ ∀ o ∈ operands, o.isPointer = false := by
  induction l generalizing i with
  | nil => exact .pure ⟨[], .nil, nofun⟩
  | cons e l ih =>
    refine (hK.expr hctx fun he => hl he e List.mem_cons_self).bind fun o h => .check fun ho => ?_
    refine (ih fun he x hx => hl he x (List.mem_cons_of_mem _ hx)).mono fun _ ⟨operands, hrest, hall⟩ => ?_
    simp only [Bool.or_eq_true, not_or, Bool.not_eq_true] at ho
    exact ⟨o :: operands, .cons h hrest, List.forall_mem_cons.mpr ⟨ho.1, hall⟩⟩

omit hK hctx in
theorem Accepts.numeric {operands : List Operand} {width : Except Error Width}
    (h : numericValue operands width = .ok o) (hknown : .unknown ∉ operands) :
    ∃ w, width = .ok w ∧ o = .value w.kind := by
  unfold numericValue at h
  rw [if_neg (by simpa using hknown)] at h
  split at h
  case h_1 w =>
    cases h
    exact ⟨w, rfl, rfl⟩
  · exact nomatch h

include hdistinct in
theorem meets_checkBuiltin (hargs : exact → ∀ e ∈ c.args, ctx.Regular e)
    (hbody : exact → ∀ e ∈ c.body.getD [], ctx.Regular e) :
    Meets scope.Sound (checkBuiltin K ctx env c cls) (AcceptsBuiltin exact ctx env c cls) := by
  have hmem {e : Expr} (he : e ∈ c.args) : exact → ctx.Regular e := fun h => hargs h e he
  unfold checkBuiltin
  split
  case h_1 op l r h =>
    refine (hK.expr hctx (hmem (by simp [h]))).bind fun ol hl => (hK.expr hctx (hmem (by simp [h]))).bind fun or hr => ?_
    split
    case isTrue hunknown =>
      refine .pure (.arithmetic h hl hr fun h₁ h₂ => ?_)
      simp [h₁.symm, h₂.symm] at hunknown
    case isFalse => exact .liftBind fun r hr' => .pure (.arithmetic h hl hr fun _ _ => ⟨r, hr', rfl⟩)
  case h_2 e h =>
    refine (hK.expr hctx (hmem (by simp [h]))).bind fun oe he => .lift fun o ho => .negate h he fun hknown => ?_
    exact Accepts.numeric ho (by simpa using hknown.symm)
  case h_3 op l r h =>
    refine (hK.expr hctx (hmem (by simp [h]))).bind fun ol hl => (hK.expr hctx (hmem (by simp [h]))).bind fun or hr => ?_
    refine .liftBind fun o ho => .pure (.comparison h hl hr fun h₁ h₂ => ?_)
    obtain ⟨w, hw, -⟩ := Accepts.numeric ho (by simp [h₁.symm, h₂.symm])
    exact ⟨w, hw⟩
  case h_4 | h_5 | h_6 =>
    refine (hK.all hctx hargs).bind fun os hos => ?_
    split
    case isTrue hall => exact .pure (.boolean (by simp) hos (List.all_eq_true.mp hall))
    · exact .throw
  case h_7 =>
    exact (hK.all hctx hargs).bind fun os hos => .lift fun o ho => .math hos fun hknown => Accepts.numeric ho hknown
  case h_8 e h =>
    refine .liftBind fun k hk => (hK.expr hctx (hmem (by simp [h]))).bind fun oe he => .check fun hoe => .pure ?_
    simp only [Bool.or_eq_true, not_or, Bool.not_eq_true] at hoe
    exact .convert h hk he hoe.1
  case h_9 e h =>
    cases e with
    | name ts x => exact meets_binding?.bind fun b hb => .pure (.location h hb)
    | literal | call => exact .throw
  case h_10 e h =>
    refine (meets_checkDereference hK hctx (hmem (by simp [h]))).mono fun o ho => ?_
    obtain ⟨k, rfl, hk⟩ := ho
    exact .dereference h hk
  case h_11 target value h => exact meets_checkAssign hK hctx h (hmem (by simp [h])) (hmem (by simp [h]))
  case h_12 op target h => exact meets_checkStep hK hctx h (hmem (by simp [h]))
  case h_13 cond yes no h =>
    refine (meets_checkCondition hK hctx (hmem (by simp [h]))).bind fun _ ⟨oc, hc, hcond⟩ => ?_
    refine .liftBind fun ys hys => .liftBind fun ns hns => ?_
    have hyes : exact → ∀ e ∈ ys, ctx.Regular e := fun he => Expr.isRegular_branch (hmem (by simp [h]) he) hys
    have hno : exact → ∀ e ∈ ns, ctx.Regular e := fun he => Expr.isRegular_branch (hmem (by simp [h]) he) hns
    refine (meets_checkBlockValue hK hctx hdistinct hyes).bind fun a ha => ?_
    exact (meets_checkBlockValue hK hctx hdistinct hno).bind fun b hb => .lift fun o ho =>
      .ifElse h hc hcond hys hns ha hb ho
  case h_14 => exact (meets_checkBlockValue hK hctx hdistinct hbody).mono fun _ h => .block h
  case h_15 target h =>
    refine (hK.expr hctx (hmem (by simp [h]))).bind fun o ho => .liftBind fun collection _ => ?_
    split
    · exact .pure (.count h ho)
    · exact .throw
  case h_16 checked target position h =>
    exact meets_checkIndex hK hctx h (hmem (by simp [h])) (hmem (by simp [h]))
  case h_17 form =>
    refine .liftBind fun type htype => .check fun hodd => ?_
    refine (meets_checkElements hK hctx hargs).bind fun _ ⟨os, hos, hall⟩ => .pure ?_
    exact .collection hos htype (by rintro rfl; simpa using hodd) hall
  case h_18 => exact (hK.all hctx hargs).bind fun _ _ => .pure .heap
  all_goals exact .throw

include hdistinct in
theorem meets_checkExpr (he : exact → ctx.Regular e) :
    Meets scope.Sound (checkExpr K ctx env e) (Accepts exact ctx env e) := by
  refine .liftBind fun ctx' hinside => ?_
  have henter := enters_of_inside exact hinside
  have hctx' := henter.stands hctx
  rw [henter.regular] at he
  cases e with
  | literal ts l => exact .pure (.literal henter)
  | name ts x => exact meets_binding?.bind fun b hb => .pure (.name henter hb)
  | call ts c =>
    have hregular := fun h => Expr.isRegular_call (he h)
    dsimp only
    split
    · exact .throw
    case isFalse hbinding =>
      split
      case h_1 b hb =>
        refine .liftBind fun _ hshape => ?_
        refine (meets_checkBuiltin hK hctx' hdistinct (fun h => (hregular h).2.1) fun h => (hregular h).2.2).mono ?_
        exact fun o ho => .builtin henter (by simpa using hbinding) hb hshape (fun h => (hregular h).1) ho
      case h_2 hb =>
        refine (meets_checkCall hK hctx' hdistinct (fun h => (hregular h).1) fun h => (hregular h).2.1).mono ?_
        exact fun o ⟨d, hd, ho⟩ => .call henter (by simpa using hbinding) hb (fun h => (hregular h).1) hd ho

/-! ### Statements -/

theorem meets_checkInitial {name : String} {init : Option Expr}
    (hinit : exact → ∀ i, init = some i → ctx.Regular i) :
    Meets scope.Sound (checkInitial K ctx env name e init) (AcceptsBinding exact ctx env e init) := by
  refine .liftBind fun declared hdeclared => ?_
  cases init with
  | none =>
    cases declared with
    | none => exact .throw
    | some type => exact .pure (.declared hdeclared)
  | some i =>
    refine (hK.expr hctx fun h => hinit h i rfl).bind fun o ho => .liftBind fun collection hcollection => ?_
    cases declared with
    | some type => exact .check fun hfits => .pure (.initialized hdeclared ho hcollection (by simpa using hfits))
    | none =>
      cases collection with
      | some type => exact .pure (.collection hdeclared ho hcollection)
      | none => exact .pure (.operand hdeclared ho hcollection rfl)

theorem meets_checkBinding (he : exact → ctx.Regular (.call ts c)) :
    Meets scope.Sound (checkBinding K ctx env (.call ts c)) fun env' =>
      ∃ b, AcceptsBinding exact ctx env (.call ts c) c.args.head? b ∧ env' = (c.name, b) :: env := by
  unfold checkBinding
  refine .check fun _ => (meets_checkInitial hK hctx fun h i hi => ?_).bind fun b hb => .pure ⟨b, hb, rfl⟩
  exact (Expr.isRegular_call (he h)).2.1 i (List.mem_of_head? hi)

omit hK hctx in
/-- An expression without effects of its own is entered as it is. -/
theorem enters_self (h : exact → e.hasTransform "effects" = false) : Enters exact ctx e ctx := by
  refine ⟨ctx.effects, rfl, fun he => ?_⟩
  have hnone : e.transforms.reverse.find? (·.name == "effects") = none := by
    simpa [Expr.hasTransform] using h he
  simp only [EffectSet.inside, EffectSet.nested, EffectSet.explicit?, hnone]
  rfl

/-- What the condition of a `for` declares is accepted as a statement, since it has no effects of its own. -/
theorem meets_checkForCondition (hcond : exact → ctx.Regular cond)
    (heffects : exact → cond.isBinding = true → cond.hasTransform "effects" = false) :
    Meets scope.Sound (checkForCondition K ctx env cond) fun env' =>
      cond.isBinding = true ∧ AcceptsStatement exact ctx env cond env' ∨
        cond.isBinding = false ∧ env' = env ∧ ∃ o, Accepts exact ctx env cond o ∧ o.isCondition = true := by
  unfold checkForCondition
  split
  case isTrue hbinding =>
    cases cond with
    | literal | name => exact nomatch hbinding
    | call ts c =>
      refine (meets_checkBinding hK hctx hcond).bind fun env' ⟨b, hb, henv⟩ => .check fun _ => .pure (.inl ⟨hbinding, ?_⟩)
      subst henv
      exact .binding (enters_self fun h => heffects h hbinding) hbinding (fun h => (Expr.isRegular_call (hcond h)).1) hb
  case isFalse hbinding =>
    refine (meets_checkCondition hK hctx hcond).bind fun _ h => .pure (.inr ⟨by simpa using hbinding, rfl, h⟩)

theorem meets_checkFor {init step : Expr} (hargs : c.args = [init, cond, step])
    (hc : exact → c.isRegular ctx.called = true) (hclass : c.class? = some .forLoop)
    (hregular : exact → ∀ e ∈ c.args, ctx.Regular e) (hbody : exact → ∀ e ∈ c.body.getD [], ctx.Regular e) :
    Meets scope.Sound (checkFor K ctx env init cond step (c.body.getD [])) fun _ =>
      AcceptsControl exact ctx env e c .forLoop := by
  have hmem {e : Expr} (he : e ∈ c.args) : exact → ctx.Regular e := fun h => hregular h e he
  have hstep : exact → ∀ e ∈ [step], ctx.Regular e := by simpa using hmem (by simp [hargs])
  have heffects : exact → cond.isBinding = true → cond.hasTransform "effects" = false := by
    intro h hbinding
    simpa [hclass, hargs, hbinding] using (Bool.and_eq_true_iff.mp (hc h)).2
  refine (hK.statement hctx (hmem (by simp [hargs]))).bind fun env₁ hinit => ?_
  refine (meets_checkForCondition hK hctx (hmem (by simp [hargs])) heffects).bind fun env₂ hcond => ?_
  refine (hK.block hctx hbody).bind fun _ ⟨env₃, hb⟩ => (hK.block hctx hstep).mono fun _ ⟨env₄, hs⟩ => ?_
  rcases hcond with ⟨hbinding, hstatement⟩ | ⟨hbinding, rfl, o, ho, hcondition⟩
  · exact .forDeclared hargs hinit hstatement hbinding hb hs
  · exact .forLoop hargs hinit ho hbinding hcondition hb hs

theorem meets_checkCounted {bools : Bool} {fault : TypeError} {count : Expr}
    (hcls : cls = .repeatLoop ∧ bools = true ∨ cls = .countedLoop ∧ bools = false) (hargs : c.args = [count])
    (hcount : exact → ctx.Regular count) (hbody : exact → ∀ e ∈ c.body.getD [], ctx.Regular e) :
    Meets scope.Sound (checkCounted K ctx env bools fault count (c.body.getD [])) fun _ =>
      AcceptsControl exact ctx env e c cls := by
  refine (hK.expr hctx hcount).bind fun o ho => .check fun hkind => (hK.block hctx hbody).mono fun _ ⟨env', hb⟩ => ?_
  rw [Bool.not_eq_true, Bool.or_eq_false_iff, Bool.not_eq_false'] at hkind
  refine .counted (hcls.imp And.left And.left) hargs ho ⟨hkind.1, ?_⟩ hb
  rcases hcls with ⟨rfl, rfl⟩ | ⟨rfl, rfl⟩ <;> simpa [or_assoc] using hkind.2

theorem meets_checkReturn (hargs : exact → ∀ e ∈ c.args, ctx.Regular e) :
    Meets scope.Sound (checkReturn K ctx env c.args.head?) fun _ => AcceptsControl exact ctx env e c .ret := by
  unfold checkReturn
  cases hhead : c.args.head? with
  | none =>
    dsimp only
    split
    · exact .pure (.ret hhead)
    · exact .throw
  | some value =>
    refine .check fun hvoid => ?_
    refine (hK.expr hctx fun h => hargs h value (List.mem_of_head? hhead)).bind fun o ho => .checkLast fun _ => ?_
    exact .retValue hhead (by simpa using hvoid) ho

omit hK hctx in
theorem AcceptsBuiltin.control (h : AcceptsBuiltin exact ctx env c cls o) (hcls : cls.isControl = true) :
    (cls = .ifElse ∧ ∃ cond yes no, c.args = [cond, yes, no]) ∨ cls = .block ∨ cls = .heap := by
  cases h with
  | ifElse hargs => exact .inl ⟨rfl, _, _, _, hargs⟩
  | block => exact .inr (.inl rfl)
  | heap => exact .inr (.inr rfl)
  | boolean hboolean =>
    rcases hboolean with rfl | rfl | rfl
    all_goals exact nomatch hcls
  | _ => exact nomatch hcls

omit hK hctx in
theorem Accepts.class? (h : Accepts exact ctx env (.call ts c) o) (hclass : c.class? = some cls) :
    ∃ ctx', Enters exact ctx (.call ts c) ctx' ∧ AcceptsBuiltin exact ctx' env c cls o := by
  cases h with
  | builtin henter hbinding hb _ _ hvalue =>
    simp only [CallOf.class?, hbinding, hb] at hclass
    cases hclass
    exact ⟨_, henter, hvalue⟩
  | call _ hbinding hb => simp [CallOf.class?, hbinding, hb] at hclass

include hdistinct in
theorem meets_checkBuiltinStatement (hclass : c.class? = some cls) (hc : exact → ctx.Regular (.call ts c)) :
    Meets scope.Sound (checkBuiltinStatement K ctx env (.call ts c) c cls) fun _ =>
      AcceptsControl exact ctx env (.call ts c) c cls := by
  have hargs : exact → ∀ e ∈ c.args, ctx.Regular e := fun h => (Expr.isRegular_call (hc h)).2.1
  have hbody : exact → ∀ e ∈ c.body.getD [], ctx.Regular e := fun h => (Expr.isRegular_call (hc h)).2.2
  have hmem {e : Expr} (he : e ∈ c.args) : exact → ctx.Regular e := fun h => hargs h e he
  unfold checkBuiltinStatement
  dsimp only
  split
  case h_1 => exact meets_checkReturn hK hctx hargs
  case h_2 cond yes no h =>
    refine (meets_checkCondition hK hctx (hmem (by simp [h]))).bind fun _ ⟨o, ho, hcond⟩ => ?_
    refine .liftBind fun ys hys => .liftBind fun ns hns => ?_
    have hyes : exact → ∀ e ∈ ys, ctx.Regular e := fun he => Expr.isRegular_branch (hmem (by simp [h]) he) hys
    have hno : exact → ∀ e ∈ ns, ctx.Regular e := fun he => Expr.isRegular_branch (hmem (by simp [h]) he) hns
    refine (hK.block hctx hyes).bind fun _ ⟨env', ha⟩ => (hK.block hctx hno).mono fun _ ⟨env'', hb⟩ => ?_
    exact .ifElse h ho hcond hys hns ha hb
  case h_3 count h => exact meets_checkCounted hK hctx (.inl ⟨rfl, rfl⟩) h (hmem (by simp [h])) hbody
  case h_4 count h => exact meets_checkCounted hK hctx (.inr ⟨rfl, rfl⟩) h (hmem (by simp [h])) hbody
  case h_5 cond h =>
    refine (meets_checkCondition hK hctx (hmem (by simp [h]))).bind fun _ ⟨o, ho, hcond⟩ => ?_
    exact (hK.block hctx hbody).mono fun _ ⟨env', hb⟩ => .whileLoop h ho hcond hb
  case h_6 init cond step h =>
    exact meets_checkFor hK hctx h (fun he => (Expr.isRegular_call (hc he)).1) hclass hargs hbody
  case h_7 => exact (hK.block hctx hbody).mono fun _ ⟨env', hb⟩ => .block hb
  case h_8 e h =>
    refine (hK.expr hctx (hmem (by simp [h]))).bind fun o ho => .checkLast fun hpointer => ?_
    exact .print h ho (by simpa using hpointer)
  case h_9 | h_10 => exact (hK.all hctx hargs).bind fun _ _ => .pure (.heap (by simp))
  case h_11 _ hblock hheap _ hif _ _ _ _ _ =>
    refine (meets_checkExpr hK hctx hdistinct hc).bind fun o ho => .pure (.value (Bool.eq_false_iff.mpr ?_) ho)
    -- A builtin of control that is accepted for its value has been taken care of above.
    intro hcontrol
    obtain ⟨_, -, hvalue⟩ := ho.class? hclass
    rcases hvalue.control hcontrol with ⟨rfl, cond, yes, no, h⟩ | rfl | rfl
    · exact hif cond yes no rfl h
    · exact hblock rfl
    · exact hheap rfl

include hdistinct in
theorem meets_checkStatement (he : exact → ctx.Regular e) :
    Meets scope.Sound (checkStatement K ctx env e) (AcceptsStatement exact ctx env e) := by
  refine .liftBind fun ctx' hinside => ?_
  have henter := enters_of_inside exact hinside
  have hctx' := henter.stands hctx
  rw [henter.regular] at he
  cases e with
  | literal | name =>
    exact (meets_checkExpr hK hctx' hdistinct he).bind fun o ho => .pure (.value henter rfl ho)
  | call ts c =>
    have hregular : exact → c.isRegular ctx'.called = true := fun h => (Expr.isRegular_call (he h)).1
    dsimp only
    split
    case isTrue hbinding =>
      refine (meets_checkBinding hK hctx' he).mono fun env' ⟨b, hb, henv⟩ => ?_
      subst henv
      exact .binding henter hbinding hregular hb
    case isFalse hbinding =>
      have hbinding : c.isBinding = false := by simpa using hbinding
      split
      case h_1 b hb =>
        refine .liftBind fun _ hshape => ?_
        have hclass : c.class? = some b.cls := by simp [CallOf.class?, hbinding, hb]
        exact (meets_checkBuiltinStatement hK hctx' hdistinct hclass he).bind fun _ h =>
          .pure (.builtin henter hbinding hb hshape hregular h)
      case h_2 hb =>
        refine (meets_checkCall hK hctx' hdistinct hregular fun h => (Expr.isRegular_call (he h)).2.1).bind ?_
        exact fun _ ⟨d, hd, _⟩ => .pure (.call henter hbinding hb hregular hd)

end

theorem Checker.good_atDepth (exact : Prop) (hdistinct : Definition.Distinct scope.definitions) (n : Nat) :
    (Checker.atDepth n).Good exact scope := by
  induction n with
  | zero => exact ⟨fun _ _ => .throw, fun _ _ => .throw⟩
  | succ n ih => exact ⟨fun hctx he => meets_checkExpr ih hctx hdistinct he, fun hctx he =>
      meets_checkStatement ih hctx hdistinct he⟩

/-! ### Definitions and programs -/

section
variable {s : Setting} (hdistinct : Definition.Distinct s.scope.definitions) {ctx : Context}
  (hctx : ctx.Stands s.scope) {env : Env}
include hdistinct hctx

theorem meets_declare {path : String} (hl : exact → ∀ e ∈ l, ctx.Regular e) :
    Meets s.scope.Sound (s.declare ctx path env l) (AcceptsParameters exact ctx env l) := by
  induction l generalizing env with
  | nil => exact .pure .nil
  | cons e l ih =>
    unfold Setting.declare
    split
    · exact .throw
    case h_2 name hname =>
      cases e with
      | literal | name => exact nomatch hname
      | call ts c =>
        have hbinding : c.isBinding = true := by
          by_cases h : c.isBinding = true
          · exact h
          · simp [Expr.boundName?, h] at hname
        refine .check fun _ => (meets_checkBinding (Checker.good_atDepth exact hdistinct s.depth) hctx fun h =>
          hl h _ List.mem_cons_self).bind fun env' ⟨b, hb, henv⟩ => ?_
        subst henv
        exact (ih fun h x hx => hl h x (List.mem_cons_of_mem _ hx)).mono fun _ h => .cons hbinding hb h

theorem meets_checkFields : Meets s.scope.Sound (s.checkFields ctx env l) fun _ => True := by
  induction l generalizing env with
  | nil => exact .pure trivial
  | cons e l ih =>
    refine Meets.bind (Q := fun _ => True) ?_ fun _ _ => ih
    cases e with
    | literal | name => exact .pure trivial
    | call ts c =>
      exact (meets_checkBinding (Checker.good_atDepth False hdistinct s.depth) hctx nofun).mono fun _ _ => trivial

end

section
variable {s : Setting} (hdistinct : Definition.Distinct s.scope.definitions)
include hdistinct

theorem meets_checkDefinition (hd : d ∈ s.scope.definitions)
    (hregular : exact → d.isStruct = false → d.isRegular (s.scope.calledAt d.path) = true) :
    Meets s.scope.Sound (s.checkDefinition d) fun _ => AcceptsDefinition exact s d := by
  refine .liftBind fun effects heffects => ?_
  have hinferrer := Inferrer.keeps_atDepth hdistinct s.depth
  refine (Meets.ofInfer (meets_checkReturnInfo hdistinct hinferrer hd)).bind fun returns hreturns => ?_
  split
  case isTrue hstruct =>
    refine .liftBind fun fields hfields => (meets_checkFields hdistinct ⟨rfl, s.depth, rfl⟩).mono fun _ _ => ?_
    have hno (h : d.isStruct = false) : False := Bool.noConfusion (hstruct.symm.trans h)
    exact ⟨⟨effects, heffects⟩, ⟨returns, hreturns⟩, fun _ => ⟨fields, hfields⟩, fun h => (hno h).elim,
      fun h => (hno h).elim⟩
  case isFalse hstruct =>
    have hparts := fun h => d.isRegular_parts (hregular h (by simpa using hstruct))
    refine (meets_declare hdistinct ⟨rfl, s.depth, rfl⟩ fun h e he =>
      (Expr.isRegular_parameter ((hparts h).2.1 e he)).2.1).bind fun env henv => ?_
    refine ((Checker.good_atDepth exact hdistinct s.depth).block ⟨rfl, s.depth, rfl⟩ fun h =>
      (hparts h).2.2.2).bind fun _ hlist => ?_
    have haccepts (hpaths : d.hasValue = true → Returns.blockAlways d.body = true) : AcceptsDefinition exact s d :=
      ⟨⟨effects, heffects⟩, ⟨returns, hreturns⟩, fun h => absurd h hstruct,
        fun _ => ⟨{ scope := s.scope, inferrer := s.inferrer, home := d.path, effects, returns, templates := d.templateArgs },
          env, rfl, rfl, heffects, hreturns, rfl, henv, hlist⟩, fun _ => hpaths⟩
    split
    case isTrue hvalue =>
      refine .lift fun _ hpaths => haccepts fun _ => ?_
      unfold Setting.checkPaths at hpaths
      split at hpaths
      case isTrue halways => exact halways
      case isFalse => split at hpaths <;> exact nomatch hpaths
    case isFalse hvoid =>
      refine .pure (haccepts fun hvalue => ?_)
      simp [hreturns.isVoid, hvalue] at hvoid

theorem meets_checkExecution {x : Execution} : Meets s.scope.Sound (s.checkExecution x) fun _ =>
    (s.scope.resolve? x.path "/").isSome = true ∧ ∃ effects, EffectSet.active x.transforms s.defaults x.path = .ok effects := by
  unfold Setting.checkExecution
  split
  · exact .throw
  case h_2 target htarget =>
    refine .liftBind fun effects heffects => .liftBind fun params _ => .liftBind fun fillings _ => ?_
    have hK := Checker.good_atDepth False hdistinct s.depth
    refine (hK.all ⟨rfl, s.depth, rfl⟩ nofun).bind fun _ _ => (hK.block ⟨rfl, s.depth, rfl⟩ nofun).mono fun _ _ => ?_
    exact ⟨by rw [htarget]; rfl, effects, heffects⟩

end

structure AcceptsProgram (exact : Prop) (p : Program) (entry : String) (defaults entryDefaults : List String)
    (s : Setting) (d : Definition) : Prop extends s.Of p entry defaults entryDefaults d where
  definitions : ∀ d ∈ p.definitions, AcceptsDefinition (exact ∧ s.scope.Reaches s.entry d.path) s d
  executions : ∀ x ∈ p.executions, (s.scope.resolve? x.path "/").isSome = true ∧
    ∃ effects, EffectSet.active x.transforms s.defaults x.path = .ok effects

theorem accepts_of_check {p : Program} {entry : String} {defaults entryDefaults : List String}
    (h : p.check entry defaults entryDefaults = .ok ()) (hregular : exact → p.Regular entry) :
    ∃ s d, AcceptsProgram exact p entry defaults entryDefaults s d := by
  obtain ⟨s, d, hs, c, hrun⟩ := check_eq_ok_iff.mp h
  have hdistinct : Definition.Distinct s.scope.definitions := Scope.distinct_of_build hs.scope
  have hdefinitions : s.scope.definitions = p.definitions := Scope.definitions_of_build hs.scope
  have hall (d : Definition) (hd : d ∈ p.definitions) (he : exact ∧ s.scope.Reaches s.entry d.path)
      (hstruct : d.isStruct = false) : d.isRegular (s.scope.calledAt d.path) = true :=
    (hregular he.1).2 s.scope hs.scope d hd hstruct (hs.entry_eq ▸ he.2)
  have hmeets : Meets s.scope.Sound (s.checkAll p)
      fun _ => (∀ d ∈ p.definitions, AcceptsDefinition (exact ∧ s.scope.Reaches s.entry d.path) s d) ∧ ∀ x ∈ p.executions,
        (s.scope.resolve? x.path "/").isSome = true ∧
          ∃ effects, EffectSet.active x.transforms s.defaults x.path = .ok effects := by
    refine (Meets.forM fun d hd => meets_checkDefinition hdistinct (hdefinitions ▸ hd) (hall d hd)).bind ?_
    exact fun _ hds => (Meets.forM fun x _ => meets_checkExecution hdistinct).mono fun _ hxs => ⟨hds, hxs⟩
  obtain ⟨-, hds, hxs⟩ := hmeets [] () c .nil hrun
  exact ⟨s, d, hs, hds, hxs⟩

end
end Check
end FlatCode
