import FlatCode.Check.Program
import FlatCode.Proofs.Imports
import FlatCode.Proofs.Order.Results

/-! Checking in two scopes that look up everything alike, from two memories. Where both memories give the same results,
    both checks are passed, with the same outcome, or both find the same fault. -/

namespace FlatCode

section
variable {scope scope' : Scope} (h : Scope.Agree (fun _ => True) scope scope')
include h

namespace Scope.Agree

theorem get_congr : scope.get? = scope'.get? := funext fun path => h.get_eq path trivial

theorem resolve_congr : scope.resolve? = scope'.resolve? := by
  funext name home
  exact h.resolve_eq trivial home

theorem declared_congr : BindingType.declared? scope = BindingType.declared? scope' := by
  funext templates transforms
  exact h.declared_eq fun _ _ => trivial

theorem built_congr : scope.built? = scope'.built? := by
  funext e home
  unfold Scope.built?
  rw [h.resolve_congr]

end Scope.Agree

namespace Check

theorem inferBinding_congr : inferBinding scope = inferBinding scope' := by
  funext I site env e
  unfold inferBinding
  rw [h.declared_congr, h.built_congr]

theorem inferBindings_congr : inferBindings scope = inferBindings scope' := by
  funext I site env l
  induction l generalizing env with
  | nil => rfl
  | cons e l ih =>
    unfold inferBindings
    simp only [inferBinding_congr h, ih]

theorem inferParameters_congr : inferParameters scope = inferParameters scope' := by
  funext I site templates env l
  induction l generalizing env with
  | nil => rfl
  | cons e l ih =>
    unfold inferParameters
    simp only [inferBinding_congr h, h.declared_congr, ih]

theorem callee?_congr : callee? scope = callee? scope' := by
  funext I site env c
  unfold callee?
  rw [h.get_congr, h.resolve_congr]

theorem returnInfo_congr : returnInfo scope = returnInfo scope' := by
  funext I busy d
  unfold returnInfo inferResult
  rw [inferParameters_congr h]

theorem inferBody_congr : inferBody scope = inferBody scope' := by
  funext I site env body
  cases body with
  | none => rfl
  | some body =>
    unfold inferBody inferBlock
    rw [inferBindings_congr h]

theorem inferOperand_congr : inferOperand scope = inferOperand scope' := by
  funext I site env e
  unfold inferOperand inferBuiltin inferCall
  rw [inferBody_congr h, callee?_congr h, returnInfo_congr h]

theorem inferFirstReturn_congr : inferFirstReturn scope = inferFirstReturn scope' := by
  funext I site env l
  induction l generalizing env with
  | nil => rfl
  | cons e l ih =>
    cases e with
    | literal | name => exact ih env
    | call ts c =>
      unfold inferFirstReturn
      simp only [inferBinding_congr h, ih]

theorem atDepth_congr : Inferrer.atDepth scope = Inferrer.atDepth scope' := by
  funext n
  induction n with
  | zero => rfl
  | succ n ih =>
    unfold Inferrer.atDepth
    rw [inferOperand_congr h, inferFirstReturn_congr h, ih]

end Check
end

namespace Check
open Checking

def Context.withScope (scope : Scope) (ctx : Context) : Context := { ctx with scope }

variable {cls : BuiltinClass} {c : Call} {callee : Definition} {cond e no target yes : Expr} {body l : List Expr}
  {builtin x : String}

section
variable {S : ReturnCache → ReturnCache → Prop} {X : Expr → Prop} {scope : Scope}

structure Context.Steady (S : ReturnCache → ReturnCache → Prop) (X : Expr → Prop) (scope : Scope) (ctx : Context) :
    Prop where
  agree : ctx.scope.Agree (fun _ => True) scope
  callee : ∀ {env c}, (∀ a ∈ c.args, X a) →
    Tracks S (ctx.callee? env c) ((ctx.withScope scope).callee? env c)
      fun d? => ∀ d, d? = some d → d ∈ ctx.scope.definitions
  returns : ∀ {d}, d ∈ ctx.scope.definitions →
    Recall.Tracks S False (ctx.returnInfo d).run ((ctx.withScope scope).returnInfo d).run fun _ => True

theorem tracks_inside {α : Type} {ctx : Context} {f g : Context → Checking α} {Q : α → Prop}
    (hctx : ctx.Steady S X scope)
    (h : ∀ ctx : Context, ctx.Steady S X scope → Tracks S (f ctx) (g (ctx.withScope scope)) Q) :
    Tracks S (liftM (ctx.inside e) >>= f) (liftM ((ctx.withScope scope).inside e) >>= g) Q := by
  have hsteady (effects : EffectSet) : { ctx with effects }.Steady S X scope := ⟨hctx.agree, hctx.callee, hctx.returns⟩
  unfold Context.inside
  show Tracks S (liftM (ctx.effects.inside ctx.home e >>= fun _ => _) >>= f)
    (liftM (ctx.effects.inside ctx.home e >>= fun _ => _) >>= g) Q
  cases ctx.effects.inside ctx.home e with
  | error e => exact fun _ _ _ => .inl ⟨e, rfl, rfl⟩
  | ok effects => exact h _ (hsteady effects)

structure Checker.Steady (S : ReturnCache → ReturnCache → Prop) (X : Expr → Prop) (scope : Scope) (K : Checker) :
    Prop where
  expr : ∀ {ctx : Context} {env : Env} {e : Expr}, ctx.Steady S X scope → X e →
    Tracks S (K.expr ctx env e) (K.expr (ctx.withScope scope) env e) fun _ => True
  statement : ∀ {ctx : Context} {env : Env} {e : Expr}, ctx.Steady S X scope → X e →
    Tracks S (K.statement ctx env e) (K.statement (ctx.withScope scope) env e) fun _ => True

section
variable {K : Checker} {ctx : Context} {env : Env} (hK : K.Steady S X scope) (hctx : ctx.Steady S X scope)
include hK hctx

theorem Checker.Steady.statements (hl : ∀ e ∈ l, X e) :
    Tracks S (K.statements ctx env l) (K.statements (ctx.withScope scope) env l) fun _ => True := by
  induction l generalizing env with
  | nil => exact .pure trivial
  | cons e l ih =>
    obtain ⟨he, hl⟩ := List.forall_mem_cons.mp hl
    exact (hK.statement hctx he).bind fun _ _ => ih hl

theorem Checker.Steady.block (hl : ∀ e ∈ l, X e) :
    Tracks S (K.block ctx env l) (K.block (ctx.withScope scope) env l) fun _ => True :=
  (hK.statements hctx hl).bind fun _ _ => .pure trivial

theorem Checker.Steady.all (hl : ∀ e ∈ l, X e) :
    Tracks S (l.mapM (K.expr ctx env)) (l.mapM (K.expr (ctx.withScope scope) env)) fun _ => True :=
  .mapM fun e he => hK.expr hctx (hl e he)

omit hK in
theorem tracks_checkArgument {param arg : Expr} {actual : Operand} :
    Tracks S (checkArgument ctx env callee param arg actual)
      (checkArgument (ctx.withScope scope) env callee param arg actual) fun _ => True := by
  unfold checkArgument
  show Tracks S _ (liftM (BindingType.declared? scope _ _) >>= _) _
  rw [← hctx.agree.declared_congr]
  refine .liftBind fun type? _ => ?_
  cases type? with
  | none => exact .pure trivial
  | some type => exact .liftBind fun _ _ => .ite (fun _ => .throw) fun _ => .pure trivial

omit hK in
theorem tracks_checkArguments {args : List (Expr × Operand)} {l : List (Expr × Filling)} :
    Tracks S (checkArguments ctx env callee args l) (checkArguments (ctx.withScope scope) env callee args l)
      fun _ => True := by
  induction l with
  | nil => exact .pure trivial
  | cons x l ih =>
    obtain ⟨param, filling⟩ := x
    unfold checkArguments
    cases filling with
    | default => exact ih
    | argument i =>
      dsimp only
      split
      · exact (tracks_checkArgument hctx).bind fun _ _ => ih
      · exact ih

theorem tracks_checkCall {valueNeeded : Bool} (hargs : ∀ a ∈ c.args, X a) :
    Tracks S (checkCall K ctx env c valueNeeded) (checkCall K (ctx.withScope scope) env c valueNeeded) fun _ => True := by
  refine (hctx.callee hargs).bind fun d? hd? => ?_
  cases d? with
  | none => exact .throw
  | some d =>
    refine .check fun _ => .liftBind fun params _ => .liftBind fun fillings _ => ?_
    refine (hK.all hctx hargs).bind fun operands _ => (tracks_checkArguments hctx).bind fun _ _ => ?_
    refine .ite (fun _ => .pure trivial) fun _ => (Tracks.ofInfer (hctx.returns (hd? d rfl))).bind fun info _ => ?_
    exact .check fun _ => .pure trivial

omit hK in
theorem tracks_isVoidCall (hargs : ∀ a ∈ c.args, X a) :
    Tracks S (isVoidCall ctx env c) (isVoidCall (ctx.withScope scope) env c) fun _ => True := by
  refine (hctx.callee hargs).bind fun d? hd? => ?_
  cases d? with
  | none => exact .pure trivial
  | some d =>
    refine .ite (fun _ => .pure trivial) fun _ => (Tracks.ofRecall (hctx.returns (hd? d rfl))).bind fun r _ => ?_
    cases r <;> exact .pure trivial

variable (hX : ∀ {e}, X e → e.Parts X)
include hX

omit hK in
theorem tracks_leavesValue (he : X e) :
    Tracks S (leavesValue ctx env e) (leavesValue (ctx.withScope scope) env e) fun _ => True := by
  cases e with
  | literal | name => exact .pure trivial
  | call ts c =>
    unfold leavesValue
    dsimp only
    split
    · exact .pure trivial
    · exact (tracks_isVoidCall hctx (hX he).1).bind fun _ _ => .pure trivial

theorem tracks_checkBlockValue (hbody : ∀ e ∈ body, X e) :
    Tracks S (checkBlockValue K ctx env body) (checkBlockValue K (ctx.withScope scope) env body) fun _ => True := by
  unfold checkBlockValue
  split
  case h_1 => exact .throw
  case h_2 last hlast =>
    have hX' := hbody last (List.mem_of_getLast? hlast)
    refine (hK.statements hctx fun e he => hbody e ((List.dropLast_sublist _).subset he)).bind fun inner _ => ?_
    refine .check fun _ => .ite (fun _ => (hK.statement hctx hX').bind fun _ _ => .pure trivial) fun _ => ?_
    exact (tracks_leavesValue hctx hX hX').bind fun _ _ => .check fun _ => hK.expr hctx hX'

omit hX in
theorem tracks_checkCondition {construct : ConditionOf} (hcond : X cond) :
    Tracks S (checkCondition K ctx env construct cond) (checkCondition K (ctx.withScope scope) env construct cond)
      fun _ => True :=
  (hK.expr hctx hcond).bind fun _ _ => .ite (fun _ => .throw) fun _ => .pure trivial

omit hK hctx in
theorem mem_branchBody {branch : Expr} (hbranch : X branch) (h : Returns.branchBody branch = .ok body) :
    ∀ e ∈ body, X e :=
  (hX hbranch).body (Returns.branchBody_inv h).2

theorem tracks_checkIfValue (hcond : X cond) (hyes : X yes) (hno : X no) :
    Tracks S (checkIfValue K ctx env cond yes no) (checkIfValue K (ctx.withScope scope) env cond yes no) fun _ => True := by
  refine (tracks_checkCondition hK hctx hcond).bind fun _ _ => .liftBind fun y hy => .liftBind fun n hn => ?_
  refine (tracks_checkBlockValue hK hctx hX (mem_branchBody hX hyes hy)).bind fun a _ => ?_
  exact (tracks_checkBlockValue hK hctx hX (mem_branchBody hX hno hn)).bind fun b _ => .lift

omit hX in
theorem tracks_checkDereference (htarget : X target) :
    Tracks S (checkDereference K ctx env target) (checkDereference K (ctx.withScope scope) env target) fun _ => True := by
  unfold checkDereference
  split
  · exact .pure trivial
  · refine (hK.expr hctx htarget).bind fun operand _ => ?_
    cases operand with
    | pointer k => exact .pure trivial
    | value k => exact .throw

omit hK hctx hX in
theorem tracks_binding? {fault : Error} : Tracks S (binding? env x fault) (binding? env x fault) fun _ => True := by
  unfold binding?
  split
  · exact .pure trivial
  · exact .throw

omit hK hctx hX in
theorem tracks_mutableBinding : Tracks S (mutableBinding env builtin x) (mutableBinding env builtin x) fun _ => True :=
  tracks_binding?.bind fun _ _ => .check fun _ => .pure trivial

omit hX in
theorem tracks_checkAssign {value : Expr} (htarget : X target) (hvalue : X value) :
    Tracks S (checkAssign K ctx env target value) (checkAssign K (ctx.withScope scope) env target value) fun _ => True := by
  cases target with
  | literal ts l => exact .throw
  | name ts x =>
    refine tracks_mutableBinding.bind fun _ _ => Tracks.bind (Q := fun _ => True) (.pure trivial) fun _ _ => ?_
    exact (hK.expr hctx hvalue).bind fun _ _ => .check fun _ => .pure trivial
  | call ts c =>
    unfold checkAssign
    dsimp only
    split
    · exact (hK.expr hctx htarget).bind fun _ _ => (hK.expr hctx hvalue).bind fun _ _ => .check fun _ => .pure trivial
    · exact .throw

omit hX in
theorem tracks_stepTarget (htarget : X target) :
    Tracks S (stepTarget K ctx env builtin target) (stepTarget K (ctx.withScope scope) env builtin target)
      fun _ => True := by
  cases target with
  | literal ts l => exact .throw
  | name ts x => exact tracks_mutableBinding.bind fun _ _ => .check fun _ => .pure trivial
  | call ts c => exact .ite (fun _ => (hK.expr hctx htarget).bind fun _ _ => .pure trivial) fun _ => .throw

omit hX in
theorem tracks_checkStep (htarget : X target) :
    Tracks S (checkStep K ctx env builtin target) (checkStep K (ctx.withScope scope) env builtin target) fun _ => True :=
  (tracks_stepTarget hK hctx htarget).bind fun _ _ => .check fun _ => .pure trivial

omit hX in
theorem tracks_checkCount (htarget : X target) :
    Tracks S (checkCount K ctx env builtin target) (checkCount K (ctx.withScope scope) env builtin target) fun _ => True :=
  (hK.expr hctx htarget).bind fun _ _ => .liftBind fun _ _ => .ite (fun _ => .pure trivial) fun _ => .throw

omit hX in
theorem tracks_checkIndex {position : Expr} (htarget : X target) (hposition : X position) :
    Tracks S (checkIndex K ctx env builtin target position) (checkIndex K (ctx.withScope scope) env builtin target position)
      fun _ => True := by
  refine (hK.expr hctx htarget).bind fun operand _ => .liftBind fun collection _ => ?_
  refine (hK.expr hctx hposition).bind fun position _ => ?_
  cases collection with
  | some type =>
    refine .ite (fun _ => .check fun _ => .pure trivial) fun _ => ?_
    exact .ite (fun _ => .pure trivial) fun _ => .throw
  | none => exact .ite (fun _ => .throw) fun _ => .ite (fun _ => .pure trivial) fun _ => .throw

omit hX in
theorem tracks_checkElements {type : BindingType} {i : Nat} (hl : ∀ e ∈ l, X e) :
    Tracks S (checkElements K ctx env builtin type i l) (checkElements K (ctx.withScope scope) env builtin type i l)
      fun _ => True := by
  induction l generalizing i with
  | nil => exact .pure trivial
  | cons e l ih =>
    obtain ⟨he, hl⟩ := List.forall_mem_cons.mp hl
    exact (hK.expr hctx he).bind fun _ _ => .check fun _ => ih hl

omit hX in
theorem tracks_checkCollection {form : CollectionForm} (hargs : ∀ a ∈ c.args, X a) :
    Tracks S (checkCollection K ctx env form c) (checkCollection K (ctx.withScope scope) env form c) fun _ => True :=
  .liftBind fun _ _ => .check fun _ => (tracks_checkElements hK hctx hargs).bind fun _ _ => .pure trivial

omit hX in
theorem tracks_checkConvert (he : X e) :
    Tracks S (checkConvert K ctx env c e) (checkConvert K (ctx.withScope scope) env c e) fun _ => True :=
  .liftBind fun _ _ => (hK.expr hctx he).bind fun _ _ => .check fun _ => .pure trivial

theorem tracks_checkBuiltin (hargs : ∀ a ∈ c.args, X a) (hbody : ∀ l, c.body = some l → ∀ e ∈ l, X e) :
    Tracks S (checkBuiltin K ctx env c cls) (checkBuiltin K (ctx.withScope scope) env c cls) fun _ => True := by
  have hexpr {e : Expr} (he : e ∈ c.args) {env : Env} : Tracks S (K.expr ctx env e) (K.expr (ctx.withScope scope) env e)
      fun _ => True := hK.expr hctx (hargs e he)
  have hall : Tracks S (c.args.mapM (K.expr ctx env)) (c.args.mapM (K.expr (ctx.withScope scope) env)) fun _ => True :=
    hK.all hctx hargs
  unfold checkBuiltin
  split
  case h_1 op l r h =>
    refine (hexpr (by simp [h])).bind fun _ _ => (hexpr (by simp [h])).bind fun _ _ => ?_
    exact .ite (fun _ => .pure trivial) fun _ => .liftBind fun _ _ => .pure trivial
  case h_2 e h => exact (hexpr (by simp [h])).bind fun _ _ => .lift
  case h_3 op l r h =>
    refine (hexpr (by simp [h])).bind fun _ _ => (hexpr (by simp [h])).bind fun _ _ => ?_
    exact .liftBind fun _ _ => .pure trivial
  case h_4 | h_5 | h_6 => exact hall.bind fun _ _ => .ite (fun _ => .pure trivial) fun _ => .throw
  case h_7 => exact hall.bind fun _ _ => .lift
  case h_8 e h => exact tracks_checkConvert hK hctx (hargs e (by simp [h]))
  case h_9 e h =>
    cases e with
    | name ts x => exact tracks_binding?.bind fun _ _ => .pure trivial
    | literal | call => exact .throw
  case h_10 e h => exact tracks_checkDereference hK hctx (hargs e (by simp [h]))
  case h_11 target value h =>
    exact tracks_checkAssign hK hctx (hargs target (by simp [h])) (hargs value (by simp [h]))
  case h_12 op target h => exact tracks_checkStep hK hctx (hargs target (by simp [h]))
  case h_13 cond yes no h =>
    exact tracks_checkIfValue hK hctx hX (hargs cond (by simp [h])) (hargs yes (by simp [h])) (hargs no (by simp [h]))
  case h_14 =>
    refine tracks_checkBlockValue hK hctx hX ?_
    cases hb : c.body with
    | none => exact fun _ he => absurd he List.not_mem_nil
    | some l => exact hbody l hb
  case h_15 target h => exact tracks_checkCount hK hctx (hargs target (by simp [h]))
  case h_16 checked target position h =>
    exact tracks_checkIndex hK hctx (hargs target (by simp [h])) (hargs position (by simp [h]))
  case h_17 form => exact tracks_checkCollection hK hctx hargs
  case h_18 => exact hall.bind fun _ _ => .pure trivial
  all_goals exact .throw

theorem tracks_checkExpr (he : X e) :
    Tracks S (checkExpr K ctx env e) (checkExpr K (ctx.withScope scope) env e) fun _ => True := by
  refine tracks_inside hctx fun ctx hctx => ?_
  cases e with
  | literal ts l => exact .pure trivial
  | name ts x => exact tracks_binding?.bind fun _ _ => .pure trivial
  | call ts c =>
    obtain ⟨hargs, hbody⟩ := hX he
    refine .ite (fun _ => .throw) fun _ => ?_
    split
    · exact .liftBind fun _ _ => tracks_checkBuiltin hK hctx hX hargs hbody
    · exact tracks_checkCall hK hctx hargs

omit hX in
theorem tracks_checkInitial {name : String} {init : Option Expr} (hinit : ∀ i, init = some i → X i) :
    Tracks S (checkInitial K ctx env name e init) (checkInitial K (ctx.withScope scope) env name e init) fun _ => True := by
  unfold checkInitial
  show Tracks S _ (liftM (BindingType.declared? scope _ _) >>= fun declared => _) _
  rw [← hctx.agree.declared_congr]
  refine .liftBind fun declared _ => ?_
  cases init with
  | none =>
    cases declared with
    | none => exact .throw
    | some type => exact .pure trivial
  | some i =>
    refine (hK.expr hctx (hinit i rfl)).bind fun operand _ => .liftBind fun collection _ => ?_
    cases declared with
    | some type => exact .check fun _ => .pure trivial
    | none =>
      cases collection with
      | some type => exact .pure trivial
      | none =>
        have hbuilt : scope.built? i ctx.home = ctx.scope.built? i ctx.home := by rw [hctx.agree.built_congr]
        show Tracks S _ (pure (Binding.mk (.ofOperand operand (scope.built? i ctx.home)) (isMutable e.transforms))) _
        rw [hbuilt]
        exact .pure trivial

theorem tracks_checkBinding (he : X e) :
    Tracks S (checkBinding K ctx env e) (checkBinding K (ctx.withScope scope) env e) fun _ => True := by
  cases e with
  | literal | name => exact .pure trivial
  | call ts c =>
    unfold checkBinding
    refine .check fun _ => (tracks_checkInitial hK hctx fun i hi => ?_).bind fun _ _ => .pure trivial
    exact (hX he).1 i (List.mem_of_head? hi)

omit hX in
theorem tracks_checkReturn {value : Option Expr} (hvalue : ∀ e, value = some e → X e) :
    Tracks S (checkReturn K ctx env value) (checkReturn K (ctx.withScope scope) env value) fun _ => True := by
  cases value with
  | none => exact .ite (fun _ => .pure trivial) fun _ => .throw
  | some e =>
    unfold checkReturn
    refine .check fun _ => (hK.expr hctx (hvalue e rfl)).bind fun _ _ => ?_
    exact .ite (fun _ => .throw) fun _ => .pure trivial

theorem tracks_checkIf (hcond : X cond) (hyes : X yes) (hno : X no) :
    Tracks S (checkIf K ctx env cond yes no) (checkIf K (ctx.withScope scope) env cond yes no) fun _ => True := by
  refine (tracks_checkCondition hK hctx hcond).bind fun _ _ => .liftBind fun y hy => .liftBind fun n hn => ?_
  exact (hK.block hctx (mem_branchBody hX hyes hy)).bind fun _ _ => hK.block hctx (mem_branchBody hX hno hn)

omit hX in
theorem tracks_checkCounted {bools : Bool} {fault : TypeError} {count : Expr} (hcount : X count)
    (hbody : ∀ e ∈ body, X e) :
    Tracks S (checkCounted K ctx env bools fault count body)
      (checkCounted K (ctx.withScope scope) env bools fault count body) fun _ => True :=
  (hK.expr hctx hcount).bind fun _ _ => .check fun _ => hK.block hctx hbody

omit hX in
theorem tracks_checkWhile (hcond : X cond) (hbody : ∀ e ∈ body, X e) :
    Tracks S (checkWhile K ctx env cond body) (checkWhile K (ctx.withScope scope) env cond body) fun _ => True :=
  (tracks_checkCondition hK hctx hcond).bind fun _ _ => hK.block hctx hbody

theorem tracks_checkForCondition (hcond : X cond) :
    Tracks S (checkForCondition K ctx env cond) (checkForCondition K (ctx.withScope scope) env cond) fun _ => True := by
  refine .ite (fun _ => ?_) fun _ => (tracks_checkCondition hK hctx hcond).bind fun _ _ => .pure trivial
  exact (tracks_checkBinding hK hctx hX hcond).bind fun _ _ => .check fun _ => .pure trivial

theorem tracks_checkFor {init step : Expr} (hinit : X init) (hcond : X cond) (hstep : X step)
    (hbody : ∀ e ∈ body, X e) :
    Tracks S (checkFor K ctx env init cond step body) (checkFor K (ctx.withScope scope) env init cond step body)
      fun _ => True := by
  refine (hK.statement hctx hinit).bind fun _ _ => (tracks_checkForCondition hK hctx hX hcond).bind fun _ _ => ?_
  refine (hK.block hctx hbody).bind fun _ _ => hK.block hctx fun e he => ?_
  rwa [List.mem_singleton.mp he]

omit hX in
theorem tracks_checkPrint (he : X e) :
    Tracks S (checkPrint K ctx env builtin e) (checkPrint K (ctx.withScope scope) env builtin e) fun _ => True :=
  (hK.expr hctx he).bind fun _ _ => .ite (fun _ => .throw) fun _ => .pure trivial

theorem tracks_checkBuiltinStatement {ts : List Transform} (he : X (.call ts c)) :
    Tracks S (checkBuiltinStatement K ctx env (.call ts c) c cls)
      (checkBuiltinStatement K (ctx.withScope scope) env (.call ts c) c cls) fun _ => True := by
  have hargs := (hX he).1
  have hbody : ∀ e ∈ c.body.getD [], X e := by
    cases hb : c.body with
    | none => exact fun _ he => absurd he List.not_mem_nil
    | some l => exact (hX he).2 l hb
  unfold checkBuiltinStatement
  dsimp only
  split
  case h_1 => exact tracks_checkReturn hK hctx fun e he => hargs e (List.mem_of_head? he)
  case h_2 cond yes no h =>
    exact tracks_checkIf hK hctx hX (hargs cond (by simp [h])) (hargs yes (by simp [h])) (hargs no (by simp [h]))
  case h_3 count h => exact tracks_checkCounted hK hctx (hargs count (by simp [h])) hbody
  case h_4 count h => exact tracks_checkCounted hK hctx (hargs count (by simp [h])) hbody
  case h_5 cond h => exact tracks_checkWhile hK hctx (hargs cond (by simp [h])) hbody
  case h_6 init cond step h =>
    exact tracks_checkFor hK hctx hX (hargs init (by simp [h])) (hargs cond (by simp [h])) (hargs step (by simp [h])) hbody
  case h_7 => exact hK.block hctx hbody
  case h_8 e h => exact tracks_checkPrint hK hctx (hargs e (by simp [h]))
  case h_9 | h_10 => exact (hK.all hctx hargs).bind fun _ _ => .pure trivial
  case h_11 => exact (tracks_checkExpr hK hctx hX he).bind fun _ _ => .pure trivial

theorem tracks_checkStatement (he : X e) :
    Tracks S (checkStatement K ctx env e) (checkStatement K (ctx.withScope scope) env e) fun _ => True := by
  refine tracks_inside hctx fun ctx hctx => ?_
  cases e with
  | literal | name => exact (tracks_checkExpr hK hctx hX he).bind fun _ _ => .pure trivial
  | call ts c =>
    refine .ite (fun _ => tracks_checkBinding hK hctx hX he) fun _ => ?_
    split
    · exact .liftBind fun _ _ => (tracks_checkBuiltinStatement hK hctx hX he).bind fun _ _ => .pure trivial
    · exact (tracks_checkCall hK hctx (hX he).1).bind fun _ _ => .pure trivial

end

theorem Checker.steady_atDepth (hX : ∀ {e}, X e → e.Parts X) (n : Nat) : (Checker.atDepth n).Steady S X scope := by
  induction n with
  | zero => exact ⟨fun _ _ => .throw, fun _ _ => .throw⟩
  | succ n ih => exact ⟨fun hctx he => tracks_checkExpr ih hctx hX he, fun hctx he => tracks_checkStatement ih hctx hX he⟩

end
end Check
end FlatCode
