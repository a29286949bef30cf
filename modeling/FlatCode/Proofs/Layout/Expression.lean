import FlatCode.Lower.Expression
import FlatCode.Proofs.Layout.Expansion

/-! Every expression leaves one word. -/

namespace FlatCode.Lower
open Stateful

variable {op : ArithmeticOp} {c : Call} {e r target value yes : Expr} {l : Literal} {locals : Locals}
  {builtin : String}

section
variable {u : Realm} {below : Option Nat} {P : Prop} {d : Nat}

theorem quiet_literalPush {i : Instruction} (h : literalPush l = .ok i) : i.op.Quiet 0 1 := by
  unfold literalPush at h
  split at h
  case h_1 =>
    split at h
    · cases h
      exact ⟨rfl, rfl, rfl⟩
    · cases h
  case h_7 => cases h
  all_goals
    cases h
    exact ⟨rfl, rfl, rfl⟩

theorem emits_literalValue : Moves u below P d (d + 1) (emitLiteralValue l) :=
  .liftBind fun _ hi => Emits.andThen (.quiet (quiet_literalPush hi) nofun d) <| .pure fun _ => trivial

theorem emits_local {l : Local} : Moves u below P d (d + 1) (emitLocal l) :=
  emits_load.andThen <| .ite (fun _ => emits_loadIndirect.andThen <| .pure fun _ => trivial) fun _ =>
    .pure fun _ => trivial

theorem emits_dup : Moves u below P (d + 1) (d + 2) (emit .dup) := routine_dup.emits

theorem emits_storeIndirect : Moves u below P (d + 2) (d + 1) (emit .storeIndirect) :=
  routine_storeIndirect.emits

theorem emits_location : Moves u below P d (d + 1) (emitLocation locals target) := by
  unfold emitLocation
  split
  · refine .liftBind fun _ _ => .check <| .ite (fun _ => ?_) fun _ => ?_
    · exact emits_load.andThen <| .pure fun _ => trivial
    · exact Emits.andThen (.quiet (a := 0) (b := 1) (by decide) nofun d) <| .pure fun _ => trivial
  · exact .throw

theorem emits_stepLocal {l : Local} : Moves u below P d (d + 1) (stepLocal builtin op l) := by
  refine .liftBind fun _ _ => ?_
  split
  · exact emits_load.andThen <| routine_stepTop.emits.andThen <| emits_dup.andThen <| emits_store.andThen <|
      .pure fun _ => trivial
  · exact routine_stepIndirect.emits.andThen <| .pure fun _ => trivial
  · exact .throw

end

section
variable {u : Realm} {E : Emitter} {ctx : Context} {locals : Locals} (hE : E.Good u) (hctx : u.Admits ctx)
include hE hctx

theorem emits_binary {l : Expr} : Moves u ctx.below (u.Texts locals) 0 1 (emitArithmetic E ctx locals op l r) := by
  refine emits_operand.bind fun _ => emits_operand.bind fun _ => .liftBind fun resolution _ => ?_
  cases resolution with
  | numeric w =>
    exact (hE.exprAt hctx).andThen <| (hE.exprAtBehind hctx).andThen <| emits_arithmetic.andThen <|
      .pure fun _ => trivial
  | pointer target =>
    exact (hE.expr hctx).bind fun _ => (hE.exprBehind hctx).bind fun _ => emits_arithmetic.andThen <|
      .pure fun _ => trivial

theorem emits_negate : Moves u ctx.below (u.Texts locals) 0 1 (emitNegate E ctx locals e) := by
  refine emits_operand.bind fun _ => .liftBind fun w _ => (hE.exprAt hctx).andThen ?_
  split
  case h_1 h => exact Emits.andThen (.quiet (quiet_negate h) nofun 0) <| .pure fun _ => trivial
  case h_2 => exact .throw

theorem emits_comparison {op : ComparisonOp} {l : Expr} :
    Moves u ctx.below (u.Texts locals) 0 1 (emitComparison E ctx locals op l r) :=
  emits_operand.bind fun _ => emits_operand.bind fun _ => .liftBind fun _ _ =>
    (hE.exprAt hctx).andThen <| (hE.exprAtBehind hctx).andThen <| emits_compare.andThen <| .pure fun _ => trivial

theorem emits_convert : Moves u ctx.below (u.Texts locals) 0 1 (emitConvert E ctx locals c e) := by
  refine .liftBind fun _ _ => (hE.expr hctx).bind fun _ => .check <| .liftBind fun _ _ =>
    .ite (fun _ => ?_) fun _ => .liftBind fun _ _ => ?_
  · exact emits_pushInt.andThen <| emits_compare.andThen <| .pure fun _ => trivial
  · exact emits_coerce.andThen <| .pure fun _ => trivial

theorem emits_math {f : MathFunction} : Moves u ctx.below (u.Texts locals) 0 1 (emitMath E ctx locals c f) :=
  (Emits.mapM (fun _ => emits_operand) _).bind fun _ => .liftBind fun _ _ =>
    (Emits.mapM (fun _ => (hE.exprAt hctx).andThen routine_spill.emits) _).bind fun _ =>
      (routine_applyMath (fun _ => trivial) fun _ => trivial).emits.andThen (.pure fun _ => trivial)

theorem emits_pointer : Moves u ctx.below (u.Texts locals) 0 1 (emitPointer E ctx locals e) := by
  unfold emitPointer
  split
  · exact emits_load.andThen <| .pure fun _ => trivial
  · refine (hE.expr hctx).bind fun operand => ?_
    cases operand with
    | pointer => exact .pure fun _ => trivial
    | value => exact .throw

theorem emits_dereference : Moves u ctx.below (u.Texts locals) 0 1 (emitDereference E ctx locals target) :=
  (emits_pointer hE hctx).bind fun _ => emits_loadIndirect.andThen <| .pure fun _ => trivial

theorem emits_assignLocal {x : String} {l : Local} :
    Moves u ctx.below (u.Texts locals) 0 1 (assignLocal E ctx locals x l value) := by
  unfold assignLocal
  refine .check ?_
  split
  · exact emits_load.andThen <| (hE.exprBehind hctx).bind fun _ => emits_coerce.andThen <|
      emits_storeIndirect.andThen <| .pure fun _ => trivial
  · exact (hE.expr hctx).bind fun _ => emits_dup.andThen <| emits_store.andThen <| .pure fun _ => trivial
  · exact (hE.expr hctx).bind fun _ => emits_coerce.andThen <| emits_dup.andThen <|
      emits_store.andThen <| .pure fun _ => trivial
  all_goals exact .throw

theorem emits_assign : Moves u ctx.below (u.Texts locals) 0 1 (emitAssign E ctx locals target value) := by
  unfold emitAssign
  split
  · exact .liftBind fun _ _ => emits_assignLocal hE hctx
  · split
    · exact .throw
    · exact (emits_pointer hE hctx).bind fun _ => (hE.exprBehind hctx).bind fun _ => emits_coerce.andThen <|
        emits_storeIndirect.andThen <| .pure fun _ => trivial

theorem emits_step : Moves u ctx.below (u.Texts locals) 0 1 (emitStep E ctx locals builtin op target) := by
  unfold emitStep
  split
  · exact .liftBind fun _ _ => emits_stepLocal
  · split
    · exact .throw
    · exact (emits_pointer hE hctx).bind fun _ => .liftBind fun _ _ => routine_spill.emits.bind fun _ =>
        routine_stepIndirect.emits.andThen <| .pure fun _ => trivial

theorem emits_branchValue {result : Operand} :
    Moves u ctx.below (u.Texts locals) 0 1 (emitBranch E ctx locals result yes) :=
  .liftBind fun _ _ => (hE.blockValue hctx).bind fun _ => emits_coerce

theorem emits_ifValue {cond no : Expr} :
    Moves u ctx.below (u.Texts locals) 0 1 (emitIfValue E ctx locals c cond yes no) :=
  emits_infer.bind fun _ => (hE.condition hctx).andThen <|
    (Emits.branch (emits_branchValue hE hctx) (emits_branchValue hE hctx)).bind fun _ => .pure fun _ => trivial

theorem emits_builtin {cls : BuiltinClass} :
    Moves u ctx.below (u.Texts locals) 0 1 (emitBuiltin E ctx locals c cls) := by
  have hbool {e : Expr} : Moves u ctx.below (u.Texts locals) 0 1 (emitBool E ctx locals e) := hE.condition hctx
  unfold emitBuiltin
  split
  · exact emits_binary hE hctx
  · exact emits_negate hE hctx
  · exact emits_comparison hE hctx
  · exact hbool.andThen <| (Emits.branch hbool emits_pushI32).bind fun _ => .pure fun _ => trivial
  · exact hbool.andThen <| (Emits.branch emits_pushI32 hbool).bind fun _ => .pure fun _ => trivial
  · exact hbool.andThen <| emits_pushI32.andThen <|
      Emits.andThen (.quiet (a := 2) (b := 1) (by decide) nofun 0) <| .pure fun _ => trivial
  · exact emits_math hE hctx
  · exact emits_convert hE hctx
  · exact emits_location
  · exact emits_dereference hE hctx
  · exact emits_assign hE hctx
  · exact emits_step hE hctx
  · exact emits_ifValue hE hctx
  · exact hE.blockValue hctx
  · exact emits_count hE hctx
  · exact emits_index hE hctx
  all_goals exact .throw

theorem emits_call : Moves u ctx.below (u.Texts locals) 0 1 (emitCall E ctx locals c) := by
  refine .inferBind fun callee _ _ hcallee => ?_
  have hexpand : Moves u ctx.below (u.Texts locals) 0 1 (expand E ctx locals c callee true) :=
    emits_expand hE hctx (hctx.definitions ▸ mem_of_callee hcallee)
  refine hexpand.bind fun kind => ?_
  cases kind with
  | none => exact .throw
  | some kind => exact .pure fun _ => trivial

theorem emits_expr : Moves u ctx.below (u.Texts locals) 0 1 (emitExpr E ctx locals e) := by
  refine .liftBind fun ctx' hinside => ?_
  obtain ⟨hctx', hbelow⟩ := hctx.inside hinside
  rw [← hbelow]
  split
  · exact emits_literalValue
  · exact .liftBind fun _ _ => emits_local
  · refine .ite (fun _ => .throw) fun _ => ?_
    split
    · refine .check ?_
      exact .liftBind fun _ _ => .liftBind fun _ _ => emits_builtin hE hctx'
    · exact emits_call hE hctx'

end

theorem emitExpr_literal {E : Emitter} {ctx : Context} {ts : List Transform}
    {s t : State} {o : Operand} (h : emitExpr E ctx locals (.literal ts l) s = .ok (o, t)) :
    ∃ i, literalPush l = .ok i ∧ o = .value (.ofLiteral l) ∧ emitWith i.op i.imm s = .ok ((), t) := by
  obtain ⟨ctx', s₁, hinside, h₁⟩ := bind_eq_ok.mp h
  obtain ⟨-, rfl⟩ := lift_eq_ok.mp hinside
  obtain ⟨i, s₂, hpush, h₂⟩ := bind_eq_ok.mp h₁
  obtain ⟨hpush, rfl⟩ := lift_eq_ok.mp hpush
  obtain ⟨⟨⟩, s₃, hemit, h₃⟩ := bind_eq_ok.mp h₂
  obtain ⟨rfl, rfl⟩ := pure_eq_ok.mp h₃
  exact ⟨i, hpush, rfl, hemit⟩

end FlatCode.Lower
