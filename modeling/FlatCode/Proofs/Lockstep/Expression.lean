import FlatCode.Proofs.Lockstep.Expansion

/-! Expressions in two scopes. Of those that leave a value only a power, and what is read from a map, take a loop. -/

namespace FlatCode.Lower

def BuiltinClass.loops : BuiltinClass → Bool
  | .repeatLoop | .countedLoop | .whileLoop | .forLoop | .math .pow => true
  | _ => false

variable {op : ArithmeticOp} {b : Builtin} {c : Call} {e r target value yes : Expr} {ts : List Transform} {l : Local}
  {builtin : String}

theorem mem_loopNames (hb : c.builtin? = some b) (h : BuiltinClass.loops b.cls = true) : c.name ∈ loopNames := by
  have hlookup := CallOf.lookup?_of_builtin? hb
  unfold Builtin.lookup? at hlookup
  split at hlookup <;> cases hlookup
  all_goals
    rename_i hname
    rw [hname]
    revert h
    decide

section
variable {g : Pace} {locals : Locals}

theorem lockstep_literalValue {l : Literal} : Lockstep g (emitLiteralValue l) (emitLiteralValue l) fun _ => True :=
  .liftBind shallow_literalPush fun _ hi =>
    (Lockstep.emitWith (Opcode.isJump_of_isQuiet (quiet_literalPush hi).1)).andThen <| .pure trivial

theorem lockstep_local : Lockstep g (emitLocal l) (emitLocal l) fun _ => True :=
  lockstep_load.andThen <| .ite (fun _ => (Lockstep.emitWith rfl).andThen <| .pure trivial) fun _ => .pure trivial

theorem lockstep_location : Lockstep g (emitLocation locals target) (emitLocation locals target) fun _ => True := by
  unfold emitLocation
  split
  · refine .liftBind shallow_addressable fun _ _ => .check nofun fun _ => .ite (fun _ => ?_) fun _ => ?_
    · exact lockstep_load.andThen <| .pure trivial
    · exact (Lockstep.emitWith rfl).andThen <| .pure trivial
  · exact .throw nofun

theorem lockstep_stepLocal : Lockstep g (stepLocal builtin op l) (stepLocal builtin op l) fun _ => True := by
  refine .liftBind shallow_stepWidth fun _ _ => ?_
  split
  · exact Routine.lockstep (d := 0) (k := 1) <| routine_load.andThen <| routine_stepTop.andThen <|
      routine_dup.andThen <| routine_store.andThen <| .pure _
  · exact Routine.lockstep (d := 0) (k := 1) <| routine_stepIndirect.andThen <| .pure _
  · exact .throw nofun

end

section
variable {g : Pace} {scope' : Scope} {I' : Inferrer} {X : Nat → Context → Expr → Prop} {n : Nat} {E E' : Emitter}
  {ctx : Context} {locals : Locals} (hX : Coverage g scope' I' X) (hE : E.Handles g scope' I' (X n) E') (hl : Fit g locals)
include hX hE hl

theorem lockstep_binary {l : Expr} (hleft : X n ctx l) (hright : X n ctx r) :
    Lockstep g (emitArithmetic E ctx locals op l r) (emitArithmetic E' (ctx.over scope' I') locals op l r)
      fun _ => True := by
  refine (lockstep_operand hX hleft).bind fun _ _ => (lockstep_operand hX hright).bind fun _ _ =>
    .liftBind ArithmeticOp.shallow_resolve fun resolution _ => ?_
  cases resolution with
  | numeric w =>
    exact (hE.exprAt hleft hl).andThen <| (hE.exprAt (hX.behind hright) hl).andThen <| lockstep_arithmetic.andThen <|
      .pure trivial
  | pointer target =>
    exact (hE.expr hleft hl).bind fun _ _ => (hE.expr (hX.behind hright) hl).bind fun _ _ =>
      lockstep_arithmetic.andThen <| .pure trivial

theorem lockstep_negate (he : X n ctx e) :
    Lockstep g (emitNegate E ctx locals e) (emitNegate E' (ctx.over scope' I') locals e) fun _ => True := by
  refine (lockstep_operand hX he).bind fun _ _ => .liftBind shallow_resolveNegate fun w _ => (hE.exprAt he hl).andThen ?_
  split
  case h_1 h =>
    exact (Lockstep.emitWith (Opcode.isJump_of_isQuiet (quiet_negate h).1)).andThen <| .pure trivial
  case h_2 => exact .throw nofun

theorem lockstep_comparison {op : ComparisonOp} {l : Expr} (hleft : X n ctx l) (hright : X n ctx r) :
    Lockstep g (emitComparison E ctx locals op l r) (emitComparison E' (ctx.over scope' I') locals op l r)
      fun _ => True :=
  (lockstep_operand hX hleft).bind fun _ _ => (lockstep_operand hX hright).bind fun _ _ =>
    .liftBind shallow_resolveComparison fun _ _ => (hE.exprAt hleft hl).andThen <|
    (hE.exprAt (hX.behind hright) hl).andThen <| lockstep_compare.andThen <| .pure trivial

omit hX in
theorem lockstep_convert (he : X n ctx e) :
    Lockstep g (emitConvert E ctx locals c e) (emitConvert E' (ctx.over scope' I') locals c e) fun _ => True := by
  refine .liftBind CallOf.shallow_convertTarget fun _ _ => (hE.expr he hl).bind fun _ _ => .check nofun fun _ =>
    .liftBind shallow_widthOf fun _ _ => .ite (fun _ => ?_) fun _ => .liftBind shallow_widthOf fun _ _ => ?_
  · exact lockstep_pushInt.andThen <| lockstep_compare.andThen <| .pure trivial
  · exact lockstep_coerce.andThen <| .pure trivial

theorem lockstep_math {f : MathFunction} (hargs : ∀ a ∈ c.args, X n ctx a) (hpow : f = .pow → g.mayLoop) :
    Lockstep g (emitMath E ctx locals c f) (emitMath E' (ctx.over scope' I') locals c f) fun _ => True := by
  refine Lockstep.bind (.mapM fun a ha => lockstep_operand hX (hargs a ha)) fun _ _ =>
    .liftBind shallow_resolveMath fun w _ => ?_
  have hspill : Lockstep g spill spill fun _ => True := (routine_spill (d := 0)).lockstep
  refine Lockstep.bind (.mapM fun a ha => (hE.exprAt (hargs a ha) hl).andThen hspill) fun slots _ => ?_
  exact (routine_applyMath (d := 0) hpow fun _ => nofun).lockstep.andThen <| .pure trivial

omit hX in
theorem lockstep_pointer (he : X n ctx e) :
    Lockstep g (emitPointer E ctx locals e) (emitPointer E' (ctx.over scope' I') locals e) fun _ => True := by
  unfold emitPointer
  split
  · exact lockstep_load.andThen <| .pure trivial
  · refine (hE.expr he hl).bind fun operand _ => ?_
    cases operand with
    | pointer => exact .pure trivial
    | value => exact .throw nofun

omit hE hl in
theorem covers_dereferenced {pointer : Expr} (h : X n ctx target) (hp : dereferenced? target = some pointer) :
    X n ctx pointer := by
  unfold dereferenced? at hp
  split at hp
  · split at hp
    case h_1 hargs =>
      split at hp
      · cases hp
        exact (hX.parts (hX.weaken h)).1 _ (hargs ▸ List.mem_cons_self)
      · exact nomatch hp
    case h_2 => exact nomatch hp
  · exact nomatch hp

theorem lockstep_assignLocal {x : String} (hvalue : X n ctx value) :
    Lockstep g (assignLocal E ctx locals x l value) (assignLocal E' (ctx.over scope' I') locals x l value)
      fun _ => True := by
  unfold assignLocal
  refine .check nofun fun _ => ?_
  split
  · exact lockstep_load.andThen <| (hE.expr (hX.behind hvalue) hl).bind fun _ _ => lockstep_coerce.andThen <|
      (Lockstep.emitWith rfl).andThen <| .pure trivial
  · exact (hE.expr hvalue hl).bind fun _ _ => (Lockstep.emitWith rfl).andThen <| lockstep_store.andThen <| .pure trivial
  · exact (hE.expr hvalue hl).bind fun _ _ => lockstep_coerce.andThen <| (Lockstep.emitWith rfl).andThen <|
      lockstep_store.andThen <| .pure trivial
  all_goals exact .throw nofun

theorem lockstep_assign (htarget : X n ctx target) (hvalue : X n ctx value) :
    Lockstep g (emitAssign E ctx locals target value) (emitAssign E' (ctx.over scope' I') locals target value)
      fun _ => True := by
  unfold emitAssign
  split
  · exact .liftBind shallow_mutableLocal fun _ _ => lockstep_assignLocal hX hE hl hvalue
  · split
    · exact .throw nofun
    case h_2 hpointer =>
      refine (lockstep_pointer hE hl (covers_dereferenced hX htarget hpointer)).bind fun _ _ => ?_
      exact (hE.expr (hX.behind hvalue) hl).bind fun _ _ => lockstep_coerce.andThen <| (Lockstep.emitWith rfl).andThen <|
        .pure trivial

theorem lockstep_step (htarget : X n ctx target) :
    Lockstep g (emitStep E ctx locals builtin op target) (emitStep E' (ctx.over scope' I') locals builtin op target)
      fun _ => True := by
  unfold emitStep
  split
  · exact .liftBind shallow_mutableLocal fun _ _ => lockstep_stepLocal
  · split
    · exact .throw nofun
    case h_2 hpointer =>
      refine (lockstep_pointer hE hl (covers_dereferenced hX htarget hpointer)).bind fun _ _ =>
        .liftBind shallow_stepWidth fun _ _ => Routine.lockstep (d := 1) (k := 1) ?_
      exact routine_spill.bind fun _ => routine_stepIndirect.andThen <| .pure _

omit hE hl in
theorem covers_branchBody {body : List Expr} (h : X n ctx e) (hbody : Returns.branchBody e = .ok body) :
    ∀ s ∈ body, X n ctx s :=
  (hX.parts (hX.weaken h)).body (Returns.branchBody_inv hbody).2

theorem lockstep_branchValue {result : Operand} (h : X n ctx yes) :
    Lockstep g (emitBranch E ctx locals result yes) (emitBranch E' (ctx.over scope' I') locals result yes)
      fun _ => True :=
  .liftBind Returns.shallow_branchBody fun _ hbody => (hE.blockValue (covers_branchBody hX h hbody) hl).bind fun _ _ =>
    lockstep_coerce

theorem lockstep_ifValue {cond no : Expr} (hc : c.args = [cond, yes, no]) (hargs : ∀ a ∈ c.args, X n ctx a) :
    Lockstep g (emitIfValue E ctx locals c cond yes no) (emitIfValue E' (ctx.over scope' I') locals c cond yes no)
      fun _ => True := by
  have hcond : X n ctx cond := hargs cond (by simp [hc])
  have hyes : X n ctx yes := hargs yes (by simp [hc])
  have hno : X n ctx no := hargs no (by simp [hc])
  refine (Lockstep.infer (tracks_inferIf (hX.closed n ctx) hX.operand hargs)).bind fun _ _ => ?_
  refine (hE.condition hcond hl).andThen ?_
  refine Lockstep.bind (.branch (lockstep_branchValue hX hE hl hyes) (lockstep_branchValue hX hE hl hno)) fun _ _ => ?_
  exact .pure trivial

theorem lockstep_builtin (hb : c.builtin? = some b) (hargs : ∀ a ∈ c.args, X n ctx a)
    (hbody : ∀ l, c.body = some l → ∀ s ∈ l, X n ctx s) (hloops : c.name ∈ loopNames → g.mayLoop) :
    Lockstep g (emitBuiltin E ctx locals c b.cls) (emitBuiltin E' (ctx.over scope' I') locals c b.cls) fun _ => True := by
  have hbool {e : Expr} (he : X n ctx e) :
      Lockstep g (emitBool E ctx locals e) (emitBool E' (ctx.over scope' I') locals e) fun _ => True :=
    hE.condition he hl
  have hpush {imm : UInt64} : Lockstep g (emitWith .pushI32 imm) (emitWith .pushI32 imm) fun _ => True := .emitWith rfl
  unfold emitBuiltin
  split
  case h_1 hc => exact lockstep_binary hX hE hl (hargs _ (by simp [hc])) (hargs _ (by simp [hc]))
  case h_2 hc => exact lockstep_negate hX hE hl (hargs _ (by simp [hc]))
  case h_3 hc => exact lockstep_comparison hX hE hl (hargs _ (by simp [hc])) (hargs _ (by simp [hc]))
  case h_4 hc =>
    refine (hbool (hargs _ (by simp [hc]))).andThen <| (Lockstep.branch (hbool (hargs _ ?_)) hpush).bind fun _ _ => ?_
    · simp [hc]
    · exact .pure trivial
  case h_5 hc =>
    refine (hbool (hargs _ (by simp [hc]))).andThen <| (Lockstep.branch hpush (hbool (hargs _ ?_))).bind fun _ _ => ?_
    · simp [hc]
    · exact .pure trivial
  case h_6 hc =>
    exact (hbool (hargs _ (by simp [hc]))).andThen <| hpush.andThen <| (Lockstep.emitWith rfl).andThen <| .pure trivial
  case h_7 f hcls =>
    refine lockstep_math hX hE hl hargs fun hpow => hloops (mem_loopNames hb ?_)
    rw [hcls, hpow]
    rfl
  case h_8 hc => exact lockstep_convert hE hl (hargs _ (by simp [hc]))
  case h_9 => exact lockstep_location
  case h_10 hc =>
    exact (lockstep_pointer hE hl (hargs _ (by simp [hc]))).bind fun _ _ => (Lockstep.emitWith rfl).andThen <| .pure trivial
  case h_11 hc => exact lockstep_assign hX hE hl (hargs _ (by simp [hc])) (hargs _ (by simp [hc]))
  case h_12 hc => exact lockstep_step hX hE hl (hargs _ (by simp [hc]))
  case h_13 hc => exact lockstep_ifValue hX hE hl hc hargs
  case h_14 =>
    refine hE.blockValue ?_ hl
    cases hbody' : c.body with
    | none => exact fun _ h => absurd h List.not_mem_nil
    | some l => exact hbody l hbody'
  case h_15 hc => exact lockstep_count hX hE hl (hX.weaken (hargs _ (by simp [hc])))
  case h_16 hc => exact lockstep_index hX hE hl hc hargs
  all_goals exact .throw nofun

omit hE hl in
/-- What a call means is the same in both scopes. -/
theorem lockstep_callee (hc : X (n + 1) ctx (.call ts c)) (hbinding : c.isBinding = false) (hb : c.builtin? = none) :
    Lockstep g (ctx.callee locals c) ((ctx.over scope' I').callee locals c) fun d => d ∈ ctx.scope.definitions :=
  .infer (tracks_callee (hX.closed n ctx) hX.operand (hX.alike hc) hbinding hb (hX.parts hc).1)

theorem lockstep_call (hc : X (n + 1) ctx (.call ts c)) (hbinding : c.isBinding = false) (hb : c.builtin? = none) :
    Lockstep g (emitCall E ctx locals c) (emitCall E' (ctx.over scope' I') locals c) fun _ => True := by
  refine (lockstep_callee hX hc hbinding hb).bind fun d hd => ?_
  refine (lockstep_expand hX hE hl hc hbinding hb hd).bind fun k _ => ?_
  cases k with
  | none => exact .throw nofun
  | some kind => exact .pure trivial

theorem lockstep_expr (h : X (n + 1) ctx e) :
    Lockstep g (emitExpr E ctx locals e) (emitExpr E' (ctx.over scope' I') locals e) fun _ => True := by
  refine .inside fun effects => ?_
  replace h := hX.effects effects h
  split
  · exact lockstep_literalValue
  · exact .liftBind shallow_readable fun _ _ => lockstep_local
  case h_3 ts c =>
    refine .ite (fun _ => .throw nofun) fun hbinding => ?_
    have hbinding : c.isBinding = false := Bool.eq_false_iff.mpr hbinding
    split
    case h_1 b hb =>
      refine .check nofun fun _ => .liftBind Builtin.shallow_checkArity fun _ _ => ?_
      refine .liftBind EffectSet.shallow_require fun _ _ => ?_
      exact lockstep_builtin hX hE hl hb (hX.parts h).1 (hX.parts h).2 (hX.loops h hbinding)
    case h_2 hb => exact lockstep_call hX hE hl h hbinding hb

end
end FlatCode.Lower
