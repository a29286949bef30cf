import FlatCode.Proofs.Lockstep.Expression

/-! Statements in two scopes. Main result: lowering to a depth goes in lockstep with lowering to the same or a greater
    depth on all expressions that are covered (`Emitter.handles_atDepth`). -/

namespace FlatCode.Lower

variable {c : Call} {cond count e : Expr} {body : List Expr} {value : Option Expr} {mode : PrintMode}
  {returns : ReturnInfo} {builtin : String}

section
variable {g : Pace} {scope' : Scope} {I' : Inferrer} {X : Nat → Context → Expr → Prop} {n : Nat} {E E' : Emitter}
  {ctx : Context} {locals : Locals} (hX : Coverage g scope' I' X) (hE : E.Handles g scope' I' (X n) E') (hl : Fit g locals)
include hX hE hl

omit hX in
theorem lockstep_returnToEnd {slot : Option Nat} (hvalue : ∀ e, value = some e → X n ctx e) :
    Lockstep g (returnToEnd E ctx locals returns slot value) (returnToEnd E' (ctx.over scope' I') locals returns slot value)
      fun _ => True := by
  unfold returnToEnd
  split
  case h_1 value slot =>
    refine (hE.expr (hvalue value rfl) hl).bind fun _ _ => .ite (fun _ => ?_) fun _ => ?_
    · exact lockstep_coerce.andThen <| lockstep_store.andThen lockstep_exit
    · exact lockstep_store.andThen lockstep_exit
  case h_2 => exact lockstep_exit

omit hX in
theorem lockstep_returnFromRun (hvalue : ∀ e, value = some e → X n ctx e) :
    Lockstep g (returnFromRun E ctx locals returns value) (returnFromRun E' (ctx.over scope' I') locals returns value)
      fun _ => True := by
  unfold returnFromRun
  split
  case h_1 => exact .emitWith rfl
  case h_2 value =>
    refine .check nofun fun _ => (hE.expr (hvalue value rfl) hl).bind fun _ _ => .ite (fun _ => ?_) fun _ => ?_
    · exact .emitWith rfl
    · refine lockstep_coerce.andThen <| .liftBind shallow_widthOf fun w _ => .emitWith ?_
      exact Opcode.isJump_of_isQuiet (quiet_ret w).1

omit hX in
theorem lockstep_return (hvalue : ∀ e, value = some e → X n ctx e) :
    Lockstep g (lowerReturn E ctx locals value) (lowerReturn E' (ctx.over scope' I') locals value) fun _ => True := by
  have htarget : (ctx.over scope' I').target = ctx.target := rfl
  unfold lowerReturn
  rw [htarget]
  cases ctx.target with
  | run => exact lockstep_returnFromRun hE hl hvalue
  | expansion => exact lockstep_returnToEnd hE hl hvalue

theorem lockstep_ifBranch (he : X n ctx e) :
    Lockstep g (do E.block ctx locals (← Returns.branchBody e))
      (do E'.block (ctx.over scope' I') locals (← Returns.branchBody e))
      fun _ => True :=
  .liftBind Returns.shallow_branchBody fun _ hbody => hE.block (covers_branchBody hX he hbody) hl

theorem lockstep_if {yes no : Expr} (hcond : X n ctx cond) (hyes : X n ctx yes) (hno : X n ctx no) :
    Lockstep g (lowerIf E ctx locals cond yes no) (lowerIf E' (ctx.over scope' I') locals cond yes no) fun _ => True :=
  (hE.condition hcond hl).andThen <|
    (Lockstep.branch (lockstep_ifBranch hX hE hl hyes) (lockstep_ifBranch hX hE hl hno)).bind fun _ _ => .pure trivial

theorem lockstep_spillCount {bools : Bool} {fault : TypeError} (hcount : X n ctx count) :
    Lockstep g (spillCount E ctx locals bools fault count) (spillCount E' (ctx.over scope' I') locals bools fault count)
      fun _ => True :=
  (lockstep_operand hX hcount).bind fun _ _ => .check nofun fun _ => .liftBind shallow_widthOf fun _ _ =>
    lockstep_newSlot.bind fun _ _ => (hE.exprAt hcount hl).andThen <| lockstep_store.andThen <| .pure trivial

omit hX in
theorem lockstep_countDown {counter : Nat} {w : Width} (hloop : g.mayLoop) (hbody : ∀ s ∈ body, X n ctx s) :
    Lockstep g (countDown E ctx locals counter w body) (countDown E' (ctx.over scope' I') locals counter w body)
      fun _ => True :=
  .loop hloop (routine_compareSlot (d := 0) routine_pushInt).lockstep fun _ _ => (hE.block hbody hl).andThen <|
    lockstep_load.andThen <| lockstep_pushInt.andThen <| lockstep_arithmetic.andThen lockstep_store

theorem lockstep_repeat (hloop : g.mayLoop) (hcount : X n ctx count) (hbody : ∀ s ∈ body, X n ctx s) :
    Lockstep g (lowerRepeat E ctx locals count body) (lowerRepeat E' (ctx.over scope' I') locals count body)
      fun _ => True :=
  .ite (fun _ => .pure trivial) fun _ => (lockstep_spillCount hX hE hl hcount).bind fun _ _ =>
    lockstep_countDown hE hl hloop hbody

theorem lockstep_countedLoop (hloop : g.mayLoop) (hcount : X n ctx count)
    (hbody : ∀ s ∈ body, X n ctx s) :
    Lockstep g (lowerLoop E ctx locals count body) (lowerLoop E' (ctx.over scope' I') locals count body) fun _ => True :=
  (lockstep_spillCount hX hE hl hcount).bind fun _ _ =>
    (routine_failIfNegative (d := 0) (by decide)).lockstep.andThen <| lockstep_countDown hE hl hloop hbody

omit hX in
theorem lockstep_while (hloop : g.mayLoop) (hcond : X n ctx cond)
    (hbody : ∀ s ∈ body, X n ctx s) :
    Lockstep g (lowerWhile E ctx locals cond body) (lowerWhile E' (ctx.over scope' I') locals cond body) fun _ => True :=
  .loop hloop (hE.condition hcond hl) fun _ _ => hE.block hbody hl

omit hX in
theorem lockstep_forCondition (hcond : X n ctx cond) :
    Lockstep g (forCondition E ctx locals cond) (forCondition E' (ctx.over scope' I') locals cond) (Fit g) := by
  refine .ite (fun _ => (hE.statement hcond hl).bind fun inner hinner => ?_) fun _ => ?_
  · split
    · exact .throw nofun
    · exact .ite (fun _ => lockstep_load.andThen <| .pure hinner) fun _ => .throw nofun
  · exact (hE.condition hcond hl).andThen <| .pure hl

omit hX in
theorem lockstep_for {init step : Expr} (hloop : g.mayLoop) (hinit : X n ctx init)
    (hcond : X n ctx cond) (hstep : X n ctx step) (hbody : ∀ s ∈ body, X n ctx s) :
    Lockstep g (lowerFor E ctx locals init cond step body) (lowerFor E' (ctx.over scope' I') locals init cond step body)
      fun _ => True := by
  refine (hE.statement hinit hl).bind fun inner hinner => .loop hloop (lockstep_forCondition hE hinner hcond) fun _ h => ?_
  exact (hE.block hbody h).andThen <| hE.block (List.forall_mem_singleton.mpr hstep) h

omit hX hE hl in
theorem isJump_argumentPrint {checked : Bool} : (argumentPrint checked).isJump = false := by
  cases checked <;> rfl

omit hX hE hl in
theorem lockstep_printText {x : String} {l : Local} :
    Lockstep g (printText mode x l) (printText mode x l) fun _ => True := by
  unfold printText
  split
  · exact .throw nofun
  · exact .emitWith rfl
  · exact lockstep_load.andThen (.emitWith isJump_argumentPrint)

omit hX in
theorem lockstep_printValue (he : X n ctx e) :
    Lockstep g (printValue E ctx locals builtin mode e) (printValue E' (ctx.over scope' I') locals builtin mode e)
      fun _ => True := by
  refine (hE.expr he hl).bind fun operand _ => .liftBind shallow_wordPrint fun op hop => .emitWith ?_
  unfold wordPrint at hop
  split at hop <;> cases hop <;> rfl

theorem lockstep_print (he : X n ctx e) :
    Lockstep g (lowerPrint E ctx locals builtin mode e) (lowerPrint E' (ctx.over scope' I') locals builtin mode e)
      fun _ => True := by
  unfold lowerPrint
  split
  · exact lockstep_internText.bind fun _ _ => .emitWith rfl
  case h_2 ts c =>
    refine .ite (fun _ => ?_) fun _ => lockstep_printValue hE hl he
    have hargs : ∀ a ∈ c.args, X n ctx a := (hX.parts (hX.weaken he)).1
    exact (lockstep_argumentIndex hX hE hl hargs).andThen (.emitWith isJump_argumentPrint)
  · split
    · exact lockstep_printText
    · exact lockstep_printValue hE hl he

omit hX hE hl in
theorem lockstep_dropValue {x y : Lowering Operand} (h : Lockstep g x y fun _ => True) :
    Lockstep g (dropValue x) (dropValue y) fun _ => True :=
  h.bind fun _ _ => .emitWith rfl

theorem lockstep_lowerBuiltin {ts : List Transform} {b : Builtin} (h : X (n + 1) ctx (.call ts c))
    (hbinding : c.isBinding = false) (hb : c.builtin? = some b) :
    Lockstep g (lowerBuiltin E ctx locals (.call ts c) c b.cls)
      (lowerBuiltin E' (ctx.over scope' I') locals (.call ts c) c b.cls) fun _ => True := by
  obtain ⟨hargs, hbody⟩ := hX.parts h
  have hloop (hcls : BuiltinClass.loops b.cls = true) : g.mayLoop := hX.loops h hbinding (mem_loopNames hb hcls)
  unfold lowerBuiltin
  split
  case h_1 => exact lockstep_return hE hl fun e he => hargs e (List.mem_of_head? he)
  case h_2 hc =>
    exact lockstep_if hX hE hl (hargs _ (by simp [hc])) (hargs _ (by simp [hc])) (hargs _ (by simp [hc]))
  case h_3 hcls hc =>
    exact .liftBind shallow_blockOf fun _ h => lockstep_repeat hX hE hl (hloop (hcls ▸ rfl)) (hargs _ (by simp [hc]))
      (hbody _ (blockOf_inv h))
  case h_4 hcls hc =>
    exact .liftBind shallow_blockOf fun _ h => lockstep_countedLoop hX hE hl (hloop (hcls ▸ rfl)) (hargs _ (by simp [hc]))
      (hbody _ (blockOf_inv h))
  case h_5 hcls hc =>
    exact .liftBind shallow_blockOf fun _ h => lockstep_while hE hl (hloop (hcls ▸ rfl)) (hargs _ (by simp [hc]))
      (hbody _ (blockOf_inv h))
  case h_6 hcls hc =>
    exact .liftBind shallow_blockOf fun _ h => lockstep_for hE hl (hloop (hcls ▸ rfl)) (hargs _ (by simp [hc]))
      (hargs _ (by simp [hc])) (hargs _ (by simp [hc])) (hbody _ (blockOf_inv h))
  case h_7 => exact .liftBind shallow_blockOf fun _ h => hE.block (hbody _ (blockOf_inv h)) hl
  case h_8 hc => exact lockstep_print hX hE hl (hargs _ (by simp [hc]))
  case h_9 hc => exact lockstep_dropValue (lockstep_assign hX hE hl (hargs _ (by simp [hc])) (hargs _ (by simp [hc])))
  case h_10 hc => exact lockstep_dropValue (lockstep_step hX hE hl (hargs _ (by simp [hc])))
  case h_11 => exact lockstep_dropValue (lockstep_expr hX hE hl h)

theorem lockstep_statement (h : X (n + 1) ctx e) :
    Lockstep g (lowerStatement E ctx locals e) (lowerStatement E' (ctx.over scope' I') locals e) (Fit g) := by
  refine .inside fun effects => ?_
  replace h := hX.effects effects h
  split
  case h_1 ts c =>
    refine .ite (fun _ => ?_) fun hbinding => ?_
    · have hinit (i : Expr) (hi : c.args.head? = some i) := (hX.parts h).1 i (List.mem_of_head? hi)
      exact (lockstep_bindLocal hX hE hl (hX.alike h) hinit).bind fun _ hbound => .pure (hl.cons hbound)
    · have hbinding : c.isBinding = false := Bool.eq_false_iff.mpr hbinding
      split
      case h_1 b hb =>
        refine .check nofun fun _ => .check nofun fun _ => .liftBind Builtin.shallow_checkArity fun _ _ =>
          .liftBind EffectSet.shallow_require fun _ _ => ?_
        exact (lockstep_lowerBuiltin hX hE hl h hbinding hb).andThen <| .pure hl
      case h_2 hb =>
        refine (lockstep_callee hX h hbinding hb).bind fun d hd => ?_
        exact (lockstep_expand hX hE hl h hbinding hb hd).bind fun _ _ => .pure hl
  case h_2 => exact (lockstep_dropValue (lockstep_expr hX hE hl h)).andThen <| .pure hl

end

theorem Emitter.handles_atDepth {g : Pace} {scope' : Scope} {I' : Inferrer} {X : Nat → Context → Expr → Prop}
    (hX : Coverage g scope' I' X) (n k : Nat) : (atDepth n).Handles g scope' I' (X n) (atDepth (n + k)) := by
  induction n with
  | zero => exact ⟨fun h _ => .stop (hX.zero h), fun h _ => .stop (hX.zero h)⟩
  | succ n ih =>
    rw [Nat.succ_add]
    exact ⟨fun h hl => lockstep_expr hX ih hl h, fun h hl => lockstep_statement hX ih hl h⟩

end FlatCode.Lower
