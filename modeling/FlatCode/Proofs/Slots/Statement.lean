import FlatCode.Proofs.Layout.Statement
import FlatCode.Proofs.Slots.Expression

/-! Statements store only to slots that are new, to those of bindings that are changed by name, and to that of the
    result. So does all that is lowered, to any depth (`Emitter.frames_atDepth`). -/

namespace FlatCode.Lower
open Stateful

variable {c : Call} {cond count e : Expr} {body : List Expr} {ts : List Transform} {value : Option Expr}
  {mode : PrintMode} {returns : ReturnInfo} {builtin : String}

section
variable {E : Emitter} (hE : E.Frames) {G : Nat → Prop} {m : Nat} {ctx : Context} {locals : Locals}
  (hroom : Room G m ctx locals)

theorem tidy_exit {waiting : Nat} : Tidy G m (do
    let position ← openJump .jump
    modify fun s => { s with exits := { position, waiting } :: s.exits } : Lowering Unit) :=
  fun _ _ _ _ h => ⟨.exit waiting, exit_inv h, nofun, trivial⟩

include hE hroom

/-- The result of an expansion goes to its slot. -/
theorem tidy_returnToEnd {slot : Option Nat} (htarget : ctx.target = .expansion returns slot)
    (hvalue : ∀ e, value = some e → Granted G locals e) : Tidy G m (returnToEnd E ctx locals returns slot value) := by
  have hresult (k : Nat) (hk : slot = some k) : k < m ∧ G k := by
    refine hroom.result k ?_
    rw [Context.resultSlot?, htarget, hk]
  unfold returnToEnd
  split
  case h_1 value slot =>
    obtain ⟨hslot, hG⟩ := hresult slot rfl
    refine (hE.expr hroom (hvalue value rfl)).bind fun _ m₁ hm₁ _ => ?_
    have hstore := tidy_store (Nat.lt_of_lt_of_le hslot hm₁) hG
    exact .ite (fun _ => tidy_coerce.andThen <| hstore.andThen tidy_exit) fun _ => hstore.andThen tidy_exit
  · exact tidy_exit

theorem tidy_returnFromRun
    (hvalue : ∀ e, value = some e → Granted G locals e) : Tidy G m (returnFromRun E ctx locals returns value) := by
  unfold returnFromRun
  split
  · exact tidy_emitWith rfl rfl
  case h_2 value =>
    refine .check fun _ => (hE.expr hroom (hvalue value rfl)).bind fun _ _ _ _ => .ite (fun _ => ?_) fun _ => ?_
    · exact tidy_emitWith rfl rfl
    · exact tidy_coerce.andThen <| .liftBind fun w _ => tidy_emitWith (by cases w <;> rfl) (by cases w <;> rfl)

theorem tidy_return (hvalue : ∀ e, value = some e → Granted G locals e) :
    Tidy G m (lowerReturn E ctx locals value) := by
  unfold lowerReturn
  split
  · exact tidy_returnFromRun hE hroom hvalue
  case h_2 htarget => exact tidy_returnToEnd hE hroom htarget hvalue

theorem tidy_if {yes no : Expr} (hcond : Granted G locals cond) (hyes : Granted G locals yes)
    (hno : Granted G locals no) : Tidy G m (lowerIf E ctx locals cond yes no) := by
  have hbranch {e : Expr} (he : Granted G locals e) :
      Tidy G m (do E.block ctx locals (← Returns.branchBody e)) :=
    .liftBind fun _ hbody => hE.block hroom (granted_branchBody hbody he)
  exact (hE.condition hroom hcond).andThen <| ((hbranch hyes).branch (hbranch hno)).andThen <| .pure fun _ _ => trivial

theorem respects_spillCount {bools : Bool} {fault : TypeError} (hcount : Granted G locals count) :
    Respects G m (spillCount E ctx locals bools fault count) fun r m' => r.1 < m' ∧ G r.1 := by
  refine tidy_operand.bind fun _ m₁ hm₁ _ => .check fun _ => .liftBind fun _ _ => ?_
  refine respects_newSlot.bind fun counter m₂ hm₂ hcounter => ?_
  have hG := hroom.fresh counter (Nat.le_trans hm₁ hcounter.1)
  refine (hE.exprAt (hroom.later (Nat.le_trans hm₁ hm₂)) hcount).andThen <| (tidy_store hcounter.2 hG).andThen ?_
  exact .pure fun _ hm => ⟨Nat.lt_of_lt_of_le hcounter.2 hm, hG⟩

theorem tidy_countDown {counter : Nat} {w : Width} (hcounter : counter < m ∧ G counter)
    (hbody : GrantedIn G locals body) : Tidy G m (countDown E ctx locals counter w body) := by
  have hcond : Tidy G m (compareSlot w counter (if w = .u64 then .notEqual else .greater) (pushInt w 0)) :=
    (tidy_load hcounter.1).andThen <| tidy_pushInt.andThen tidy_compare
  refine hcond.loop fun _ m₁ hm₁ _ => ?_
  have hlt : counter < m₁ := Nat.lt_of_lt_of_le hcounter.1 hm₁
  exact (hE.block (hroom.later hm₁) hbody).andThen <| (tidy_load hlt).andThen <| tidy_pushInt.andThen <|
    tidy_arithmetic.andThen <| tidy_store hlt hcounter.2

theorem tidy_repeat (hcount : Granted G locals count)
    (hbody : GrantedIn G locals body) : Tidy G m (lowerRepeat E ctx locals count body) :=
  .ite (fun _ => .pure fun _ _ => trivial) fun _ => (respects_spillCount hE hroom hcount).bind fun _ _ hm hcounter =>
    tidy_countDown hE (hroom.later hm) hcounter hbody

theorem tidy_countedLoop (hcount : Granted G locals count)
    (hbody : GrantedIn G locals body) : Tidy G m (lowerLoop E ctx locals count body) :=
  (respects_spillCount hE hroom hcount).bind fun _ _ hm hcounter => (tidy_failIfNegative hcounter.1).andThen <|
    tidy_countDown hE (hroom.later hm) hcounter hbody

theorem tidy_while (hcond : Granted G locals cond) (hbody : GrantedIn G locals body) :
    Tidy G m (lowerWhile E ctx locals cond body) :=
  (hE.condition hroom hcond).loop fun _ _ hm _ => hE.block (hroom.later hm) hbody

theorem respects_forCondition (hcond : Granted G locals cond) :
    Respects G m (forCondition E ctx locals cond) (Entered m cond locals) := by
  refine .ite (fun _ => ?_) fun hbinding => ?_
  · refine (hE.statement hroom hcond).bind fun inner m₁ hm₁ hentered => ?_
    have hinner := hroom.entered hm₁ hentered
    split
    · exact .throw
    case h_2 l hl =>
      refine .ite (fun _ => ?_) fun _ => .throw
      obtain ⟨x, -, hl⟩ := Option.bind_eq_some_iff.mp hl
      exact (tidy_load (hinner.slot_lt hl)).andThen <| .pure fun _ hm => hentered.later hm
  · refine (hE.condition hroom hcond).andThen <| .pure fun _ _ => ?_
    cases cond with
    | call ts c => simp_all [Entered, Expr.boundName?, Expr.isBinding]
    | literal | name => rfl

/-- What the first two arguments of a `for` declare is in scope in all of it. -/
theorem tidy_for {init step : Expr} (hcall : Granted G locals (.call ts c)) (hargs : c.args = [init, cond, step])
    (hbody : c.body = some body) : Tidy G m (lowerFor E ctx locals init cond step body) := by
  have hlist : GrantedIn G locals [init, cond, step] := hargs ▸ hcall.argsIn
  refine (hE.statement hroom hlist.head).bind fun locals₁ m₁ hm₁ hinit => ?_
  have hlist₁ := hlist.tail hroom.fresh hinit
  have hroom₁ := hroom.entered hm₁ hinit
  refine (respects_forCondition hE hroom₁ hlist₁.head).loop fun locals₂ m₂ hm₂ hcond => ?_
  have hroom₂ := hroom₁.entered hm₂ hcond
  have hbody₂ : GrantedIn G locals₂ body := by
    intro x hx
    refine hcond.grants hroom₁.fresh fun hcondName => hinit.grants hroom.fresh fun hinitName => ?_
    refine hcall x (.block hbody (fun _ => ?_) hx)
    simp [hargs, hinitName, hcondName]
  exact (hE.block hroom₂ hbody₂).andThen <| hE.block hroom₂ (hlist₁.tail hroom₁.fresh hcond)

omit hE hroom in
theorem tidy_argumentPrint {checked : Bool} {imm : UInt64} : Tidy G m (emitWith (argumentPrint checked) imm) :=
  tidy_emitWith (by cases checked <;> rfl) (by cases checked <;> rfl)

omit hE in
theorem tidy_printText {x : String} {l : Local}
    (htext : textLocal? locals e = some (x, l)) : Tidy G m (printText mode x l) := by
  have hslot := hroom.slot_lt (lookup_of_textLocal htext)
  unfold printText
  split
  · exact .throw
  · exact tidy_emitWith rfl rfl
  · exact (tidy_load hslot).andThen tidy_argumentPrint

theorem tidy_printValue (he : Granted G locals e) : Tidy G m (printValue E ctx locals builtin mode e) := by
  refine (hE.expr hroom he).bind fun operand _ _ _ => .liftBind fun op hop => ?_
  have hplain : op.isJump = false ∧ op.namesSlot = false := by
    unfold wordPrint at hop
    split at hop <;> cases hop <;> exact ⟨rfl, rfl⟩
  exact tidy_emitWith hplain.1 hplain.2

theorem tidy_print (he : Granted G locals e) : Tidy G m (lowerPrint E ctx locals builtin mode e) := by
  unfold lowerPrint
  split
  · exact tidy_internText.bind fun _ _ _ _ => tidy_emitWith rfl rfl
  case h_2 ts c =>
    refine .ite (fun hreads => ?_) fun _ => tidy_printValue hE hroom he
    have hfor : ¬c.IsFor := by
      simp only [readsArgument, Bool.and_eq_true, Bool.or_eq_true, beq_iff_eq] at hreads
      rcases hreads.1.2 with hname | hname <;> exact CallOf.not_isFor_of_name hname nofun
    exact (tidy_argumentIndex hE hroom (he.args hfor)).andThen tidy_argumentPrint
  · split
    case h_1 htext => exact tidy_printText hroom htext
    case h_2 => exact tidy_printValue hE hroom he

omit hE hroom in
theorem tidy_dropValue {x : Lowering Operand} (h : Tidy G m x) : Tidy G m (dropValue x) :=
  h.bind fun _ _ _ _ => tidy_emitWith rfl rfl

theorem tidy_lowerBuiltin {b : Builtin} (hcall : Granted G locals (.call ts c)) (hbinding : c.isBinding = false)
    (hb : c.builtin? = some b) : Tidy G m (lowerBuiltin E ctx locals (.call ts c) c b.cls) := by
  by_cases hfor : b.cls = .forLoop
  · rw [hfor]
    unfold lowerBuiltin
    split
    case h_6 hargs => exact .liftBind fun _ hbody => tidy_for hE hroom hcall hargs (blockOf_inv hbody)
    case h_11 => exact tidy_dropValue (tidy_expr hE hroom hcall)
    all_goals contradiction
  have hother : ¬c.IsFor := CallOf.not_isFor_of_cls hb hfor
  have hargs := hcall.args hother
  have hblock {body : List Expr} (h : blockOf c = .ok body) : GrantedIn G locals body :=
    hcall.body (absurd · hother) (blockOf_inv h)
  unfold lowerBuiltin
  split
  case h_1 => exact tidy_return hE hroom fun e he => hargs e (List.mem_of_head? he)
  case h_2 cond yes no hcls h =>
    exact tidy_if hE hroom (hargs cond (by simp [h])) (hargs yes (by simp [h])) (hargs no (by simp [h]))
  case h_3 count hcls h =>
    exact .liftBind fun _ hbody => tidy_repeat hE hroom (hargs count (by simp [h])) (hblock hbody)
  case h_4 count hcls h =>
    exact .liftBind fun _ hbody => tidy_countedLoop hE hroom (hargs count (by simp [h])) (hblock hbody)
  case h_5 cond hcls h => exact .liftBind fun _ hbody => tidy_while hE hroom (hargs cond (by simp [h])) (hblock hbody)
  case h_6 => contradiction
  case h_7 => exact .liftBind fun _ hbody => hE.block hroom (hblock hbody)
  case h_8 newline stderr e hcls h => exact tidy_print hE hroom (hargs e (by simp [h]))
  case h_9 target value hcls h =>
    refine tidy_dropValue <| tidy_assign hE hroom (hargs target (by simp [h])) (hargs value (by simp [h])) ?_
    exact fun ts' x htarget => hcall x (.target hbinding hb (.inl hcls) (htarget ▸ h))
  case h_10 op target hcls h =>
    refine tidy_dropValue <| tidy_step hE hroom (hargs target (by simp [h])) fun ts' x htarget => ?_
    exact hcall x (.target hbinding hb (.inr ⟨op, hcls⟩) (htarget ▸ h))
  case h_11 => exact tidy_dropValue (tidy_expr hE hroom hcall)

theorem respects_statement (he : Granted G locals e) :
    Respects G m (lowerStatement E ctx locals e) (Entered m e locals) := by
  refine .liftBind fun ctx' hinside => ?_
  have hroom := hroom.inside hinside
  have hsame {m' : Nat} (hname : e.boundName? = none) : Entered m e locals locals m' := by
    rw [Entered, hname]
  split
  case h_1 ts c =>
    refine .ite (fun hbinding => ?_) fun hbinding => ?_
    · have hfor : ¬c.IsFor := fun h => absurd (h.1.symm.trans hbinding) (by simp)
      refine (respects_bindLocal hE hroom fun i hi => he.args hfor i (List.mem_of_head? hi)).bind ?_
      rintro bound m₁ hm₁ ⟨hname, hbound⟩
      refine .pure fun m₂ hm₂ => ?_
      rw [Entered, hname]
      exact ⟨bound.2, rfl, hbound.later hm₂⟩
    · have hbinding : c.isBinding = false := by simpa using hbinding
      have hname : (Expr.call ts c).boundName? = none := by simp [Expr.boundName?, hbinding]
      split
      case h_1 b hb =>
        refine .check fun _ => ?_
        refine .check fun _ => ?_
        refine .liftBind fun _ _ => .liftBind fun _ _ => ?_
        exact (tidy_lowerBuiltin hE hroom he hbinding hb).andThen <| .pure fun _ _ => hsame hname
      case h_2 hb =>
        have hfor : ¬c.IsFor := by
          rintro ⟨_, _, h, _⟩
          cases hb.symm.trans h
        refine tidy_infer.bind fun callee m₁ hm₁ _ => ?_
        exact (tidy_expand hE (hroom.later hm₁) (he.args hfor)).andThen <| .pure fun _ _ => hsame hname
  case h_2 hcall =>
    refine (tidy_dropValue (tidy_expr hE hroom he)).andThen <| .pure fun _ _ => hsame ?_
    cases e with
    | call ts c => exact absurd rfl (hcall ts c)
    | literal | name => rfl

end

theorem Emitter.frames_atDepth (depth : Nat) : (atDepth depth).Frames := by
  induction depth with
  | zero => exact ⟨fun _ _ => .throw, fun _ _ => .throw⟩
  | succ depth ih => exact ⟨fun hroom he => tidy_expr ih hroom he, fun hroom he => respects_statement ih hroom he⟩

end FlatCode.Lower
