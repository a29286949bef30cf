import FlatCode.Proofs.Agreement.Expression

/-! Lowering what is accepted: statements. Each leaves a scope that knows what the check knows after it. Main result:
    lowering to any depth agrees with the check (`Emitter.agrees_atDepth`). -/

namespace FlatCode

/-- What has been entered can be entered again. -/
theorem EffectSet.inside_again {s s' : EffectSet} {home : String} {e : Expr} (h : s.inside home e = .ok s') :
    s'.inside home e = .ok s' := by
  obtain ⟨explicit, hexplicit, h₁⟩ := Stateful.except_bind_eq_ok.mp h
  refine Stateful.except_bind_eq_ok.mpr ⟨explicit, hexplicit, ?_⟩
  cases explicit with
  | none => rfl
  | some declared =>
    dsimp only at h₁ ⊢
    split at h₁
    · exact nomatch h₁
    · cases h₁
      have hself : s'.firstOutside? s' = none :=
        List.find?_eq_none.mpr fun x hx => by simpa [EffectSet.contains] using hx
      rw [hself]
      rfl

theorem Check.Enters.again {exact : Prop} {ctx ctx' : Context} {e : Expr} (h : Enters exact ctx e ctx') :
    Enters exact ctx' e ctx' := by
  obtain ⟨effects, rfl, hinside⟩ := h
  exact ⟨effects, rfl, fun he => EffectSet.inside_again (hinside he)⟩

namespace Lower
open Stateful
open Check (Env Accepts AcceptsControl AcceptsList AcceptsStatement Enters Setting)

variable {b : Builtin} {c : Call} {env' : Env} {cond count e : Expr} {body : List Expr} {o : Operand}
  {value : Option Expr} {mode : PrintMode} {returns : ReturnInfo} {builtin : String}

section
variable {exact : Prop} {s : Setting} {ctx : Check.Context} {lctx : Context} {env : Env} {locals : Locals}

theorem safe_dropValue {m : Lowering Operand} {Q : Operand → Prop} (h : Safe exact s m Q) :
    Safe exact s (dropValue m) fun _ => True := h.bind fun _ _ => safe_emitWith

theorem blockOf_eq (hshape : Check.builtinShape ctx b c = .ok ())
    (htakes : b.cls.takesBody = true) : blockOf c = .ok (c.body.getD []) := by
  have hbody := (Check.builtinShape_inv hshape).2.2.1.trans htakes
  obtain ⟨body, hbody⟩ := Option.isSome_iff_exists.mp hbody
  simp [blockOf, hbody]

section
variable {E : Emitter} (hE : E.Agrees exact s) (hctx : Follows exact s ctx lctx) (hrelated : Related exact env locals)
include hE hctx hrelated

omit hE hctx hrelated in
theorem safe_exit {waiting : Nat} : Safe exact s (do
    let position ← openJump .jump
    modify fun s => { s with exits := { position, waiting } :: s.exits }) fun _ => True :=
  Meets.openJump.bind fun _ _ => .of_cache fun _ => ⟨_, _, rfl, rfl⟩

theorem safe_returnToEnd {slot : Option Nat} (h : ∀ e, value = some e → ∃ o, Accepts exact ctx env e o) :
    Safe exact s (returnToEnd E lctx locals returns slot value) fun _ => True := by
  unfold returnToEnd
  split
  case h_1 e slot =>
    obtain ⟨o, ho⟩ := h e rfl
    refine (hE.expr hctx hrelated ho).bind fun _ _ => .ite (fun _ => ?_) fun _ => ?_
    · exact safe_coerce.andThen <| safe_store.andThen safe_exit
    · exact safe_store.andThen safe_exit
  case h_2 => exact safe_exit

/-- A value is returned only from a run that returns one. -/
theorem safe_returnFromRun
    (h : ∀ e, value = some e → (exact → returns.isVoid = false) ∧ ∃ o, Accepts exact ctx env e o) :
    Safe exact s (returnFromRun E lctx locals returns value) fun _ => True := by
  unfold returnFromRun
  cases value with
  | none => exact safe_emitWith
  | some e =>
    obtain ⟨hvalue, o, ho⟩ := h e rfl
    refine .check (fun hvoid => .late (fun he => ?_) rfl) fun _ => ?_
    · exact nomatch hvoid.symm.trans (hvalue he)
    · refine (hE.expr hctx hrelated ho).bind fun operand _ => .ite (fun _ => safe_emitWith) fun _ => ?_
      exact safe_coerce.andThen <| .liftBind ends_widthOf fun _ _ _ => safe_emitWith

theorem safe_return (h : ∀ e, value = some e → ctx.returns.isVoid = false ∧ ∃ o, Accepts exact ctx env e o) :
    Safe exact s (lowerReturn E lctx locals value) fun _ => True := by
  unfold lowerReturn
  split
  case h_1 returns htarget =>
    refine safe_returnFromRun hE hctx hrelated fun e he => ⟨fun hexact => ?_, (h e he).2⟩
    rw [hctx.returns hexact returns htarget]
    exact (h e he).1
  case h_2 => exact safe_returnToEnd hE hctx hrelated fun e he => (h e he).2

theorem safe_if {yes no : Expr} {ys ns : List Expr} {env'' : Env}
    (hc : Accepts exact ctx env cond o) (hcond : o.isCondition = true) (hyes : Returns.branchBody yes = .ok ys)
    (hno : Returns.branchBody no = .ok ns) (ha : AcceptsList exact ctx env ys env')
    (hb : AcceptsList exact ctx env ns env'') : Safe exact s (lowerIf E lctx locals cond yes no) fun _ => True := by
  refine (hE.condition hctx hrelated hc hcond rfl).andThen ?_
  exact (Meets.branch (.okBind hyes (hE.block hctx hrelated ha)) (.okBind hno (hE.block hctx hrelated hb))).bind
    fun _ _ => .pure trivial

theorem safe_spillCount {bools : Bool} {fault : TypeError}
    (hc : Accepts exact ctx env count o) (hfault : fault.isLate = true) (hends : exact → count.endsInReturn = false)
    (hkind : o.isPointer = false ∧ (o.kind.isInteger = true ∨ bools = true ∧ o.kind = .bool ∨ o.kind = .unknown)) :
    Safe exact s (spillCount E lctx locals bools fault count) fun _ => True := by
  refine (hctx.operand hrelated hc).bind fun o' ho' => .check (fun hno => .late (fun he => ?_) hfault) fun _ => ?_
  · obtain ⟨rfl, hknown⟩ := ho' he
    have hknown := Operand.kind_ne_unknown_of_target (hknown (hends he))
    obtain ⟨hpointer, hinteger | ⟨hbools, hbool⟩ | hunknown⟩ := hkind
    · simp [hpointer, hinteger] at hno
    · simp [hpointer, hbools, hbool] at hno
    · exact hknown hunknown
  · exact .liftBind ends_widthOf fun _ _ _ => safe_newSlot.bind fun _ _ =>
      (hE.exprAt hctx hrelated hc).andThen <| safe_store.andThen <| .pure trivial

theorem safe_countDown {counter : Nat} {w : Width}
    (hb : AcceptsList exact ctx env body env') : Safe exact s (countDown E lctx locals counter w body) fun _ => True :=
  .loop (routine_compareSlot (d := 0) routine_pushInt).meets fun _ _ => (hE.block hctx hrelated hb).andThen <|
    safe_load.andThen <| safe_emitWith.andThen <| safe_emitWith.andThen safe_store

theorem safe_repeat (hc : Accepts exact ctx env count o) (hends : exact → count.endsInReturn = false)
    (hkind : o.isPointer = false ∧ (o.kind.isInteger = true ∨ o.kind = .bool ∨ o.kind = .unknown))
    (hb : AcceptsList exact ctx env body env') : Safe exact s (lowerRepeat E lctx locals count body) fun _ => True := by
  refine .ite (fun _ => .pure trivial) fun _ => ?_
  have hcount : Safe exact s (spillCount E lctx locals true .repeatCount count) fun _ => True :=
    safe_spillCount hE hctx hrelated hc rfl hends (by simpa using hkind)
  exact hcount.bind fun _ _ => safe_countDown hE hctx hrelated hb

theorem safe_loop (hc : Accepts exact ctx env count o) (hends : exact → count.endsInReturn = false)
    (hkind : o.isPointer = false ∧ (o.kind.isInteger = true ∨ o.kind = .unknown))
    (hb : AcceptsList exact ctx env body env') : Safe exact s (lowerLoop E lctx locals count body) fun _ => True := by
  have hcount : Safe exact s (spillCount E lctx locals false .loopCount count) fun _ => True :=
    safe_spillCount hE hctx hrelated hc rfl hends (by simpa using hkind)
  refine hcount.bind fun _ _ => ?_
  exact (routine_failIfNegative (d := 0) (by decide)).meets.andThen <| safe_countDown hE hctx hrelated hb

theorem safe_while (hc : Accepts exact ctx env cond o) (hcond : o.isCondition = true)
    (hb : AcceptsList exact ctx env body env') : Safe exact s (lowerWhile E lctx locals cond body) fun _ => True :=
  .loop (hE.condition hctx hrelated hc hcond rfl) fun _ _ => hE.block hctx hrelated hb

/-- A `for`, whose condition leaves the scope `env₂` for its block and its step. -/
theorem safe_for {init step : Expr} {env₁ env₂ env₃ env₄ : Env}
    (hi : AcceptsStatement exact ctx env init env₁)
    (hc : ∀ {locals : Locals}, Related exact env₁ locals →
      Safe exact s (forCondition E lctx locals cond) (Related exact env₂))
    (hb : AcceptsList exact ctx env₂ body env₃) (hs : AcceptsList exact ctx env₂ [step] env₄) :
    Safe exact s (lowerFor E lctx locals init cond step body) fun _ => True := by
  refine (hE.statement hctx hrelated hi).bind fun inner hinner => .loop (hc hinner) fun inner' hinner' => ?_
  exact (hE.block hctx hinner' hb).andThen (hE.block hctx hinner' hs)

theorem safe_forCondition (hc : Accepts exact ctx env cond o) (hbinding : cond.isBinding = false)
    (hcond : o.isCondition = true) : Safe exact s (forCondition E lctx locals cond) (Related exact env) := by
  unfold forCondition
  rw [hbinding]
  exact (hE.condition hctx hrelated hc hcond rfl).andThen <| .pure hrelated

/-- A condition that is declared may be no bool value to lowering. -/
theorem safe_forDeclared (hc : AcceptsStatement exact ctx env cond env')
    (hbinding : cond.isBinding = true) : Safe exact s (forCondition E lctx locals cond) (Related exact env') := by
  unfold forCondition
  rw [hbinding]
  refine (hE.statement hctx hrelated hc).bind fun inner hinner => ?_
  split
  · exact .throw (.residual rfl)
  · exact .ite (fun _ => safe_load.andThen <| .pure hinner) fun _ => .throw (.residual rfl)

omit hE hctx hrelated in
theorem safe_printText {x : String} {l : Local} : Safe exact s (printText mode x l) fun _ => True := by
  unfold printText
  split
  · exact .throw (.residual rfl)
  · exact safe_emitWith
  · exact safe_load.andThen safe_emitWith

theorem safe_printValue (h : Accepts exact ctx env e o)
    (hpointer : o.isPointer = false) : Safe exact s (printValue E lctx locals builtin mode e) fun _ => True := by
  refine (hE.expr hctx hrelated h).bind fun o' ho' => ?_
  have hword : Ends (Error.Tolerated exact) (fun _ => True) (wordPrint builtin o') := by
    unfold wordPrint
    split
    case h_5 => exact .residual rfl
    case h_6 =>
      refine Error.Tolerated.late (fun he => ?_) rfl
      rw [← (ho' he).1] at hpointer
      exact nomatch hpointer
    all_goals trivial
  exact .liftBind hword fun _ _ _ => safe_emitWith

theorem safe_print (h : Accepts exact ctx env e o)
    (hpointer : o.isPointer = false) : Safe exact s (lowerPrint E lctx locals builtin mode e) fun _ => True := by
  unfold lowerPrint
  split
  · exact safe_internText.bind fun _ _ => safe_emitWith
  case h_2 ts c =>
    refine .ite (fun hreads => ?_) fun _ => safe_printValue hE hctx hrelated h hpointer
    simp only [readsArgument, Bool.and_eq_true, Bool.or_eq_true, beq_iff_eq] at hreads
    obtain ⟨⟨hplain, hname⟩, -⟩ := hreads
    have hlookup : ∃ form, Builtin.lookup? c.name = some (.exact (.index form) 2) := by
      rcases hname with hname | hname <;> rw [hname]
      · exact ⟨true, rfl⟩
      · exact ⟨false, rfl⟩
    obtain ⟨form, hlookup⟩ := hlookup
    exact (safe_readArgument hE hctx hrelated h hplain hlookup).andThen safe_emitWith
  · split
    · exact safe_printText
    · exact safe_printValue hE hctx hrelated h hpointer

theorem safe_lowerBuiltin (hs : Accepted exact s) {ts : List Transform} (hself : Enters exact ctx (.call ts c) ctx)
    (hbinding : c.isBinding = false) (hb : c.builtin? = some b) (hshape : Check.builtinShape ctx b c = .ok ())
    (hregular : exact → c.isRegular ctx.called = true) (h : AcceptsControl exact ctx env (.call ts c) c b.cls) :
    Safe exact s (lowerBuiltin E lctx locals (.call ts c) c b.cls) fun _ => True := by
  have hvalues (hcls : b.cls ≠ .ifElse) (he : exact) (e : Expr) : e ∈ c.args → e.endsInReturn = false :=
    CallOf.ends_of_isRegular (hregular he) (by simpa [CallOf.class?, hbinding, hb] using hcls)
  have hblock := blockOf_eq hshape
  generalize hcls : b.cls = cls at h hvalues hblock
  cases h with
  | ret hargs =>
    simp only [lowerBuiltin, hargs]
    exact safe_return hE hctx hrelated (by simp)
  | retValue hargs hvoid h =>
    simp only [lowerBuiltin, hargs]
    refine safe_return hE hctx hrelated fun e he => ?_
    cases he
    exact ⟨hvoid, _, h⟩
  | ifElse hargs hc hcond hyes hno ha hb' =>
    simp only [lowerBuiltin, hargs]
    exact safe_if hE hctx hrelated hc hcond hyes hno ha hb'
  | @counted _ _ _ _ _ _ count o hloop hargs hc hkind hb' =>
    have hends (hne : cls ≠ .ifElse) (he : exact) : count.endsInReturn = false := hvalues hne he count (by simp [hargs])
    rcases hloop with rfl | rfl
    · simp only [lowerBuiltin, hargs]
      refine .okBind (hblock rfl) (safe_repeat hE hctx hrelated hc (hends (by simp)) ?_ hb')
      simpa using hkind
    · simp only [lowerBuiltin, hargs]
      refine .okBind (hblock rfl) (safe_loop hE hctx hrelated hc (hends (by simp)) ?_ hb')
      simpa using hkind
  | whileLoop hargs hc hcond hb' =>
    simp only [lowerBuiltin, hargs]
    exact .okBind (hblock rfl) (safe_while hE hctx hrelated hc hcond hb')
  | forLoop hargs hi hc hcond hbool hb' hstep =>
    simp only [lowerBuiltin, hargs]
    refine .okBind (hblock rfl) (safe_for hE hctx hrelated hi (fun hinner => ?_) hb' hstep)
    exact safe_forCondition hE hctx hinner hc hcond hbool
  | forDeclared hargs hi hc hdeclared hb' hstep =>
    simp only [lowerBuiltin, hargs]
    refine .okBind (hblock rfl) (safe_for hE hctx hrelated hi (fun hinner => ?_) hb' hstep)
    exact safe_forDeclared hE hctx hinner hc hdeclared
  | block h =>
    simp only [lowerBuiltin]
    exact .okBind (hblock rfl) (hE.block hctx hrelated h)
  | print hargs h hpointer =>
    simp only [lowerBuiltin, hargs]
    exact safe_print hE hctx hrelated h hpointer
  | heap hheap =>
    -- Neither has code, whatever its arguments are.
    have hexpr : Safe exact s (emitExpr E lctx locals (.call ts c)) fun _ => True := by
      obtain ⟨hlabels, harity, -, hrequire⟩ := Check.builtinShape_inv hshape
      refine .liftBind (hctx.inside hself) fun lctx' _ hctx' => ?_
      simp only [hbinding, hb, hlabels, Bool.false_eq_true, if_false]
      refine .okBind harity <| .liftBind (hctx'.require hrequire) fun _ _ _ => ?_
      rw [hcls]
      rcases hheap with rfl | rfl <;> exact .throw (.residual rfl)
    rcases hheap with rfl | rfl <;> exact safe_dropValue hexpr
  | value hcontrol h =>
    obtain ⟨ctx', henter, -, -, hvalue⟩ := h.ofBuiltin hb
    rw [hcls] at hvalue
    have hctx' := hctx.enter henter
    unfold lowerBuiltin
    split
    case h_9 target value hargs =>
      cases hvalue with
      | boolean hboolean => rcases hboolean with h | h | h <;> cases h
      | assignName hargs' hb' hv =>
        cases hargs.symm.trans hargs'
        exact safe_dropValue (safe_assignName hE hctx' hrelated hb' hv)
      | assign hargs' htarget ht hv =>
        cases hargs.symm.trans hargs'
        exact safe_dropValue (safe_assign hE hctx' hrelated htarget ht hv)
    case h_10 op target hargs =>
      cases hvalue with
      | boolean hboolean => rcases hboolean with h | h | h <;> cases h
      | stepName hargs' hb' hshape' hkind =>
        cases hargs.symm.trans hargs'
        exact safe_dropValue (safe_stepName hrelated hb' hshape' hkind)
      | step hargs' htarget ht hkind =>
        cases hargs.symm.trans hargs'
        exact safe_dropValue (safe_step hE hctx' hrelated htarget ht hkind)
    case h_11 => exact safe_dropValue (safe_expr hs hE hctx hrelated h)
    all_goals cases hcontrol

theorem safe_statement (hs : Accepted exact s) (h : AcceptsStatement exact ctx env e env') :
    Safe exact s (lowerStatement E lctx locals e) (Related exact env') := by
  unfold lowerStatement
  cases h with
  | @binding _ ctx' _ ts c b henter hbinding hregular h =>
    refine .liftBind (hctx.inside henter) fun lctx' _ hctx' => ?_
    have hclass : c.class? ≠ some .ifElse := by simp [CallOf.class?, hbinding]
    have hdeclares := Declares.of_binding hctx'.sited h fun he i hi =>
      CallOf.ends_of_isRegular (hregular he) hclass (List.mem_of_head? hi)
    simp only [hbinding, if_true]
    have hplain (he : exact) (h : false = true) : BindingType.declared? ctx'.scope [] ts ≠ .ok none := by cases h
    have hbound := safe_bindLocal hE hctx' hrelated hbinding hdeclares (fun he _ => hctx'.sited.home he) hplain
    refine hbound.bind ?_
    rintro ⟨x, l⟩ ⟨rfl, hl⟩
    exact .pure (hrelated.cons hl)
  | @builtin _ ctx' _ ts c b henter hbinding hb hshape hregular h =>
    refine .liftBind (hctx.inside henter) fun lctx' _ hctx' => ?_
    obtain ⟨hlabels, harity, hbody, hrequire⟩ := Check.builtinShape_inv hshape
    have htakes : (c.body.isSome && !b.cls.takesBody) = false := by simp [hbody]
    simp only [hbinding, hb, hlabels, htakes, Bool.false_eq_true, if_false]
    refine .okBind harity <| .liftBind (hctx'.require hrequire) fun _ _ _ => ?_
    exact (safe_lowerBuiltin hE hctx' hrelated hs henter.again hbinding hb hshape hregular h).andThen <| .pure hrelated
  | @call _ ctx' _ ts c d henter hbinding hb hregular h =>
    refine .liftBind (hctx.inside henter) fun lctx' _ hctx' => ?_
    simp only [hbinding, hb, Bool.false_eq_true, if_false]
    have hends (he : exact) (e : Expr) : e ∈ c.args → e.endsInReturn = false :=
      CallOf.ends_of_isRegular (hregular he) (by simp [CallOf.class?, hb])
    refine (safe_callee hctx' hrelated h hregular hbinding hb).bind ?_
    rintro d' ⟨hd', heq, hreached⟩
    exact (safe_expand hs hE hctx' hrelated h hends hd' heq hreached).bind fun _ _ => .pure hrelated
  | value henter hcall h =>
    refine .liftBind (hctx.inside henter) fun lctx' _ hctx' => ?_
    split
    case h_1 => cases hcall
    case h_2 => exact (safe_dropValue (safe_expr hs hE hctx' hrelated h)).andThen <| .pure hrelated

end

theorem Emitter.agrees_atDepth (hs : Accepted exact s) (n : Nat) : (Emitter.atDepth n).Agrees exact s := by
  induction n with
  | zero => exact ⟨fun _ _ _ => .throw (.tooDeep rfl), fun _ _ _ => .throw (.tooDeep rfl)⟩
  | succ n ih =>
    exact ⟨fun hctx hrelated h => safe_expr hs ih hctx hrelated h, fun hctx hrelated h =>
      safe_statement ih hctx hrelated hs h⟩

end
end Lower
end FlatCode
