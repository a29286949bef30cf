import FlatCode.Proofs.Agreement.Expansion

/-! Lowering what is accepted: expressions. Each leaves the operand for which it is accepted. -/

namespace FlatCode.Lower
open Stateful
open Check (Env Accepts AcceptsAll AcceptsBlock AcceptsBuiltin AcceptsCall AcceptsPointer Enters Setting)

variable {op : ArithmeticOp} {c : Call} {b : Check.Binding} {d : Definition} {e r target value : Expr} {k : Kind}
  {operands : List Operand} {ts : List Transform} {l : Local} {o oe ol or ov : Operand} {builtin x : String}

section
variable {exact : Prop} {s : Setting} {ctx : Check.Context} {lctx : Context} {env : Env} {locals : Locals}

theorem ends_literalPush {l : Literal} : Ends (Error.Tolerated exact) (fun _ => True) (literalPush l) := by
  unfold literalPush
  split
  case h_1 =>
    split
    · trivial
    · exact .residual rfl
  case h_7 => exact .residual rfl
  all_goals trivial

theorem safe_literalValue {l : Literal} :
    Safe exact s (emitLiteralValue l) fun o => exact → o = .value (Kind.ofLiteral l) ∧ o.target ≠ .unknown :=
  .liftBind ends_literalPush fun _ _ _ => safe_emitWith.andThen <| .pure fun _ => ⟨rfl, Kind.ofLiteral_ne_unknown l⟩

theorem safe_local : Safe exact s (emitLocal l) (· = l.operand) :=
  safe_load.andThen <| .ite (fun _ => safe_emitWith.andThen <| .pure rfl) fun _ => .pure rfl

section
variable (hrelated : Related exact env locals)
include hrelated

theorem safe_location (hb : env.lookup x = some b) :
    Safe exact s (emitLocation locals (.name ts x))
      fun o => exact → o = .pointer b.type.kind ∧ o.target ≠ .unknown := by
  refine .liftBind (ends_addressable hrelated hb) fun l _ hl => .check (fun _ => .residual rfl) fun _ => ?_
  have hresult (he : exact) : Operand.pointer l.type.kind = .pointer b.type.kind ∧
      (Operand.pointer l.type.kind).target ≠ .unknown := by
    rw [(hl he).1]
    exact ⟨rfl, (hl he).2.kind⟩
  exact .ite (fun _ => safe_load.andThen <| .pure hresult) fun _ => safe_emitWith.andThen <| .pure hresult

end

/-- What is accepted for a step can be changed by one. -/
theorem ends_stepWidth {k' : Kind} (h : k.isNumeric = true ∨ k = .unknown) (hk : exact → k' = k ∧ k ≠ .unknown) :
    Ends (Error.Tolerated exact) (fun _ => True) (stepWidth builtin k') := by
  have hnumeric (he : exact) : k'.isNumeric = true := by
    obtain ⟨rfl, hknown⟩ := hk he
    exact h.resolve_right hknown
  unfold stepWidth
  split
  · split
    · trivial
    case isFalse hno => exact Error.Tolerated.late (fun he => hno (hnumeric he)) rfl
  case h_2 hwidth =>
    refine Error.Tolerated.late (fun he => ?_) rfl
    have hnumeric := hnumeric he
    revert hwidth hnumeric
    cases k' <;> decide

theorem safe_stepIndirect {w : Width} {address : Nat} : Safe exact s (stepIndirect op w address) fun _ => True :=
  (routine_stepIndirect (d := 0)).meets

theorem safe_stepLocal
    (hl : exact → l.type = b.type ∧ b.type.Settled) (hshape : b.type.shape = .value ∨ b.type.shape = .reference)
    (hkind : b.type.kind.isNumeric = true ∨ b.type.kind = .unknown) :
    Safe exact s (stepLocal builtin op l) fun o => exact → o = .value b.type.kind ∧ o.target ≠ .unknown := by
  have hresult (he : exact) : Operand.value l.type.kind = .value b.type.kind ∧
      (Operand.value l.type.kind).target ≠ .unknown := by
    rw [(hl he).1]
    exact ⟨rfl, (hl he).2.kind⟩
  refine .liftBind (ends_stepWidth hkind fun he => ⟨by rw [(hl he).1], (hl he).2.kind⟩) fun w _ _ => ?_
  split
  · exact safe_load.andThen <| (routine_stepTop (d := 0)).meets.andThen <| safe_emitWith.andThen <|
      safe_store.andThen <| .pure hresult
  · exact safe_stepIndirect.andThen <| .pure hresult
  case h_3 hvalue hreference =>
    refine .throw (.late (fun he => ?_) rfl)
    rw [(hl he).1] at hvalue hreference
    exact hshape.elim hvalue hreference

section
variable {E : Emitter} (hE : E.Agrees exact s) (hctx : Follows exact s ctx lctx) (hrelated : Related exact env locals)
include hE hctx hrelated

theorem safe_arithmetic {l : Expr} (hl : Accepts exact ctx env l ol)
    (hr : Accepts exact ctx env r or) (hends : exact → l.endsInReturn = false ∧ r.endsInReturn = false)
    (h : ol ≠ .unknown → or ≠ .unknown → ∃ resolution, op.resolve ol or = .ok resolution ∧ o = resolution.result) :
    Safe exact s (emitArithmetic E lctx locals op l r) fun o' => exact → o' = o ∧ o.target ≠ .unknown := by
  refine (hctx.operand hrelated hl).bind fun ol' hol => (hctx.operand hrelated hr).bind fun or' hor => ?_
  have hresolve := ends_resolve (hol.value fun he => (hends he).1) h (hor.value fun he => (hends he).2)
  refine .liftBind hresolve fun resolution _ hresult => ?_
  cases resolution with
  | numeric w =>
    exact (hE.exprAt hctx hrelated hl).andThen <| (hE.exprAt hctx.behind hrelated hr).andThen <|
      safe_emitWith.andThen <| .pure hresult
  | pointer target =>
    exact (hE.expr hctx hrelated hl).bind fun _ _ => (hE.expr hctx.behind hrelated hr).bind fun _ _ =>
      safe_emitWith.andThen <| .pure hresult

theorem safe_negate (he : Accepts exact ctx env e oe)
    (hends : exact → e.endsInReturn = false) (h : oe ≠ .unknown → ∃ w, resolveNegate oe = .ok w ∧ o = .value w.kind) :
    Safe exact s (emitNegate E lctx locals e) fun o' => exact → o' = o ∧ o.target ≠ .unknown := by
  refine (hctx.operand hrelated he).bind fun oe' hoe => ?_
  refine .liftBind (ends_resolveNegate (hoe.value hends) h) fun w hw hresult => ?_
  obtain ⟨op, hop⟩ := negate?_of_resolveNegate hw
  rw [hop]
  exact (hE.exprAt hctx hrelated he).andThen <| safe_emitWith.andThen <| .pure hresult

theorem safe_comparison {op : ComparisonOp} {l : Expr} (hl : Accepts exact ctx env l ol)
    (hr : Accepts exact ctx env r or) (hends : exact → l.endsInReturn = false ∧ r.endsInReturn = false)
    (h : ol ≠ .unknown → or ≠ .unknown → ∃ w, resolveComparison ol or = .ok w) :
    Safe exact s (emitComparison E lctx locals op l r) (· = .value .bool) := by
  refine (hctx.operand hrelated hl).bind fun ol' hol => (hctx.operand hrelated hr).bind fun or' hor => ?_
  have hresolve := ends_resolveComparison (hol.value fun he => (hends he).1) h (hor.value fun he => (hends he).2)
  refine .liftBind hresolve fun w _ _ => ?_
  exact (hE.exprAt hctx hrelated hl).andThen <| (hE.exprAt hctx.behind hrelated hr).andThen <|
    safe_emitWith.andThen <| .pure rfl

theorem safe_bool (h : Accepts exact ctx env e o) (hcond : o.isCondition = true) :
    Safe exact s (emitBool E lctx locals e) fun _ => True := hE.condition hctx hrelated h hcond rfl

theorem safe_convert (hk : c.convertTarget = .ok k) (he : Accepts exact ctx env e oe) (h : oe.isPointer = false) :
    Safe exact s (emitConvert E lctx locals c e) (· = .value k) := by
  refine .okBind hk <| (hE.expr hctx hrelated he).bind fun oe' hoe => .check (fun hp => .late (fun hexact => ?_) rfl)
    fun _ => .liftBind ends_widthOf fun w _ _ => .ite (fun _ => ?_) fun _ => .liftBind ends_widthOf fun _ _ _ => ?_
  · rw [(hoe hexact).1, h] at hp
    exact nomatch hp
  · exact safe_emitWith.andThen <| safe_emitWith.andThen <| .pure rfl
  · exact safe_coerce.andThen <| .pure rfl

omit hE in
theorem safe_operands {l : List Expr} (h : AcceptsAll exact ctx env l operands)
    (hends : exact → ∀ e ∈ l, e.endsInReturn = false) :
    Safe exact s (l.mapM (lctx.operand locals))
      fun os => exact → os = operands ∧ ∀ o ∈ operands, o.target ≠ .unknown := by
  induction l generalizing operands with
  | nil =>
    cases h
    exact .pure fun _ => ⟨rfl, nofun⟩
  | cons e l ih =>
    cases h with
    | cons h hl =>
      rw [List.mapM_cons]
      refine (hctx.operand hrelated h).bind fun o ho => ?_
      refine (ih hl fun he x hx => hends he x (List.mem_cons_of_mem _ hx)).bind fun os hos => .pure fun he => ?_
      obtain ⟨rfl, hknown⟩ := ho he
      obtain ⟨rfl, hknowns⟩ := hos he
      exact ⟨rfl, List.forall_mem_cons.mpr ⟨hknown (hends he e List.mem_cons_self), hknowns⟩⟩

theorem safe_math {f : MathFunction} (hargs : AcceptsAll exact ctx env c.args operands)
    (hends : exact → ∀ e ∈ c.args, e.endsInReturn = false) (harity : c.args.length = f.arity)
    (h : .unknown ∉ operands → ∃ w, resolveMath c.name operands = .ok w ∧ o = .value w.kind) :
    Safe exact s (emitMath E lctx locals c f) fun o' => exact → o' = o ∧ o.target ≠ .unknown := by
  refine (safe_operands hctx hrelated hargs hends).bind fun os hos => ?_
  refine .liftBind (ends_resolveMath h hos) fun w _ hresult => ?_
  have hslots : Safe exact s (c.args.mapM fun e => do E.exprAt lctx locals e w; spill)
      fun slots => slots.length = c.args.length := by
    refine .mapM fun e he => ?_
    obtain ⟨i, hi⟩ := List.getElem?_of_mem he
    obtain ⟨o, -, ho⟩ := hargs.getElem? hi
    exact (hE.exprAt hctx hrelated ho).andThen (routine_spill (d := 0)).meets
  refine hslots.bind fun slots hlength => ?_
  exact (routine_applyMath_of_length (d := 0) (fun _ => trivial) (hlength.trans harity)).meets.andThen <| .pure hresult

theorem safe_pointer (h : AcceptsPointer exact ctx env e k) (hends : exact → e.endsInReturn = false) :
    Safe exact s (emitPointer E lctx locals e) fun k' => exact → k' = k ∧ k ≠ .unknown := by
  unfold emitPointer
  obtain ⟨hfound, hother⟩ := reference_or_accepts hrelated h
  split
  case h_1 l hl => exact safe_load.andThen <| .pure (hfound l hl)
  case h_2 hl =>
    obtain ⟨o, ho, heq⟩ := hother hl
    refine (hE.expr hctx hrelated ho).bind fun o' ho' => ?_
    have ho' := ho'.pointer heq hends
    cases o' with
    | pointer k' => exact .pure fun he => ⟨Operand.pointer.inj (ho' he).1, (ho' he).2⟩
    | value k' => exact .throw (.late (fun he => Operand.noConfusion (ho' he).1) rfl)

theorem safe_dereference (h : AcceptsPointer exact ctx env e k) (hends : exact → e.endsInReturn = false) :
    Safe exact s (emitDereference E lctx locals e) fun o => exact → o = .value k ∧ k ≠ .unknown :=
  (safe_pointer hE hctx hrelated h hends).bind fun _ hk => safe_emitWith.andThen <| .pure fun he =>
    ⟨by rw [(hk he).1], (hk he).2⟩

theorem safe_assignLocal
    (hl : exact → l.type = b.type ∧ b.type.Settled) (hv : Accepts exact ctx env value ov) :
    Safe exact s (assignLocal E lctx locals x l value) fun o => exact → o = b.operand ∧ b.operand.target ≠ .unknown := by
  have hresult (hshape : l.type.shape.isCollection = false) (he : exact) :
      l.operand = b.operand ∧ b.operand.target ≠ .unknown := by
    have hoperand := Local.operand_eq (hl he).1 hshape
    refine ⟨hoperand, ?_⟩
    rw [← hoperand, Local.target_operand, (hl he).1]
    exact (hl he).2.kind
  unfold assignLocal
  refine .check (fun _ => .residual rfl) fun _ => ?_
  split
  case h_1 hshape =>
    have hresult := hresult (by rw [hshape]; rfl)
    exact safe_load.andThen <| (hE.expr hctx.behind hrelated hv).bind fun _ _ => safe_coerce.andThen <|
      safe_emitWith.andThen <| .pure hresult
  case h_2 hshape =>
    have hresult := hresult (by rw [hshape]; rfl)
    exact (hE.expr hctx hrelated hv).bind fun _ _ => safe_emitWith.andThen <| safe_store.andThen <| .pure hresult
  case h_3 hshape =>
    have hresult := hresult (by rw [hshape]; rfl)
    exact (hE.expr hctx hrelated hv).bind fun _ _ => safe_coerce.andThen <| safe_emitWith.andThen <|
      safe_store.andThen <| .pure hresult
  all_goals exact .throw (.residual rfl)

omit hE hctx hrelated in
theorem dereferenced?_eq {pointer : Expr} (hcall : (Expr.call ts c).isCallTo "dereference" = true)
    (hargs : c.args = [pointer]) : dereferenced? (.call ts c) = some pointer := by
  simp [dereferenced?, hargs, hcall]

theorem safe_assignName (hb : env.lookup x = some b) (hv : Accepts exact ctx env value ov) :
    Safe exact s (emitAssign E lctx locals (.name ts x) value)
      fun o => exact → o = b.operand ∧ b.operand.target ≠ .unknown :=
  .liftBind (ends_mutableLocal hrelated hb) fun _ _ hl => safe_assignLocal hE hctx hrelated hl hv

theorem safe_assign (htarget : target.isCallTo "dereference" = true)
    (ht : Accepts exact ctx env target o) (hv : Accepts exact ctx env value ov) :
    Safe exact s (emitAssign E lctx locals target value) fun o' => exact → o' = o ∧ o.target ≠ .unknown := by
  obtain ⟨ts, c, ctx', pointer, k, rfl, hargs, henter, hpointer, rfl, hends⟩ := accepts_dereference ht htarget
  unfold emitAssign
  dsimp only
  rw [dereferenced?_eq htarget hargs]
  refine (safe_pointer hE (hctx.enter henter) hrelated hpointer hends).bind fun k' hk => ?_
  exact (hE.expr hctx.behind hrelated hv).bind fun _ _ => safe_coerce.andThen <| safe_emitWith.andThen <|
    .pure fun he => ⟨by rw [(hk he).1], (hk he).2⟩

omit hE hctx in
theorem safe_stepName (hb : env.lookup x = some b) (hshape : b.type.shape = .value ∨ b.type.shape = .reference)
    (hkind : b.type.kind.isNumeric = true ∨ b.type.kind = .unknown) :
    Safe exact s (emitStep E lctx locals builtin op (.name ts x))
      fun o => exact → o = .value b.type.kind ∧ o.target ≠ .unknown :=
  .liftBind (ends_mutableLocal hrelated hb) fun _ _ hl => safe_stepLocal hl hshape hkind

theorem safe_step (htarget : target.isCallTo "dereference" = true) (ht : Accepts exact ctx env target o)
    (hkind : o.kind.isNumeric = true ∨ o.kind = .unknown) :
    Safe exact s (emitStep E lctx locals builtin op target)
      fun o' => exact → o' = .value o.kind ∧ o'.target ≠ .unknown := by
  obtain ⟨ts, c, ctx', pointer, k, rfl, hargs, henter, hpointer, rfl, hends⟩ := accepts_dereference ht htarget
  unfold emitStep
  dsimp only
  rw [dereferenced?_eq htarget hargs]
  refine (safe_pointer hE (hctx.enter henter) hrelated hpointer hends).bind fun k' hk => ?_
  refine .liftBind (ends_stepWidth hkind hk) fun w _ _ => (routine_spill (d := 0)).meets.bind fun _ _ => ?_
  refine safe_stepIndirect.andThen <| .pure fun he => ?_
  obtain ⟨rfl, hknown⟩ := hk he
  exact ⟨rfl, hknown⟩

theorem safe_branchValue {result : Operand} {branch : Expr} {body : List Expr}
    (hbody : Returns.branchBody branch = .ok body) (h : AcceptsBlock exact ctx env body o) :
    Safe exact s (emitBranch E lctx locals result branch) fun _ => True :=
  .okBind hbody <| (hE.blockValue hctx hrelated h).bind fun _ _ => safe_coerce

theorem safe_ifValue {cond yes no : Expr} {ys ns : List Expr} {oc a b : Operand} (hargs : c.args = [cond, yes, no])
    (hc : Accepts exact ctx env cond oc) (hcond : oc.isCondition = true) (hyes : Returns.branchBody yes = .ok ys)
    (hno : Returns.branchBody no = .ok ns) (ha : AcceptsBlock exact ctx env ys a)
    (hb : AcceptsBlock exact ctx env ns b) (hmerge : Check.mergeBranches a b = .ok o) :
    Safe exact s (emitIfValue E lctx locals c cond yes no) fun o' => exact → o' = o ∧
      ((yes.branchEndsInReturn && no.branchEndsInReturn) = false → o.target ≠ .unknown) := by
  unfold emitIfValue
  rw [hctx.scope]
  have hinfer := infers_if hctx.inferrer hctx.sited hrelated hargs hyes hno ha hb hmerge
  refine (Meets.infer hinfer (.tooDeep rfl)).bind fun result hresult => ?_
  refine (hE.condition hctx hrelated hc hcond rfl).andThen ?_
  exact (Meets.branch (safe_branchValue hE hctx hrelated hyes ha) (safe_branchValue hE hctx hrelated hno hb)).bind
    fun _ _ => .pure hresult

omit hE hctx hrelated in
/-- The operands of a builtin that takes them all alike. -/
theorem length_of_shape {b : Builtin} {n : Nat} (hb : c.builtin? = some b)
    (hshape : Check.builtinShape ctx b c = .ok ()) (hn : b.cls.arity? = some n) : c.args.length = n :=
  Builtin.eq_of_checkArity (CallOf.lookup?_of_builtin? hb) hn (Check.builtinShape_inv hshape).2.1

theorem safe_boolean {b : Builtin} (hcls : b.cls = .conjunction ∨ b.cls = .disjunction ∨ b.cls = .not)
    (hb : c.builtin? = some b) (hshape : Check.builtinShape ctx b c = .ok ())
    (hargs : AcceptsAll exact ctx env c.args operands) (hconds : ∀ o ∈ operands, o.isCondition = true) :
    Safe exact s (emitBuiltin E lctx locals c b.cls) (· = .value .bool) := by
  have hbool {e : Expr} (he : e ∈ c.args) : Safe exact s (emitBool E lctx locals e) fun _ => True := by
    obtain ⟨i, hi⟩ := List.getElem?_of_mem he
    obtain ⟨o, ho, h⟩ := hargs.getElem? hi
    exact safe_bool hE hctx hrelated h (hconds o (List.mem_of_getElem? ho))
  have hpair (hn : b.cls.arity? = some 2) : ∃ l r, c.args = [l, r] := by
    have hlength := length_of_shape hb hshape hn
    match c.args, hlength with
    | [l, r], _ => exact ⟨l, r, rfl⟩
  rcases hcls with hcls | hcls | hcls
  · obtain ⟨l, r, heq⟩ := hpair (by rw [hcls]; rfl)
    simp only [emitBuiltin, hcls, heq]
    refine (hbool (by simp [heq])).andThen ?_
    exact (Meets.branch (hbool (by simp [heq])) safe_emitWith).bind fun _ _ => .pure rfl
  · obtain ⟨l, r, heq⟩ := hpair (by rw [hcls]; rfl)
    simp only [emitBuiltin, hcls, heq]
    refine (hbool (by simp [heq])).andThen ?_
    exact (Meets.branch safe_emitWith (hbool (by simp [heq]))).bind fun _ _ => .pure rfl
  · obtain ⟨e, heq⟩ := List.length_eq_one_iff.mp (length_of_shape hb hshape (n := 1) (by rw [hcls]; rfl))
    simp only [emitBuiltin, hcls, heq]
    exact (hbool (by simp [heq])).andThen <| safe_emitWith.andThen <| safe_emitWith.andThen <| .pure rfl

theorem safe_builtin {b : Builtin} (hbinding : c.isBinding = false)
    (hb : c.builtin? = some b) (hshape : Check.builtinShape ctx b c = .ok ()) (hregular : exact → c.isRegular ctx.called = true)
    (h : AcceptsBuiltin exact ctx env c b.cls o) :
    Safe exact s (emitBuiltin E lctx locals c b.cls) (Leaves exact (.call ts c) o) := by
  have hvalues (hcls : b.cls ≠ .ifElse) (he : exact) (e : Expr) : e ∈ c.args → e.endsInReturn = false :=
    CallOf.ends_of_isRegular (hregular he) (by simpa [CallOf.class?, hbinding, hb] using hcls)
  generalize hcls : b.cls = cls at h hvalues
  cases h with
  | @arithmetic _ _ _ op l r ol or o hargs hl hr h =>
    have hends (he : exact) : l.endsInReturn = false ∧ r.endsInReturn = false :=
      ⟨hvalues (by simp) he l (by simp [hargs]), hvalues (by simp) he r (by simp [hargs])⟩
    simp only [emitBuiltin, hargs]
    exact (safe_arithmetic hE hctx hrelated hl hr hends h).mono fun _ => .known
  | @negate _ _ _ e oe o hargs he h =>
    simp only [emitBuiltin, hargs]
    refine (safe_negate hE hctx hrelated he (fun hexact => ?_) h).mono fun _ => .known
    exact hvalues (by simp) hexact e (by simp [hargs])
  | @comparison _ _ _ op l r ol or hargs hl hr h =>
    have hends (he : exact) : l.endsInReturn = false ∧ r.endsInReturn = false :=
      ⟨hvalues (by simp) he l (by simp [hargs]), hvalues (by simp) he r (by simp [hargs])⟩
    simp only [emitBuiltin, hargs]
    exact (safe_comparison hE hctx hrelated hl hr hends h).mono fun _ ho => .known fun _ => ⟨ho, by decide⟩
  | boolean hboolean hargs hconds =>
    subst hcls
    exact (safe_boolean hE hctx hrelated hboolean hb hshape hargs hconds).mono fun _ ho => .known fun _ => ⟨ho, by decide⟩
  | @math _ _ _ f operands o hargs h =>
    have harity := length_of_shape hb hshape (n := f.arity) (by rw [hcls]; rfl)
    simp only [emitBuiltin]
    exact (safe_math hE hctx hrelated hargs (hvalues (by simp)) harity h).mono fun _ => .known
  | convert hargs hk he h =>
    simp only [emitBuiltin, hargs]
    refine (safe_convert hE hctx hrelated hk he h).mono fun _ ho => .known fun _ => ⟨ho, ?_⟩
    exact CallOf.known_of_convertTarget hk
  | location hargs hb' =>
    simp only [emitBuiltin, hargs]
    refine (safe_location hrelated hb').mono fun _ ho => .known fun he => ⟨(ho he).1, ?_⟩
    exact (ho he).1 ▸ (ho he).2
  | @dereference _ _ _ e k hargs hpointer =>
    simp only [emitBuiltin, hargs]
    refine (safe_dereference hE hctx hrelated hpointer fun he => ?_).mono fun _ => .known
    exact hvalues (by simp) he e (by simp [hargs])
  | assignName hargs hb' hv =>
    simp only [emitBuiltin, hargs]
    exact (safe_assignName hE hctx hrelated hb' hv).mono fun _ => .known
  | assign hargs htarget ht hv =>
    simp only [emitBuiltin, hargs]
    exact (safe_assign hE hctx hrelated htarget ht hv).mono fun _ => .known
  | stepName hargs hb' hshape' hkind =>
    simp only [emitBuiltin, hargs]
    refine (safe_stepName hrelated hb' hshape' hkind).mono fun _ ho => .known fun he => ⟨(ho he).1, ?_⟩
    exact (ho he).1 ▸ (ho he).2
  | step hargs htarget ht hkind =>
    simp only [emitBuiltin, hargs]
    refine (safe_step hE hctx hrelated htarget ht hkind).mono fun _ ho => .known fun he => ⟨(ho he).1, ?_⟩
    exact (ho he).1 ▸ (ho he).2
  | ifElse hargs hc hcond hyes hno ha hb' hmerge =>
    simp only [emitBuiltin, hargs]
    refine (safe_ifValue hE hctx hrelated hargs hc hcond hyes hno ha hb' hmerge).mono fun _ ho => ?_
    exact .of_branches hbinding hb hcls hargs ho
  | block h =>
    simp only [emitBuiltin]
    exact (hE.blockValue hctx hrelated h).mono fun _ ho => .of_block hbinding hb hcls ho
  | count hargs ht =>
    simp only [emitBuiltin, hargs]
    exact (safe_count hE hctx hrelated ht).mono fun _ ho => .known fun _ => ⟨ho, by decide⟩
  | @index _ _ _ checked target position ot op o collection hargs ht hp hcollection hindex ho =>
    simp only [emitBuiltin, hargs]
    refine (safe_index hE hctx hrelated hargs ?_ (hvalues (by simp))).mono fun _ => .known
    exact .index hargs ht hp hcollection hindex ho
  | collection => exact .throw (.residual rfl)
  | heap => exact .throw (.residual rfl)

omit hE in
theorem safe_callee (h : AcceptsCall exact ctx env c d) (hregular : exact → c.isRegular ctx.called = true)
    (hbinding : c.isBinding = false) (hb : c.builtin? = none) :
    Safe exact s (lctx.callee locals c)
      fun d' => d' ∈ s.scope.definitions ∧ (exact → d' = d) ∧ (exact → Reached s d'.path) := by
  unfold Context.callee
  rw [hctx.scope]
  cases h with
  | mk hmeans _ _ hargs _ =>
    have hcallee := infers_callee hctx.inferrer hctx.sited hrelated hmeans hargs hregular
    refine .infer (hcallee.mono fun d' ⟨hd', heq⟩ => ⟨hd', heq, fun he => ?_⟩) (.tooDeep rfl)
    exact heq he ▸ reached_of_means hctx.sited hmeans hregular hbinding hb he

theorem safe_call (hs : Accepted exact s) (h : AcceptsCall exact ctx env c d)
    (hregular : exact → c.isRegular ctx.called = true) (hbinding : c.isBinding = false) (hb : c.builtin? = none)
    (ho : o = .value .int32 ∧ d.isStruct = true ∨ d.isStruct = false ∧ ∃ info, d.Gives info ∧ o = .value info.kind) :
    Safe exact s (emitCall E lctx locals c) fun o' => exact → o' = o ∧ o.target ≠ .unknown := by
  have hends (he : exact) (e : Expr) : e ∈ c.args → e.endsInReturn = false :=
    CallOf.ends_of_isRegular (hregular he) (by simp [CallOf.class?, hb])
  refine (safe_callee hctx hrelated h hregular hbinding hb).bind ?_
  rintro d' ⟨hd', heq, hreached⟩
  refine (safe_expand hs hE hctx hrelated h hends hd' heq hreached).bind fun kind hkind => ?_
  cases kind with
  | none => exact .throw (.residual rfl)
  | some k =>
    refine .pure fun he => ?_
    rcases hkind he k rfl with ⟨rfl, hstruct⟩ | ⟨hstruct, info, hinfo, hvalue, rfl⟩
    · rcases ho with ⟨rfl, -⟩ | ⟨hno, -⟩
      · exact ⟨rfl, by rintro ⟨⟩⟩
      · cases hstruct.symm.trans hno
    · rcases ho with ⟨-, hno⟩ | ⟨-, info', hinfo', rfl⟩
      · cases hstruct.symm.trans hno
      · have hd := hs.regular he d (heq he ▸ hd') hstruct (heq he ▸ hreached he)
        rw [hinfo'.unique (fun _ => hd) hinfo]
        exact ⟨rfl, hinfo.kind_ne_unknown hd hvalue⟩

end

theorem safe_expr (hs : Accepted exact s) {E : Emitter} (hE : E.Agrees exact s) (hctx : Follows exact s ctx lctx)
    (hrelated : Related exact env locals) (h : Accepts exact ctx env e o) :
    Safe exact s (emitExpr E lctx locals e) (Leaves exact e o) := by
  unfold emitExpr
  cases h with
  | literal henter =>
    refine .liftBind (hctx.inside henter) fun lctx' _ _ => safe_literalValue.mono fun _ ho => .known fun he => ?_
    exact ⟨(ho he).1, (ho he).1 ▸ (ho he).2⟩
  | name henter hb =>
    refine .liftBind (hctx.inside henter) fun lctx' _ _ => .liftBind (ends_readable hrelated hb) fun l _ hl => ?_
    exact safe_local.mono fun o' ho' => .known fun he => ⟨ho'.trans (hl he).1, (hl he).2⟩
  | builtin henter hbinding hb hshape hregular hvalue =>
    refine .liftBind (hctx.inside henter) fun lctx' _ hctx' => ?_
    obtain ⟨hlabels, harity, -, hrequire⟩ := Check.builtinShape_inv hshape
    simp only [hbinding, hb, hlabels, Bool.false_eq_true, if_false]
    refine .okBind harity <| .liftBind (hctx'.require hrequire) fun _ _ _ => ?_
    exact safe_builtin hE hctx' hrelated hbinding hb hshape hregular hvalue
  | call henter hbinding hb hregular hcall ho =>
    refine .liftBind (hctx.inside henter) fun lctx' _ hctx' => ?_
    simp only [hbinding, hb, Bool.false_eq_true, if_false]
    exact (safe_call hE hctx' hrelated hs hcall hregular hbinding hb ho).mono fun _ => .known

end
end FlatCode.Lower
