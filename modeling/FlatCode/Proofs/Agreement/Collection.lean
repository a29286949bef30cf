import FlatCode.Proofs.Agreement.Inference

/-! Lowering what is accepted: how the context of lowering follows that of the check, what is asked of the emitter, and
    collections. -/

namespace FlatCode.Lower
open Stateful
open Check (Env Accepts AcceptsAll AcceptsBlock AcceptsBuiltin AcceptsList AcceptsStatement Enters Setting)

abbrev Safe {α : Type} (exact : Prop) (s : Setting) (m : Lowering α) (Q : α → Prop) : Prop :=
  Meets (ReturnCache.Sound exact s.scope.definitions) (Error.Tolerated exact) m Q

/-- The context of lowering follows that of the check. In a regular program it has at least the same effects, and the
    entry is not expanded again. -/
structure Follows (exact : Prop) (s : Setting) (ctx : Check.Context) (lctx : Context) : Prop where
  sited : Sited exact s ctx lctx.site
  scope : lctx.scope = s.scope
  inferrer : lctx.inferrer.Agrees exact s
  defaults : lctx.defaults = s.defaults
  effects : exact → ∀ x, ctx.effects.contains x = true → lctx.effects.contains x = true
  returns : exact → ∀ returns, lctx.target = .run returns → returns.isVoid = ctx.returns.isVoid
  expanding : exact → s.entry ∈ lctx.expanding

structure Emitter.Agrees (exact : Prop) (s : Setting) (E : Emitter) : Prop where
  expr : ∀ {ctx : Check.Context} {lctx : Context} {env : Env} {locals : Locals} {e : Expr} {o : Operand},
    Follows exact s ctx lctx → Related exact env locals → Accepts exact ctx env e o →
      Safe exact s (E.expr lctx locals e) (Leaves exact e o)
  statement : ∀ {ctx : Check.Context} {lctx : Context} {env env' : Env} {locals : Locals} {e : Expr},
    Follows exact s ctx lctx → Related exact env locals → AcceptsStatement exact ctx env e env' →
      Safe exact s (E.statement lctx locals e) (Related exact env')

variable {type : BindingType} {checked form : Bool} {c : Call} {e position target : Expr} {operands : List Operand}
  {slot : Nat} {o op ot : Operand} {builtin : String}

section
variable {exact : Prop} {s : Setting} {ctx ctx' : Check.Context} {lctx : Context} {env : Env} {locals : Locals}

namespace Follows

theorem behind (h : Follows exact s ctx lctx) : Follows exact s ctx lctx.behind :=
  ⟨h.sited, h.scope, h.inferrer, h.defaults, h.effects, h.returns, h.expanding⟩

/-- The effects of lowering may be wider, so that an annotation may be passed over. -/
theorem enter {e : Expr} (h : Follows exact s ctx lctx) (henter : Enters exact ctx e ctx') :
    Follows exact s ctx' lctx := by
  have heffects (he : exact) (x : Effect) (hx : ctx'.effects.contains x = true) : lctx.effects.contains x = true :=
    h.effects he x (henter.effects he hx)
  have hsited := h.sited.enter henter
  obtain ⟨effects, rfl, -⟩ := henter
  exact ⟨hsited, h.scope, h.inferrer, h.defaults, heffects, h.returns, h.expanding⟩

theorem inside {e : Expr} (h : Follows exact s ctx lctx) (henter : Enters exact ctx e ctx') :
    Ends (Error.Tolerated exact) (Follows exact s ctx') (lctx.inside e) := by
  have hsited := h.sited.enter henter
  obtain ⟨effects, rfl, hinside⟩ := henter
  have heffects : Ends (Error.Tolerated exact)
      (fun effects' => exact → ∀ x, effects.contains x = true → effects'.contains x = true)
      (lctx.effects.inside lctx.home e) := by
    refine .late (fun he => ?_) fun err herr => ?_
    · obtain ⟨outer, houter, hmono⟩ := EffectSet.inside_mono (hinside he) (h.effects he)
      have hhome : lctx.home = ctx.home := h.sited.home he
      exact ⟨outer, hhome ▸ houter, hmono⟩
    · obtain ⟨cause, rfl⟩ := EffectSet.effect_of_inside herr
      rfl
  unfold Context.inside
  exact heffects.bind fun effects' _ h' => ⟨hsited, h.scope, h.inferrer, h.defaults, h', h.returns, h.expanding⟩

theorem require {name : String} (h : Follows exact s ctx lctx) (hrequire : ctx.effects.require name = .ok ()) :
    Ends (Error.Tolerated exact) (fun _ => True) (lctx.effects.require name) := by
  refine (Ends.late (P := fun _ => True) (fun he => ?_) fun err herr => ?_).mono fun _ _ _ => trivial
  · exact ⟨(), EffectSet.require_mono hrequire (h.effects he), trivial⟩
  · obtain ⟨cause, rfl⟩ := EffectSet.effect_of_require herr
    rfl

theorem operand (h : Follows exact s ctx lctx) (hrelated : Related exact env locals) {e : Expr} {o : Operand}
    (he : Accepts exact ctx env e o) : Safe exact s (lctx.operand locals e) (Leaves exact e o) :=
  .infer (h.inferrer.operand h.sited hrelated he) (.tooDeep rfl)

end Follows

theorem safe_coerce {source target : Kind} : Safe exact s (coerce source target) fun _ => True :=
  (routine_coerce (d := 0)).meets

theorem safe_load : Safe exact s (load slot) fun _ => True := (routine_load (d := 0)).meets

theorem safe_store : Safe exact s (store slot) fun _ => True := (routine_store (d := 0)).meets

theorem safe_newSlot : Safe exact s newSlot fun _ => True := (routine_newSlot (d := 0)).meets

theorem safe_emitWith {op : Opcode} {imm : UInt64} : Safe exact s (emitWith op imm) fun _ => True :=
  .of_cache fun _ => ⟨_, _, rfl, rfl⟩

theorem safe_internText {text : String} : Safe exact s (internText text) fun _ => True :=
  .of_cache fun _ => ⟨_, _, rfl, rfl⟩

theorem ends_widthOf {k : Kind} : Ends (Error.Tolerated exact) (fun w => k.width? = some w) (widthOf k) := by
  unfold widthOf
  split
  case h_1 h => exact h
  case h_2 => exact .residual rfl

namespace Emitter.Agrees
variable {E : Emitter} (hE : E.Agrees exact s) (hctx : Follows exact s ctx lctx) (hrelated : Related exact env locals)
include hE hctx hrelated

variable {env' : Env} {e : Expr} {l : List Expr} {o : Operand}

theorem statements (h : AcceptsList exact ctx env l env') :
    Safe exact s (E.statements lctx locals l) (Related exact env') := by
  induction l generalizing env locals with
  | nil =>
    cases h
    exact .pure hrelated
  | cons e l ih =>
    cases h with
    | cons h hl => exact (hE.statement hctx hrelated h).bind fun _ hrelated' => ih hrelated' hl

theorem block (h : AcceptsList exact ctx env l env') : Safe exact s (E.block lctx locals l) fun _ => True :=
  (hE.statements hctx hrelated h).bind fun _ _ => .pure trivial

theorem exprAt {w : Width} (h : Accepts exact ctx env e o) : Safe exact s (E.exprAt lctx locals e w) fun _ => True :=
  (hE.expr hctx hrelated h).bind fun _ _ => safe_coerce

theorem condition {fault : TypeError} (h : Accepts exact ctx env e o) (hcond : o.isCondition = true)
    (hfault : fault.isLate = true) : Safe exact s (E.condition lctx locals fault e) fun _ => True := by
  refine (hE.expr hctx hrelated h).bind fun o' ho' => .ite (fun hno => ?_) fun _ => .pure trivial
  refine .throw (.late (fun he => ?_) hfault)
  rw [(ho' he).1, hcond] at hno
  exact nomatch hno

theorem blockValue {body : List Expr} (h : AcceptsBlock exact ctx env body o) :
    Safe exact s (E.blockValue lctx locals body)
      fun o' => exact → o' = o ∧ (Expr.listEndsInReturn body = false → o.target ≠ .unknown) := by
  unfold Emitter.blockValue
  cases h with
  | @value _ _ env' _ last _ hlast hinit hbinding hreturn h =>
    rw [hlast, Expr.listEndsInReturn_of_getLast? hlast]
    refine (hE.statements hctx hrelated hinit).bind fun inner hinner => ?_
    simp only [hbinding, hreturn, Bool.false_eq_true, if_false, Bool.false_or]
    exact hE.expr hctx hinner h
  | @leave _ _ env' _ _ last hlast hinit hbinding hreturn h =>
    rw [hlast, Expr.listEndsInReturn_of_getLast? hlast]
    refine (hE.statements hctx hrelated hinit).bind fun inner hinner => ?_
    simp only [hbinding, hreturn, Bool.false_eq_true, if_false, if_true, Bool.true_or]
    exact (hE.statement hctx hinner h).bind fun _ _ => safe_emitWith.andThen <| .pure fun _ => ⟨rfl, nofun⟩

end Emitter.Agrees

section
variable {E : Emitter} (hE : E.Agrees exact s) (hctx : Follows exact s ctx lctx) (hrelated : Related exact env locals)
include hE hctx hrelated

theorem safe_elements {w next : Width} {l : List Expr}
    (h : AcceptsAll exact ctx env l operands) (hpointers : ∀ o ∈ operands, o.isPointer = false) :
    Safe exact s (emitElements E lctx locals builtin w next slot l) fun _ => True := by
  induction l generalizing operands w next slot with
  | nil => exact .pure trivial
  | cons e l ih =>
    cases h with
    | cons h hl =>
      obtain ⟨hpointer, hpointers⟩ := List.forall_mem_cons.mp hpointers
      refine (hE.expr hctx hrelated h).bind fun o' ho' => .check (fun hp => .late (fun he => ?_) rfl) fun _ => ?_
      · rw [(ho' he).1, hpointer] at hp
        exact nomatch hp
      · exact safe_coerce.andThen <| safe_store.andThen <| ih hl hpointers

omit hE hctx hrelated in
theorem ends_literalWidths (hpairs : type.shape = .map → c.args.length % 2 = 0) :
    Ends (Error.Tolerated exact) (fun _ => True) (literalWidths c type) := by
  unfold literalWidths
  split
  · exact .residual rfl
  · split
    case isTrue hmap =>
      rw [hpairs hmap]
      split
      · exact .residual rfl
      · trivial
    case isFalse => trivial

theorem safe_literal (hrequire : ctx.effects.require c.name = .ok ()) (h : AcceptsAll exact ctx env c.args operands)
    (hpairs : type.shape = .map → c.args.length % 2 = 0) (hpointers : ∀ o ∈ operands, o.isPointer = false) :
    Safe exact s (emitLiteral E lctx locals c type) fun _ => True := by
  unfold emitLiteral
  refine .liftBind (hctx.require hrequire) fun _ _ _ => .liftBind (ends_literalWidths hpairs) fun _ _ _ => ?_
  have helements {w next : Width} {slot : Nat} :
      Safe exact s (emitElements E lctx locals c.name w next slot c.args) fun _ => True :=
    safe_elements hE hctx hrelated h hpointers
  refine Meets.bind (Q := fun _ => True) (.of_cache fun _ => ⟨_, _, rfl, rfl⟩) fun base _ => ?_
  refine safe_emitWith.andThen <| safe_store.andThen <| .ite (fun _ => ?_) fun _ => ?_
  · exact safe_emitWith.andThen <| safe_store.andThen <| helements.andThen safe_emitWith
  · exact helements.andThen safe_emitWith

/-- The address of a collection is left wherever the check sees one. -/
theorem safe_collection (h : Accepts exact ctx env e o)
    (hcollection : exact → e.call? = none → isArguments locals e = false ∧
      ∃ type, Check.collection? ctx.templates env e = .ok (some type)) :
    Safe exact s (emitCollection E lctx locals e)
      fun type => exact → Check.collection? ctx.templates env e = .ok (some type) := by
  unfold emitCollection
  cases e with
  | literal => exact .throw (.residual rfl)
  | name ts x =>
    obtain ⟨b, hb, -⟩ := h.lookup
    obtain ⟨l, hl, htype⟩ := hrelated x b hb
    have hfound (he : exact) : Check.collection? ctx.templates env (.name ts x) = .ok l.collection? := by
      have hends := ends_collection? hrelated hctx.sited.templates h
      simp only [collection?, hl, Option.bind_some] at hends
      exact hends he (hcollection he rfl).1
    simp only [hl]
    split
    case h_1 hnone =>
      refine .throw (.late (fun he => ?_) rfl)
      obtain ⟨-, type, htype⟩ := hcollection he rfl
      rw [hfound he, hnone] at htype
      exact nomatch htype
    case h_2 type htype =>
      refine safe_load.andThen <| .pure fun he => ?_
      rw [hfound he, htype]
  | call ts c =>
    refine .liftBind (ends_ofLiteral? hctx.sited.templates h rfl) fun found hfound _ => ?_
    cases found with
    | none => exact .throw (.residual rfl)
    | some type =>
      obtain ⟨form, hform, hplain, htype⟩ := BindingType.ofLiteral?_inv hfound
      have hshape : type.shape = form.shape := (BindingType.settled_collection htype).2
      obtain ⟨ctx', operands, -, henter, hrequire, hargs, -, hpairs, hpointers⟩ := accepts_collection h rfl hform hplain
      refine .liftBind (hctx.inside henter) fun lctx' _ hctx' => ?_
      have hmap (hmap : type.shape = .map) : c.args.length % 2 = 0 := by
        rw [hshape] at hmap
        refine hpairs ?_
        cases form with
        | map => rfl
        | array | vector => exact nomatch hmap
      refine (safe_literal hE hctx' hrelated hrequire hargs hmap hpointers).andThen <| .pure fun he => ?_
      rw [hctx.sited.templates he]
      exact hfound

omit hE in
theorem safe_indexWidth (h : Accepts exact ctx env e o) (hindex : exact → Check.isIndex o = true)
    (hends : exact → e.endsInReturn = false) : Safe exact s (indexWidth lctx locals builtin e) fun _ => True := by
  unfold indexWidth
  refine (hctx.operand hrelated h).bind fun o' ho' => .check (fun hno => .late (fun he => ?_) rfl) fun _ => ?_
  · obtain ⟨rfl, hknown⟩ := ho' he
    have hkind := Operand.kind_ne_unknown_of_target (hknown (hends he))
    have hindex := hindex he
    simp only [Check.isIndex, Bool.and_eq_true, Bool.or_eq_true, Bool.not_eq_true', beq_iff_eq] at hindex
    simp [hindex.1, hindex.2.resolve_right hkind] at hno
  · exact .lift (ends_widthOf.mono fun _ _ _ => trivial)

theorem safe_spillIndex (h : Accepts exact ctx env e o) (hindex : exact → Check.isIndex o = true)
    (hends : exact → e.endsInReturn = false) : Safe exact s (spillIndex E lctx locals builtin e) fun _ => True :=
  (safe_indexWidth hctx hrelated h hindex hends).bind fun _ _ => safe_newSlot.bind fun _ _ =>
    (hE.exprAt hctx hrelated h).andThen <| safe_store.andThen <| .pure trivial

/-- Reading an argument of the run as the check has accepted it. -/
theorem safe_argumentIndex
    (h : AcceptsBuiltin exact ctx env c (.index form) o) (hends : exact → ∀ e ∈ c.args, e.endsInReturn = false) :
    Safe exact s (emitArgumentIndex E lctx locals c checked) fun _ => True := by
  obtain ⟨target, position, ot, op, collection, hargs, ht, hp, hcollection, hindex, -⟩ := h.index_inv
  unfold emitArgumentIndex
  rw [hargs] at hends ⊢
  have hends (he : exact) : position.endsInReturn = false := hends he position (by simp)
  refine .check (fun _ => .residual rfl) fun harguments => ?_
  have hindex (he : exact) : Check.isIndex op = true := by
    refine hindex fun type htype => ?_
    subst htype
    cases hcollection.symm.trans (collection?_of_isArguments hrelated ht he (by simpa using harguments))
    exact nofun
  refine .ite (fun _ => ?_) fun _ => ?_
  · exact (safe_spillIndex hE hctx hrelated hp hindex hends).bind fun _ _ =>
      (routine_checkRange (d := 0) routine_pushArgc (by decide)).meets.andThen safe_load
  · exact (safe_indexWidth hctx hrelated hp hindex hends).bind fun _ _ => hE.exprAt hctx hrelated hp

/-- The same, where the effects of the reading expression are passed over. -/
theorem safe_readArgument {ts : List Transform} (h : Accepts exact ctx env (.call ts c) o) (hplain : c.isPlain = true)
    (hname : Builtin.lookup? c.name = some (.exact (.index form) 2)) :
    Safe exact s (emitArgumentIndex E lctx locals c checked) fun _ => True := by
  have hb := (CallOf.builtin?_of_isPlain hplain).trans hname
  obtain ⟨ctx', henter, -, hregular, hvalue⟩ := h.ofBuiltin hb
  refine safe_argumentIndex hE (hctx.enter henter) hrelated hvalue fun he _ => CallOf.ends_of_isRegular (hregular he) ?_
  unfold CallOf.class?
  rw [hb]
  split <;> exact nofun

omit hE hctx hrelated in
theorem safe_knownText : Safe exact s (knownText? locals builtin e) fun _ => True := by
  unfold knownText?
  split
  · exact safe_internText.bind fun _ _ => .pure trivial
  · split
    · exact .pure trivial
    · refine .ite (fun _ => ?_) fun _ => .pure trivial
      split
      · exact .pure trivial
      · exact .of_cache fun _ => ⟨_, _, rfl, rfl⟩
      · exact .throw (.residual rfl)
  · exact .pure trivial

theorem safe_count (h : Accepts exact ctx env target o) :
    Safe exact s (emitCount E lctx locals builtin target) (· = .value .int32) := by
  unfold emitCount
  refine .ite (fun _ => ?_) fun harguments => ?_
  · exact safe_emitWith.andThen <| .pure rfl
  · have hno : isArguments locals target = false := Bool.eq_false_iff.mpr harguments
    refine .liftBind (ends_collection? hrelated hctx.sited.templates h) fun found _ hfound => ?_
    cases found with
    | some type =>
      exact (safe_collection hE hctx hrelated h fun he _ => ⟨hno, type, hfound he hno⟩).bind fun _ _ =>
        safe_emitWith.andThen <| .pure rfl
    | none =>
      refine safe_knownText.bind fun known _ => ?_
      cases known with
      | some text => exact safe_emitWith.andThen <| .pure rfl
      | none => exact .throw (.residual rfl)

theorem safe_element (ht : Accepts exact ctx env target ot) (hno : isArguments locals target = false)
    (hcollection : exact → Check.collection? ctx.templates env target = .ok (some type))
    (hp : Accepts exact ctx env position op) (hindex : exact → Check.isIndex op = true)
    (hends : exact → position.endsInReturn = false) :
    Safe exact s (emitElement E lctx locals builtin type target position checked) fun _ => True := by
  unfold emitElement
  refine safe_newSlot.bind fun base _ => ?_
  refine (safe_collection hE hctx hrelated ht fun he _ => ⟨hno, type, hcollection he⟩).bind fun _ _ => ?_
  refine safe_store.andThen <| (safe_spillIndex hE hctx hrelated hp hindex hends).bind fun ⟨index, w⟩ _ => ?_
  have haddress : Safe exact s (do
      emitAddress base index 1 (Int64.ofNat (headerSlots type))
      emit .loadIndirect) fun _ => True :=
    (routine_address (d := 0)).meets.andThen safe_emitWith
  refine .ite (fun _ => ?_) fun _ => haddress
  have hcount : Routine (Error.Tolerated exact) True 1 2 (do load base; emit .loadIndirect; coerce .int32 w.kind) :=
    routine_load.andThen <| routine_loadIndirect.andThen routine_coerce
  exact (routine_checkRange (d := 0) hcount (by decide)).meets.andThen haddress

theorem safe_lookup (ht : Accepts exact ctx env target ot) (hno : isArguments locals target = false)
    (hcollection : exact → Check.collection? ctx.templates env target = .ok (some type))
    (hp : Accepts exact ctx env position op) :
    Safe exact s (emitLookup E lctx locals type target position checked) fun _ => True := by
  have hwidth : Safe exact s (lookupWidth lctx locals type position) fun _ => True := by
    refine .liftBind ends_widthOf fun _ _ _ => (hctx.operand hrelated hp).bind fun _ _ => ?_
    exact .check (fun _ => .residual rfl) fun _ => .pure trivial
  unfold emitLookup
  refine hwidth.bind fun w _ => safe_newSlot.bind fun _ _ => ?_
  refine (safe_collection hE hctx hrelated ht fun he _ => ⟨hno, type, hcollection he⟩).bind fun _ _ => ?_
  refine safe_store.andThen <| safe_newSlot.bind fun _ _ => (hE.exprAt hctx hrelated hp).andThen ?_
  refine safe_store.andThen <| safe_newSlot.bind fun _ _ => safe_load.andThen <| safe_emitWith.andThen ?_
  refine safe_store.andThen <| safe_newSlot.bind fun _ _ => safe_emitWith.andThen <| safe_store.andThen ?_
  exact (routine_search trivial).meets.andThen <| (routine_address (d := 0)).meets.andThen safe_emitWith

theorem safe_byte {index length : Nat} (hp : Accepts exact ctx env position op)
    (hindex : exact → Check.isIndex op = true) (hends : exact → position.endsInReturn = false) :
    Safe exact s (emitByte E lctx locals builtin index length position checked) fun _ => True := by
  unfold emitByte
  refine (safe_spillIndex hE hctx hrelated hp hindex hends).bind fun ⟨slot, w⟩ _ => ?_
  have hload : Safe exact s (do load slot; emitWith .loadStringByte (UInt64.ofNat index)) fun _ => True :=
    safe_load.andThen safe_emitWith
  refine .ite (fun _ => ?_) fun _ => hload
  exact (routine_checkRange (d := 0) routine_pushInt (by decide)).meets.andThen hload

theorem safe_index (hargs : c.args = [target, position])
    (h : AcceptsBuiltin exact ctx env c (.index checked) o) (hvalues : exact → ∀ e ∈ c.args, e.endsInReturn = false) :
    Safe exact s (emitIndex E lctx locals c target position checked) fun o' => exact → o' = o ∧ o.target ≠ .unknown := by
  obtain ⟨target, position, ot, op, collection, hargs', ht, hp, hcollection, hindex, rfl⟩ := h.index_inv
  cases hargs.symm.trans hargs'
  have hends (he : exact) : position.endsInReturn = false := hvalues he position (by simp [hargs])
  unfold emitIndex
  refine .ite (fun harguments => ?_) fun harguments => ?_
  · refine (safe_argumentIndex hE hctx hrelated h hvalues).andThen <| .pure fun he => ?_
    cases hcollection.symm.trans (collection?_of_isArguments hrelated ht he harguments)
    exact ⟨rfl, nofun⟩
  · have hno : isArguments locals target = false := Bool.eq_false_iff.mpr harguments
    refine .liftBind (ends_collection? hrelated hctx.sited.templates ht) fun found _ hfound => ?_
    have hfound (he : exact) : found = collection := Except.ok.inj ((hfound he hno).symm.trans hcollection)
    cases found with
    | some type =>
      have htype (he : exact) : Check.collection? ctx.templates env target = .ok (some type) := hfound he ▸ hcollection
      have hresult (he : exact) : Operand.value type.kind = .value ((collection.map (·.kind)).getD .int32) ∧
          (Operand.value ((collection.map (·.kind)).getD .int32)).target ≠ .unknown := by
        rw [← hfound he]
        exact ⟨rfl, (settled_of_collection? hrelated hctx.sited.templates ht he (htype he)).1.kind⟩
      refine .ite (fun _ => ?_) fun hmap => ?_
      · exact (safe_lookup hE hctx hrelated ht hno htype hp).andThen <| .pure hresult
      · have hindex (he : exact) : Check.isIndex op = true := by
          refine hindex fun type' htype' => ?_
          cases (hfound he).trans htype'
          exact hmap
        exact (safe_element hE hctx hrelated ht hno htype hp hindex hends).andThen <| .pure hresult
    | none =>
      refine safe_knownText.bind fun known _ => ?_
      cases known with
      | none => exact .throw (.residual rfl)
      | some text =>
        have hindex (he : exact) : Check.isIndex op = true :=
          hindex fun type htype => nomatch (hfound he).trans htype
        refine (safe_byte hE hctx hrelated hp hindex hends).andThen <| .pure fun he => ?_
        rw [← hfound he]
        exact ⟨rfl, nofun⟩

end
end
end FlatCode.Lower
