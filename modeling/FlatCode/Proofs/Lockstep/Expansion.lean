import FlatCode.Proofs.Lockstep.Collection

/-! Bindings and expansions in two scopes. A binding is a map only if it is built from one, and the body of an expansion
    is straight if its parts are. -/

namespace FlatCode.Lower
open Stateful

variable {parameter : Bool} {callee : Definition} {e : Expr} {params : List (Expr × Filling)} {args : List Expr}
  {l : Local} {init : Option Expr} {returns : ReturnInfo} {home name : String}

section
variable {g : Pace} {scope' : Scope} {I' : Inferrer} {X : Nat → Context → Expr → Prop} {n : Nat} {E E' : Emitter}
  {ctx : Context} {locals : Locals} (hX : Coverage g scope' I' X)
include hX

/-! ### Bindings -/

theorem lockstep_declaredLocal (he : ctx.scope.Alike scope' e) (hinit : ∀ i, init = some i → X n ctx i) :
    Lockstep g (declaredLocal ctx { home } locals e init parameter)
      (declaredLocal (ctx.over scope' I') { home } locals e init parameter) fun _ => True := by
  have hinfer : Lockstep g (infer (inferLocal ctx.scope ctx.inferrer { home } locals e init))
      (infer (inferLocal scope' I' { home } locals e init)) fun _ => True :=
    .infer (tracks_inferLocal (hX.closed n ctx) hX.operand he hinit)
  unfold declaredLocal
  show Lockstep g (liftM (BindingType.declared? ctx.scope [] e.transforms) >>= _)
    (liftM (BindingType.declared? scope' [] e.transforms) >>= _) _
  rw [← he.declared]
  refine .liftBind BindingType.shallow_declared? fun type? _ => ?_
  cases init with
  | none => exact hinfer
  | some init =>
    have hrest (collection : Bool) : Lockstep g
        (if (parameter && !type?.isSome && !collection) = true then do
          let operand ← infer (ctx.inferrer.operand { home } locals init)
          if (operand == .unknown) = true then
            pure { mutable := isMutable e.transforms, type := BindingType.scalar .int32 }
          else infer (inferLocal ctx.scope ctx.inferrer { home } locals e (some init))
        else infer (inferLocal ctx.scope ctx.inferrer { home } locals e (some init)))
        (if (parameter && !type?.isSome && !collection) = true then do
          let operand ← infer (I'.operand { home } locals init)
          if (operand == .unknown) = true then
            pure { mutable := isMutable e.transforms, type := BindingType.scalar .int32 }
          else infer (inferLocal scope' I' { home } locals e (some init))
        else infer (inferLocal scope' I' { home } locals e (some init))) fun _ => True :=
      .ite (fun _ => (Lockstep.infer (hX.operand (hinit init rfl))).bind fun _ _ =>
        .ite (fun _ => .pure trivial) fun _ => hinfer) fun _ => hinfer
    exact .ite (fun _ => hrest true) fun _ => .liftBind shallow_collection? fun type?' _ => hrest type?'.isSome

omit hX in
/-- The arguments of the run are no map. -/
theorem shape_of_bindArguments (h : bindArguments locals init = .ok l) : l.type.shape = .array := by
  have hl := (bindArguments_inv h).1
  simp only [Local.isArguments, Bool.and_eq_true, beq_iff_eq] at hl
  exact hl.1

variable (hE : E.Handles g scope' I' (X n) E') (hl : Fit g locals)
include hE hl

theorem lockstep_bindCollection (hinit : ∀ i, init = some i → X n ctx i) :
    Lockstep g (bindCollection E ctx locals name init l) (bindCollection E' (ctx.over scope' I') locals name init l)
      fun bound => bound.type.shape = .map → g.mayLoop := by
  unfold bindCollection
  cases init with
  | none => exact .throw nofun
  | some init =>
    refine lockstep_newSlot.bind fun _ _ => ?_
    refine (lockstep_collection hX hE hl (hX.weaken (hinit init rfl))).bind fun _ hbuilt => ?_
    exact .check nofun fun _ => lockstep_store.andThen <| .pure hbuilt

theorem lockstep_text {init : Expr} (hinit : X n ctx init) :
    Lockstep g (emitText E ctx locals init) (emitText E' (ctx.over scope' I') locals init) fun _ => True := by
  unfold emitText
  split
  · exact lockstep_internText.bind fun _ _ => (Lockstep.emitWith rfl).andThen <| .pure trivial
  · exact .throw nofun
  · split
    · exact .throw nofun
    · refine .ite (fun _ => .throw nofun) fun _ => ?_
      split
      · exact .throw nofun
      · exact (Lockstep.emitWith rfl).andThen <| .pure trivial
      · exact lockstep_load.andThen <| .pure trivial
  case h_4 ts c =>
    have hargs : ∀ a ∈ c.args, X n ctx a := (hX.parts (hX.weaken hinit)).1
    refine .ite (fun _ => ?_) fun _ => .ite (fun _ => ?_) fun _ => .throw nofun
    · exact (lockstep_argumentIndex hX hE hl hargs).andThen <| .pure trivial
    · exact (lockstep_argumentIndex hX hE hl hargs).andThen <| .pure trivial

theorem lockstep_bindText (hinit : ∀ i, init = some i → X n ctx i) :
    Lockstep g (bindText E ctx locals name init l) (bindText E' (ctx.over scope' I') locals name init l)
      fun bound => bound.type = l.type := by
  refine lockstep_newSlot.bind fun _ _ => ?_
  cases init with
  | none => exact .throw nofun
  | some init =>
    exact (lockstep_text hX hE hl (hinit init rfl)).bind fun _ _ => lockstep_store.andThen <| .pure rfl

omit hX in
theorem lockstep_bindWord (hinit : ∀ i, init = some i → X n ctx i) :
    Lockstep g (bindWord E ctx locals init l) (bindWord E' (ctx.over scope' I') locals init l)
      fun bound => bound.type = l.type := by
  refine lockstep_newSlot.bind fun slot _ => ?_
  have hrest : Lockstep g (do store slot; pure { l with slot }) (do store slot; pure { l with slot })
      fun bound => bound.type = l.type := lockstep_store.andThen <| .pure rfl
  cases init with
  | none => exact lockstep_pushInt.andThen hrest
  | some init =>
    exact (hE.expr (hinit init rfl) hl).bind fun _ _ => .ite (fun _ => lockstep_coerce.andThen hrest) fun _ => hrest

theorem lockstep_bindLocal (he : ctx.scope.Alike scope' e) (hinit : ∀ i, init = some i → X n ctx i) :
    Lockstep g (bindLocal E ctx { home } locals e init parameter)
      (bindLocal E' (ctx.over scope' I') { home } locals e init parameter)
      fun bound => bound.2.type.shape = .map → g.mayLoop := by
  unfold bindLocal
  split
  · exact .throw nofun
  · refine (lockstep_declaredLocal hX he hinit).bind fun l _ => ?_
    refine .ite (fun _ => ?_) fun _ => .ite (fun _ => ?_) fun hshape => ?_
    · refine .liftBind shallow_bindArguments fun bound hbound => .pure fun hmap => ?_
      exact nomatch (shape_of_bindArguments hbound).symm.trans hmap
    · exact (lockstep_bindCollection hX hE hl hinit).bind fun _ hbound => .pure hbound
    · -- What is neither is no collection.
      have hflat {bound : Local} (hbound : bound.type = l.type) (hmap : bound.type.shape = .map) : g.mayLoop :=
        absurd (hbound ▸ hmap ▸ rfl) hshape
      refine .ite (fun _ => ?_) fun _ => ?_
      · exact (lockstep_bindText hX hE hl hinit).bind fun _ hbound => .pure (hflat hbound)
      · exact (lockstep_bindWord hE hl hinit).bind fun _ hbound => .pure (hflat hbound)

omit hl in
theorem lockstep_bindParameters {caller : Locals}
    (hcaller : Fit g caller) (hl : Fit g locals) (hargs : ∀ a ∈ args, X n ctx a)
    (hparams : ∀ p ∈ params, ctx.scope.Alike scope' p.1 ∧ ∀ i, p.1.initial? = some i → X n ctx i) :
    Lockstep g (bindParameters E ctx caller callee args locals params)
      (bindParameters E' (ctx.over scope' I') caller callee args locals params) (Fit g) := by
  induction params generalizing locals with
  | nil => exact .pure hl
  | cons p rest ih =>
    obtain ⟨param, filling⟩ := p
    obtain ⟨halike, hinit⟩ := hparams _ List.mem_cons_self
    have hrest := fun p hp => hparams p (List.mem_cons_of_mem _ hp)
    cases filling with
    | argument i =>
      refine (lockstep_bindLocal hX hE hcaller halike fun a ha => ?_).bind fun _ hbound => ih (hl.cons hbound) hrest
      exact hargs a (List.mem_of_getElem? ha)
    | default => exact (lockstep_bindLocal hX hE hl halike hinit).bind fun _ hbound => ih (hl.cons hbound) hrest

/-! ### Expansions -/

omit hX hE hl in
theorem lockstep_resultSlot : Lockstep g (resultSlot returns) (resultSlot returns) fun _ => True :=
  .ite (fun _ => .pure trivial) fun _ => lockstep_newSlot.bind fun _ _ => lockstep_pushInt.andThen <|
    lockstep_store.andThen <| .pure trivial

omit hX hE hl in
theorem closeAll_total {xs : List Exit} (s : State) :
    ∃ t, (xs.forM fun x => closeJump x.position) s = .ok ((), t) ∧ t.cache = s.cache := by
  induction xs generalizing s with
  | nil => exact ⟨s, rfl, rfl⟩
  | cons x xs ih =>
    obtain ⟨t, ht, hcache⟩ := ih _
    exact ⟨t, bind_eq_ok.mpr ⟨(), _, rfl, ht⟩, hcache⟩

omit hX in
theorem sync_body {body : List Expr} (hbody : ∀ e ∈ body, X n ctx e) :
    Sync g (emitBody E ctx locals body) (emitBody E' (ctx.over scope' I') locals body) fun _ => True := by
  refine Sync.bind (Q := fun _ => True) (.total fun _ => ⟨_, _, rfl, rfl⟩) fun outer _ => ?_
  refine Sync.bind (Q := fun _ => True) (.total fun _ => ⟨_, _, rfl, rfl⟩) fun _ _ => ?_
  refine (hE.block hbody hl).sync.bind fun _ _ => ?_
  refine Sync.bind (Q := fun _ => True) (.total fun _ => ⟨_, _, rfl, rfl⟩) fun s _ => ?_
  refine Sync.bind (Q := fun _ => True) (.total fun s => ?_) fun _ _ => ?_
  · exact ⟨(), closeAll_total s⟩
  · exact Sync.bind (Q := fun _ => True) (.total fun _ => ⟨_, _, rfl, rfl⟩) fun _ _ => .pure trivial

/-- The expansion of a definition, and what follows it. -/
theorem lockstep_expansion {α : Type} {effects : EffectSet} {rest rest' : Option Nat → Lowering α} {Q : α → Prop}
    (hargs : ∀ a ∈ args, X n ctx a)
    (hparams : ∀ p ∈ params, ctx.scope.Alike scope' p.1 ∧ ∀ i, p.1.initial? = some i → X n ctx i)
    (hbody : ∀ slot, ∀ e ∈ callee.body, X n (bodyContext ctx callee effects returns slot) e)
    (hrest : ∀ slot, Lockstep g (rest slot) (rest' slot) Q) :
    Lockstep g (do
      let start ← here
      let calleeLocals ← bindParameters E ctx locals callee args [] params
      let slot ← resultSlot returns
      let exits ← emitBody E (bodyContext ctx callee effects returns slot) calleeLocals callee.body
      noteExpansion callee.path start exits
      rest slot) (do
      let start ← here
      let calleeLocals ← bindParameters E' (ctx.over scope' I') locals callee args [] params
      let slot ← resultSlot returns
      let exits ← emitBody E' (bodyContext (ctx.over scope' I') callee effects returns slot) calleeLocals callee.body
      noteExpansion callee.path start exits
      rest' slot) Q := by
  have hbind : Lockstep g (bindParameters E ctx locals callee args [] params)
      (bindParameters E' (ctx.over scope' I') locals callee args [] params) (Fit g) :=
    lockstep_bindParameters hX hE hl .nil hargs hparams
  constructor
  · refine Sync.bind (Q := fun _ => True) (.total fun _ => ⟨_, _, rfl, rfl⟩) fun start _ => ?_
    refine hbind.sync.bind fun inner hinner => ?_
    refine lockstep_resultSlot.sync.bind fun slot _ => (sync_body hE hinner (hbody slot)).bind fun exits _ => ?_
    exact Sync.bind (Q := fun _ => True) (.total fun _ => ⟨_, _, rfl, rfl⟩) fun _ _ => (hrest slot).sync
  · refine fun hloop => .of_extends fun s a t h => ?_
    obtain ⟨start, _, hhere, h₁⟩ := bind_eq_ok.mp h
    cases hhere
    obtain ⟨inner, s₁, hparameters, h₂⟩ := bind_eq_ok.mp h₁
    obtain ⟨slot, s₂, hslot, h₃⟩ := bind_eq_ok.mp h₂
    obtain ⟨exits, s₃, hemit, h₄⟩ := bind_eq_ok.mp h₃
    obtain ⟨⟨⟩, s₄, hnote, h₅⟩ := bind_eq_ok.mp h₄
    cases hnote
    obtain ⟨-, hinner⟩ := hbind.sync.result (hloop.2 _) hparameters
    obtain ⟨pa, hpa, hpas⟩ := (hbind.straight hloop).run hparameters
    obtain ⟨pr, hpr, hprs⟩ := (lockstep_resultSlot.straight hloop).run hslot
    obtain ⟨v, hblock, -, -, hscope⟩ := emitBody_run hemit
    obtain ⟨q, hq, hqs⟩ := ((hE.block (hbody slot) hinner).straight hloop).run hblock
    obtain ⟨hgrows, hexits, rfl⟩ := hscope q hq
    obtain ⟨pt, hpt, hpts⟩ := ((hrest slot).straight hloop).run h₅
    refine ⟨_, ((hpa.seq hpr).expansion hgrows hexits).seq hpt, ?_⟩
    simp only [Piece.isStraight, hpas, hprs, hqs, hpts, Bool.and_self]

theorem lockstep_expand {ts : List Transform} {c : Call} {valueNeeded : Bool} (hc : X (n + 1) ctx (.call ts c))
    (hbinding : c.isBinding = false) (hb : c.builtin? = none) (hcallee : callee ∈ ctx.scope.definitions) :
    Lockstep g (expand E ctx locals c callee valueNeeded) (expand E' (ctx.over scope' I') locals c callee valueNeeded)
      fun _ => True := by
  unfold expand
  refine .check nofun fun hexpanding => ?_
  refine .check nofun fun _ => ?_
  refine .liftBind Definition.shallow_callParameters fun params hparams => .liftBind Arguments.shallow_order fun fillings _ =>
    .ite (fun _ => ?_) fun hstruct => ?_
  · exact .ite (fun _ => (Lockstep.emitWith rfl).andThen <| .pure trivial) fun _ => .pure trivial
  · have hstruct : callee.isStruct = false := Bool.eq_false_iff.mpr hstruct
    obtain rfl : callee.parameters = params := by simpa [Definition.callParameters, hstruct] using hparams
    have hfresh : callee.path ∉ ctx.expanding := by simpa using hexpanding
    obtain ⟨hparameters, hbody⟩ := hX.callee hc hbinding hb hcallee hstruct hfresh
    refine (Lockstep.infer (hX.returns hc hbinding hb hcallee)).bind fun returns _ => .check nofun fun _ => ?_
    refine .liftBind EffectSet.shallow_active fun effects _ => ?_
    refine lockstep_expansion hX hE hl (hX.parts hc).1 (fun p hp => hparameters _ (List.of_mem_zip hp).1)
      (fun slot => hbody effects returns slot) fun slot => ?_
    cases slot with
    | none => exact .pure trivial
    | some slot => exact .ite (fun _ => lockstep_load.andThen <| .pure trivial) fun _ => .pure trivial

end
end FlatCode.Lower
