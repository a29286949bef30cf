import FlatCode.Proofs.Slots.Collection

/-! Bindings get slots of their own, an expansion has a scope of its own whose slots are all its own, and expressions
    store only to slots that are new or are changed by name. -/

namespace FlatCode.Lower
open Stateful

variable {op : ArithmeticOp} {parameter : Bool} {c : Call} {callee : Definition} {e r target value yes : Expr}
  {params : List (Expr × Filling)} {args body : List Expr} {l : Local} {locals : Locals} {m : Nat} {G : Nat → Prop}
  {init : Option Expr} {returns : ReturnInfo} {site : Site} {builtin name x : String} {w : Width}

section
variable {G : Nat → Prop} {m : Nat} {ctx : Context} {locals : Locals}

theorem tidy_declaredLocal : Tidy G m (declaredLocal ctx site locals e init parameter) :=
  .of_nop fun _ _ _ _ h => ⟨(declaredLocal_inv h).1, trivial⟩

theorem bound_bindArguments (h : bindArguments locals init = .ok l)
    (hroom : Room G m ctx locals) : Bound m locals l m := by
  obtain ⟨harguments, x, hlookup⟩ := bindArguments_inv h
  exact ⟨hroom.slot_lt hlookup, .inr ⟨harguments, x, mem_of_lookup hlookup⟩⟩

section
variable {E : Emitter} (hE : E.Frames) (hroom : Room G m ctx locals) {init : Option Expr}
  (hinit : ∀ i, init = some i → Granted G locals i)
include hE hroom hinit

theorem respects_bindCollection : Respects G m (bindCollection E ctx locals name init l) (Bound m locals) := by
  unfold bindCollection
  cases init with
  | none => exact .throw
  | some init =>
    refine respects_newSlot.bind fun slot m₁ hm₁ hslot => ?_
    refine (tidy_collection hE (hroom.later hm₁) (hinit init rfl)).bind fun _ m₂ hm₂ _ => .check fun _ => ?_
    refine (tidy_store (by omega) (hroom.fresh slot hslot.1)).andThen <| .pure fun m₃ hm₃ => ?_
    exact ⟨show slot < m₃ by omega, .inl hslot.1⟩

omit hinit in
theorem tidy_text {init : Expr} (hinit : Granted G locals init) : Tidy G m (emitText E ctx locals init) := by
  unfold emitText
  split
  · exact tidy_internText.bind fun _ _ _ _ => (tidy_emitWith rfl rfl).andThen <| .pure fun _ _ => trivial
  · exact .throw
  · split
    · exact .throw
    case h_2 l hlookup =>
      refine .ite (fun _ => .throw) fun _ => ?_
      split
      · exact .throw
      · exact (tidy_emitWith rfl rfl).andThen <| .pure fun _ _ => trivial
      · exact (tidy_load (hroom.slot_lt hlookup)).andThen <| .pure fun _ _ => trivial
  case h_4 ts c =>
    refine .ite (fun h => ?_) fun _ => .ite (fun h => ?_) fun _ => .throw
    all_goals exact (tidy_argumentIndex hE hroom (hinit.args_of_isCallTo h nofun)).andThen <| .pure fun _ _ => trivial

theorem respects_bindText : Respects G m (bindText E ctx locals name init l) (Bound m locals) := by
  refine respects_newSlot.bind fun slot m₁ hm₁ hslot => ?_
  cases init with
  | none => exact .throw
  | some init =>
    refine (tidy_text hE (hroom.later hm₁) (hinit init rfl)).bind fun _ m₂ hm₂ _ => ?_
    refine (tidy_store (by omega) (hroom.fresh slot hslot.1)).andThen <| .pure fun m₃ hm₃ => ?_
    exact ⟨show slot < m₃ by omega, .inl hslot.1⟩

theorem respects_bindWord : Respects G m (bindWord E ctx locals init l) (Bound m locals) := by
  refine respects_newSlot.bind fun slot m₁ hm₁ hslot => ?_
  have hrest : Respects G m₁ (do store slot; pure { l with slot }) (Bound m locals) :=
    (tidy_store hslot.2 (hroom.fresh slot hslot.1)).andThen <| .pure fun m₃ hm₃ =>
      ⟨Nat.lt_of_lt_of_le hslot.2 hm₃, .inl hslot.1⟩
  cases init with
  | none => exact tidy_pushInt.andThen hrest
  | some init =>
    refine (hE.expr (hroom.later hm₁) (hinit init rfl)).bind fun _ m₂ hm₂ _ => ?_
    exact .ite (fun _ => tidy_coerce.andThen (hrest.later hm₂)) fun _ => hrest.later hm₂

/-- A binding gets a slot of its own, unless it is another name for the arguments of the run. -/
theorem respects_bindLocal :
    Respects G m (bindLocal E ctx site locals e init parameter) fun r m' =>
      e.boundName? = some r.1 ∧ Bound m locals r.2 m' := by
  unfold bindLocal
  split
  · exact .throw
  case h_2 hname =>
    refine tidy_declaredLocal.bind fun l m₁ hm₁ _ => ?_
    have hroom₁ := hroom.later hm₁
    refine .ite (fun _ => ?_) fun _ => .ite (fun _ => ?_) fun _ => .ite (fun _ => ?_) fun _ => ?_
    · exact .liftBind fun _ hbound => .pure fun _ hm₂ =>
        ⟨hname, (bound_bindArguments hbound hroom).later (by omega)⟩
    · exact (respects_bindCollection hE hroom₁ hinit).bind fun _ _ _ h => .pure fun _ hm =>
        ⟨hname, (h.earlier hm₁).later hm⟩
    · exact (respects_bindText hE hroom₁ hinit).bind fun _ _ _ h => .pure fun _ hm =>
        ⟨hname, (h.earlier hm₁).later hm⟩
    · exact (respects_bindWord hE hroom₁ hinit).bind fun _ _ _ h => .pure fun _ hm =>
        ⟨hname, (h.earlier hm₁).later hm⟩

end
end

def Own (G : Nat → Prop) (m : Nat) (locals : Locals) : Prop :=
  ∀ l ∈ locals, l.2.slot < m ∧ (l.2.isArguments = true ∨ G l.2.slot)

theorem Own.nil : Own G m [] := fun _ h => absurd h List.not_mem_nil

theorem Own.grants (h : Own G m locals) (x : String) :
    Grants G locals x := fun l hl _ harguments =>
  (h (x, l) (mem_of_lookup hl)).2.resolve_left fun h => absurd (h.symm.trans harguments) nofun

section
variable {E : Emitter} (hE : E.Frames) {G : Nat → Prop} {m : Nat} {ctx : Context} {locals : Locals}

include hE in
theorem respects_bindParameters {caller : Locals} (hroom : Room G m ctx caller)
    (hargs : ∀ e ∈ args, Granted G caller e) (hlocals : Own G m locals) :
    Respects G m (bindParameters E ctx caller callee args locals params) fun locals' m' => Own G m' locals' := by
  induction params generalizing m locals with
  | nil => exact .pure fun _ hm l hl => (hlocals l hl).imp_left fun h => Nat.lt_of_lt_of_le h hm
  | cons p rest ih =>
    obtain ⟨param, filling⟩ := p
    -- A new parameter has a slot of its own, or stands for the arguments of the run.
    have hcons {scope : Locals} {bound : String × Local} {m₁ : Nat} (hm₁ : m ≤ m₁) (h : Bound m scope bound.2 m₁) :
        Own G m₁ (bound :: locals) := by
      refine List.forall_mem_cons.mpr ⟨⟨h.1, ?_⟩, fun l hl => (hlocals l hl).imp_left fun h => Nat.lt_of_lt_of_le h hm₁⟩
      exact h.2.elim (fun h => .inr (hroom.fresh _ h)) fun h => .inl h.1
    cases filling with
    | argument i =>
      refine (respects_bindLocal hE hroom fun e he => hargs e (List.mem_of_getElem? he)).bind fun bound m₁ hm₁ h => ?_
      exact ih (hroom.later hm₁) (hcons hm₁ h.2)
    | default =>
      have hroom' : Room G m ctx locals := ⟨hroom.fresh, fun l hl => (hlocals l hl).1, hroom.result⟩
      refine (respects_bindLocal hE hroom' fun e _ x _ => hlocals.grants x).bind fun bound m₁ hm₁ h => ?_
      exact ih (hroom.later hm₁) (hcons hm₁ h.2)

theorem respects_resultSlot (hG : Fresh G m) :
    Respects G m (resultSlot returns) fun slot m' => ∀ k, slot = some k → k < m' ∧ G k := by
  refine .ite (fun _ => .pure fun _ _ => nofun) fun _ => respects_newSlot.bind fun slot m₁ _ hslot => ?_
  refine tidy_pushInt.andThen <| (tidy_store hslot.2 (hG slot hslot.1)).andThen <| .pure fun m₂ hm₂ => ?_
  rintro _ ⟨⟩
  exact ⟨Nat.lt_of_lt_of_le hslot.2 hm₂, hG slot hslot.1⟩

include hE in
theorem tidy_body {s t : State} {xs : List Exit} (hroom : Room G m ctx locals)
    (hbody : GrantedIn G locals body) (hs : m ≤ s.nextSlot) (h : emitBody E ctx locals body s = .ok (xs, t)) :
    ∃ q, Grows s (.scope q) t ∧ t.exits = s.exits ∧ xs = q.exits s.code.size ∧ ∀ i ∈ q.ops, i.Within G t.nextSlot := by
  obtain ⟨v, hblock, -, hslots, hscope⟩ := emitBody_run h
  obtain ⟨q, hq, hops, -⟩ := hE.block hroom hbody _ () v (by exact hs) hblock
  obtain ⟨hgrows, hexits, hxs⟩ := hscope q hq
  exact ⟨q, hgrows, hexits, hxs, hslots ▸ hops⟩

include hE in
/-- The body of an expansion is lowered in a scope of its own. -/
theorem tidy_expansion {α : Type} {effects : EffectSet} {rest : Option Nat → Lowering α} (hroom : Room G m ctx locals)
    (hargs : ∀ e ∈ args, Granted G locals e)
    (hrest : ∀ slot m', m ≤ m' → (∀ k, slot = some k → k < m') → Tidy G m' (rest slot)) :
    Tidy G m (do
      let start ← here
      let calleeLocals ← bindParameters E ctx locals callee args [] params
      let slot ← resultSlot returns
      let exits ← emitBody E (bodyContext ctx callee effects returns slot) calleeLocals callee.body
      noteExpansion callee.path start exits
      rest slot) := by
  intro s a t hs h
  obtain ⟨start, _, hhere, h₁⟩ := bind_eq_ok.mp h
  cases hhere
  obtain ⟨calleeLocals, s₁, hparams, h₂⟩ := bind_eq_ok.mp h₁
  obtain ⟨slot, s₂, hslot, h₃⟩ := bind_eq_ok.mp h₂
  obtain ⟨exits, s₃, hbody, h₄⟩ := bind_eq_ok.mp h₃
  obtain ⟨⟨⟩, s₄, hnote, h₅⟩ := bind_eq_ok.mp h₄
  cases hnote
  obtain ⟨pa, hpa, hops₁, hown⟩ := respects_bindParameters hE hroom hargs .nil s calleeLocals s₁ hs hparams
  have hs₁ : m ≤ s₁.nextSlot := Nat.le_trans hs hpa.slots
  obtain ⟨pr, hpr, hops₂, hresult⟩ := respects_resultSlot (hroom.fresh.mono hs₁) s₁ slot s₂ (Nat.le_refl _) hslot
  have hs₂ : m ≤ s₂.nextSlot := Nat.le_trans hs₁ hpr.slots
  have hinner : Room G s₂.nextSlot (bodyContext ctx callee effects returns slot) calleeLocals :=
    ⟨hroom.fresh.mono hs₂, fun l hl => Nat.lt_of_lt_of_le (hown l hl).1 hpr.slots, hresult⟩
  obtain ⟨q, hgrows, hexits, rfl, hops₃⟩ := tidy_body hE hinner (fun x _ => hown.grants x) (Nat.le_refl _) hbody
  have hs₃ : s₂.nextSlot ≤ s₃.nextSlot := hgrows.slots
  have hslot₃ : ∀ k, slot = some k → k < s₃.nextSlot := fun k hk => Nat.lt_of_lt_of_le (hresult k hk).1 hs₃
  obtain ⟨pt, hpt, hops₄, -⟩ := hrest slot s₃.nextSlot (Nat.le_trans hs₂ hs₃) hslot₃ _ a t (by exact Nat.le_refl _) h₅
  refine ⟨_, ((hpa.seq hpr).expansion hgrows hexits).seq hpt, fun i hi => ?_, trivial⟩
  have hs₄ : s₃.nextSlot ≤ t.nextSlot := hpt.slots
  simp only [Piece.ops, List.mem_append, or_assoc] at hi
  rcases hi with hi | hi | hi | hi
  · exact (hops₁ i hi).mono (Nat.le_trans hpr.slots (Nat.le_trans hs₃ hs₄))
  · exact (hops₂ i hi).mono (Nat.le_trans hs₃ hs₄)
  · exact (hops₃ i hi).mono hs₄
  · exact hops₄ i hi

include hE in
theorem tidy_expand {valueNeeded : Bool} (hroom : Room G m ctx locals)
    (hargs : ∀ e ∈ c.args, Granted G locals e) : Tidy G m (expand E ctx locals c callee valueNeeded) := by
  unfold expand
  refine .check fun _ => ?_
  refine .check fun _ => ?_
  refine .liftBind fun params _ => .liftBind fun fillings _ => .ite (fun _ => ?_) fun _ => ?_
  · refine .ite (fun _ => ?_) fun _ => .pure fun _ _ => trivial
    exact (tidy_emitWith rfl rfl).andThen <| .pure fun _ _ => trivial
  · refine tidy_infer.bind fun returns m₁ hm₁ _ => .check fun _ => .liftBind fun effects _ => ?_
    refine tidy_expansion hE (hroom.later hm₁) hargs fun slot m₂ _ hslot => ?_
    cases slot with
    | none => exact .pure fun _ _ => trivial
    | some slot =>
      refine .ite (fun _ => ?_) fun _ => .pure fun _ _ => trivial
      exact (tidy_load (hslot slot rfl)).andThen <| .pure fun _ _ => trivial

end

section
variable {G : Nat → Prop} {m : Nat}

theorem tidy_literalValue {l : Literal} : Tidy G m (emitLiteralValue l) := by
  refine .liftBind fun i hi => ?_
  have hop : i.op.isJump = false ∧ i.op.namesSlot = false := by
    unfold literalPush at hi
    split at hi
    case h_1 =>
      split at hi
      · cases hi
        exact ⟨rfl, rfl⟩
      · cases hi
    case h_7 => cases hi
    all_goals
      cases hi
      exact ⟨rfl, rfl⟩
  exact (tidy_emitWith hop.1 hop.2).andThen <| .pure fun _ _ => trivial

theorem tidy_local (h : l.slot < m) : Tidy G m (emitLocal l) :=
  (tidy_load h).andThen <| .ite (fun _ => (tidy_emitWith rfl rfl).andThen <| .pure fun _ _ => trivial) fun _ =>
    .pure fun _ _ => trivial

theorem addressable_inv (h : addressable locals x = .ok l) : locals.lookup x = some l := by
  unfold addressable at h
  split at h
  · exact nomatch h
  · split at h
    · exact nomatch h
    · cases h
      assumption

theorem reference?_inv (h : reference? locals e = some l) : ∃ x, locals.lookup x = some l := by
  unfold reference? at h
  split at h
  · split at h
    · split at h
      · cases h
        exact ⟨_, by assumption⟩
      · exact nomatch h
    · exact nomatch h
  · exact nomatch h

theorem tidy_stepTop : Tidy G m (stepTop op w) := tidy_pushInt.andThen tidy_arithmetic

theorem tidy_stepIndirect {address : Nat} (h : address < m) : Tidy G m (stepIndirect op w address) :=
  (tidy_load h).andThen <| (tidy_load h).andThen <| (tidy_emitWith rfl rfl).andThen <| tidy_stepTop.andThen <|
    tidy_emitWith rfl rfl

theorem tidy_stepLocal (h : l.slot < m)
    (hG : l.isArguments = false → G l.slot) : Tidy G m (stepLocal builtin op l) := by
  refine .liftBind fun _ _ => ?_
  split
  case h_1 hshape =>
    refine (tidy_load h).andThen <| tidy_stepTop.andThen <| (tidy_emitWith rfl rfl).andThen <|
      (tidy_store h (hG ?_)).andThen <| .pure fun _ _ => trivial
    simp [Local.isArguments, hshape]
  · exact (tidy_stepIndirect h).andThen <| .pure fun _ _ => trivial
  · exact .throw

end

section
variable {E : Emitter} (hE : E.Frames) {G : Nat → Prop} {m : Nat} {ctx : Context} {locals : Locals}
  (hroom : Room G m ctx locals)

include hroom in
theorem tidy_location : Tidy G m (emitLocation locals target) := by
  unfold emitLocation
  split
  · refine .liftBind fun l hl => .check fun _ => ?_
    have hslot := hroom.slot_lt (addressable_inv hl)
    exact .ite (fun _ => (tidy_load hslot).andThen <| .pure fun _ _ => trivial) fun _ =>
      (tidy_address hslot).andThen <| .pure fun _ _ => trivial
  · exact .throw

include hE hroom

theorem tidy_binary {l : Expr} (hl : Granted G locals l) (hr : Granted G locals r) :
    Tidy G m (emitArithmetic E ctx locals op l r) := by
  refine tidy_operand.bind fun _ m₁ hm₁ _ => tidy_operand.bind fun _ m₂ hm₂ _ => .liftBind fun resolution _ => ?_
  have hroom := hroom.later (Nat.le_trans hm₁ hm₂)
  cases resolution with
  | numeric w =>
    exact (hE.exprAt hroom hl).andThen <| (hE.exprAt hroom.behind hr).andThen <| tidy_arithmetic.andThen <|
      .pure fun _ _ => trivial
  | pointer target =>
    exact (hE.expr hroom hl).andThen <| (hE.expr hroom.behind hr).andThen <| tidy_arithmetic.andThen <|
      .pure fun _ _ => trivial

theorem tidy_negation (he : Granted G locals e) : Tidy G m (emitNegate E ctx locals e) := by
  refine tidy_operand.bind fun _ m₁ hm₁ _ => .liftBind fun w _ => (hE.exprAt (hroom.later hm₁) he).andThen ?_
  split
  case h_1 h => exact (tidy_negate h).andThen <| .pure fun _ _ => trivial
  case h_2 => exact .throw

theorem tidy_comparison {op : ComparisonOp} {l : Expr} (hl : Granted G locals l) (hr : Granted G locals r) :
    Tidy G m (emitComparison E ctx locals op l r) := by
  refine tidy_operand.bind fun _ m₁ hm₁ _ => tidy_operand.bind fun _ m₂ hm₂ _ => .liftBind fun w _ => ?_
  have hroom := hroom.later (Nat.le_trans hm₁ hm₂)
  exact (hE.exprAt hroom hl).andThen <| (hE.exprAt hroom.behind hr).andThen <| tidy_compare.andThen <|
    .pure fun _ _ => trivial

theorem tidy_convert (he : Granted G locals e) : Tidy G m (emitConvert E ctx locals c e) := by
  refine .liftBind fun _ _ => (hE.expr hroom he).bind fun _ _ _ _ => .check fun _ => .liftBind fun _ _ =>
    .ite (fun _ => ?_) fun _ => .liftBind fun _ _ => ?_
  · exact tidy_pushInt.andThen <| tidy_compare.andThen <| .pure fun _ _ => trivial
  · exact tidy_coerce.andThen <| .pure fun _ _ => trivial

theorem tidy_math {f : MathFunction} (hargs : ∀ e ∈ c.args, Granted G locals e) :
    Tidy G m (emitMath E ctx locals c f) := by
  refine (Respects.mapM (P := fun _ _ => True) (fun _ _ _ _ => id) fun _ _ _ _ => tidy_operand).bind ?_
  intro operands m₁ hm₁ _
  refine .liftBind fun w _ => ?_
  have hslots : Respects G m₁ (c.args.mapM fun e => do E.exprAt ctx locals e w; spill)
      fun slots m' => ∀ k ∈ slots, k < m' ∧ G k := by
    refine Respects.mapM (fun k _ _ hm h => h.imp_left fun h => Nat.lt_of_lt_of_le h hm) fun e he m₂ hm₂ => ?_
    have hroom := hroom.later (Nat.le_trans hm₁ hm₂)
    exact (hE.exprAt hroom (hargs e he)).andThen <| respects_spill hroom.fresh
  refine hslots.bind fun slots m₂ hm₂ h => ?_
  exact (tidy_applyMath (hroom.fresh.mono (Nat.le_trans hm₁ hm₂)) h).andThen <| .pure fun _ _ => trivial

theorem tidy_pointer (he : Granted G locals e) : Tidy G m (emitPointer E ctx locals e) := by
  unfold emitPointer
  split
  case h_1 l hl =>
    obtain ⟨x, hl⟩ := reference?_inv hl
    exact (tidy_load (hroom.slot_lt hl)).andThen <| .pure fun _ _ => trivial
  · refine (hE.expr hroom he).bind fun operand _ _ _ => ?_
    cases operand with
    | pointer => exact .pure fun _ _ => trivial
    | value => exact .throw

theorem tidy_dereference (htarget : Granted G locals target) : Tidy G m (emitDereference E ctx locals target) :=
  (tidy_pointer hE hroom htarget).bind fun _ _ _ _ => (tidy_emitWith rfl rfl).andThen <| .pure fun _ _ => trivial

theorem tidy_assignLocal (hl : l.slot < m) (hG : l.isArguments = false → G l.slot) (hvalue : Granted G locals value) :
    Tidy G m (assignLocal E ctx locals x l value) := by
  unfold assignLocal
  refine .check fun hkind => ?_
  have hG : G l.slot := hG (by simp [Local.isArguments, hkind])
  split
  · exact (tidy_load hl).andThen <| (hE.expr hroom.behind hvalue).bind fun _ _ _ _ => tidy_coerce.andThen <|
      (tidy_emitWith rfl rfl).andThen <| .pure fun _ _ => trivial
  · exact (hE.expr hroom hvalue).andThen <| (tidy_emitWith rfl rfl).andThen <| (tidy_store hl hG).andThen <|
      .pure fun _ _ => trivial
  · exact (hE.expr hroom hvalue).bind fun _ _ hm _ => tidy_coerce.andThen <| (tidy_emitWith rfl rfl).andThen <|
      (tidy_store (Nat.lt_of_lt_of_le hl hm) hG).andThen <| .pure fun _ _ => trivial
  all_goals exact .throw

omit hE hroom in
/-- The pointer of a target that is dereferenced is in the target. -/
theorem granted_dereferenced {pointer : Expr} (h : dereferenced? target = some pointer)
    (htarget : Granted G locals target) : Granted G locals pointer := by
  unfold dereferenced? at h
  split at h
  · split at h
    case h_1 hargs =>
      split at h
      · cases h
        exact htarget.args_of_isCallTo (by assumption) (by nofun) _ (by simp [hargs])
      · exact nomatch h
    case h_2 => exact nomatch h
  · exact nomatch h

theorem tidy_assign (htarget : Granted G locals target) (hvalue : Granted G locals value)
    (hG : ∀ ts x, target = .name ts x → Grants G locals x) : Tidy G m (emitAssign E ctx locals target value) := by
  unfold emitAssign
  split
  case h_1 ts x =>
    refine .liftBind fun l hl => ?_
    obtain ⟨hlookup, hmutable⟩ := mutableLocal_inv hl
    exact tidy_assignLocal hE hroom (hroom.slot_lt hlookup) (hG ts x rfl l hlookup hmutable) hvalue
  · split
    · exact .throw
    case h_2 pointer hpointer =>
      refine (tidy_pointer hE hroom (granted_dereferenced hpointer htarget)).bind fun _ m₁ hm₁ _ => ?_
      exact (hE.expr (hroom.later hm₁).behind hvalue).bind fun _ _ _ _ => tidy_coerce.andThen <|
        (tidy_emitWith rfl rfl).andThen <| .pure fun _ _ => trivial

theorem tidy_step (htarget : Granted G locals target)
    (hG : ∀ ts x, target = .name ts x → Grants G locals x) : Tidy G m (emitStep E ctx locals builtin op target) := by
  unfold emitStep
  split
  case h_1 ts x =>
    refine .liftBind fun l hl => ?_
    obtain ⟨hlookup, hmutable⟩ := mutableLocal_inv hl
    exact tidy_stepLocal (hroom.slot_lt hlookup) (hG ts x rfl l hlookup hmutable)
  · split
    · exact .throw
    case h_2 pointer hpointer =>
      refine (tidy_pointer hE hroom (granted_dereferenced hpointer htarget)).bind fun _ m₁ hm₁ _ => ?_
      exact .liftBind fun _ _ => (respects_spill (hroom.fresh.mono hm₁)).bind fun _ _ _ h =>
        (tidy_stepIndirect h.1).andThen <| .pure fun _ _ => trivial

omit hE hroom in
theorem granted_branchBody (h : Returns.branchBody e = .ok body)
    (he : Granted G locals e) : GrantedIn G locals body := by
  obtain ⟨henvelope, hbody⟩ := Returns.branchBody_inv h
  cases e with
  | call ts c =>
    simp only [Returns.isEnvelope, Bool.and_eq_true, List.isEmpty_iff] at henvelope
    exact he.body (fun _ => henvelope.1.1.1.2) hbody
  | literal | name => cases henvelope

theorem tidy_branchValue {result : Operand} (hyes : Granted G locals yes) :
    Tidy G m (emitBranch E ctx locals result yes) :=
  .liftBind fun _ hbody => (hE.blockValue hroom (granted_branchBody hbody hyes)).bind fun _ _ _ _ => tidy_coerce

theorem tidy_ifValue {cond no : Expr} (hcond : Granted G locals cond) (hyes : Granted G locals yes)
    (hno : Granted G locals no) : Tidy G m (emitIfValue E ctx locals c cond yes no) := by
  refine tidy_infer.bind fun _ m₁ hm₁ _ => ?_
  have hroom := hroom.later hm₁
  exact (hE.condition hroom hcond).andThen <| ((tidy_branchValue hE hroom hyes).branch
    (tidy_branchValue hE hroom hno)).andThen <| .pure fun _ _ => trivial

theorem tidy_builtin {ts : List Transform} {b : Builtin} (hcall : Granted G locals (.call ts c))
    (hbinding : c.isBinding = false) (hb : c.builtin? = some b) : Tidy G m (emitBuiltin E ctx locals c b.cls) := by
  by_cases hfor : b.cls = .forLoop
  · rw [hfor]
    exact .throw
  have hfor : ¬c.IsFor := CallOf.not_isFor_of_cls hb hfor
  have hargs := hcall.args hfor
  have hbool {e : Expr} (he : e ∈ c.args) : Tidy G m (emitBool E ctx locals e) := hE.condition hroom (hargs e he)
  unfold emitBuiltin
  split
  case h_1 op l r hcls h => exact tidy_binary hE hroom (hargs l (by simp [h])) (hargs r (by simp [h]))
  case h_2 e hcls h => exact tidy_negation hE hroom (hargs e (by simp [h]))
  case h_3 op l r hcls h => exact tidy_comparison hE hroom (hargs l (by simp [h])) (hargs r (by simp [h]))
  case h_4 l r hcls h =>
    exact (hbool (by simp [h])).andThen <| ((hbool (by simp [h])).branch (tidy_emitWith rfl rfl)).andThen <|
      .pure fun _ _ => trivial
  case h_5 l r hcls h =>
    exact (hbool (by simp [h])).andThen <| (Respects.branch (tidy_emitWith rfl rfl) (hbool (by simp [h]))).andThen <|
      .pure fun _ _ => trivial
  case h_6 e hcls h =>
    exact (hbool (by simp [h])).andThen <| (tidy_emitWith rfl rfl).andThen <| (tidy_emitWith rfl rfl).andThen <|
      .pure fun _ _ => trivial
  case h_7 => exact tidy_math hE hroom hargs
  case h_8 e hcls h => exact tidy_convert hE hroom (hargs e (by simp [h]))
  case h_9 => exact tidy_location hroom
  case h_10 e hcls h => exact tidy_dereference hE hroom (hargs e (by simp [h]))
  case h_11 target value hcls h =>
    refine tidy_assign hE hroom (hargs target (by simp [h])) (hargs value (by simp [h])) fun ts' x htarget => ?_
    exact hcall x (.target hbinding hb (.inl hcls) (htarget ▸ h))
  case h_12 op target hcls h =>
    refine tidy_step hE hroom (hargs target (by simp [h])) fun ts' x htarget => ?_
    exact hcall x (.target hbinding hb (.inr ⟨op, hcls⟩) (htarget ▸ h))
  case h_13 cond yes no hcls h =>
    exact tidy_ifValue hE hroom (hargs cond (by simp [h])) (hargs yes (by simp [h])) (hargs no (by simp [h]))
  case h_14 =>
    refine hE.blockValue hroom ?_
    cases hbody : c.body with
    | none => exact nofun
    | some l => exact hcall.body (absurd · hfor) hbody
  case h_15 target hcls h => exact tidy_count hE hroom (hargs target (by simp [h]))
  case h_16 checked target position hcls h => exact tidy_index hE hroom h hargs
  all_goals exact .throw

theorem tidy_call (hargs : ∀ e ∈ c.args, Granted G locals e) : Tidy G m (emitCall E ctx locals c) := by
  refine tidy_infer.bind fun callee m₁ hm₁ _ => (tidy_expand hE (hroom.later hm₁) hargs).bind fun kind _ _ _ => ?_
  cases kind with
  | none => exact .throw
  | some kind => exact .pure fun _ _ => trivial

theorem tidy_expr (he : Granted G locals e) : Tidy G m (emitExpr E ctx locals e) := by
  refine .liftBind fun ctx' hinside => ?_
  have hroom := hroom.inside hinside
  split
  · exact tidy_literalValue
  · exact .liftBind fun _ hl => tidy_local (hroom.slot_lt (lookup_of_readable hl))
  · refine .ite (fun _ => .throw) fun hbinding => ?_
    split
    case h_1 b hb =>
      exact .check fun _ => .liftBind fun _ _ => .liftBind fun _ _ =>
        tidy_builtin hE hroom he (by simpa using hbinding) hb
    case h_2 hb =>
      have hfor : ¬CallOf.IsFor _ := fun ⟨_, _, h, _⟩ => nomatch hb.symm.trans h
      exact tidy_call hE hroom (he.args hfor)

end
end FlatCode.Lower
