import FlatCode.Proofs.Layout.Basic

/-! The code of collections, strings and the arguments of the run leaves one word. -/

namespace FlatCode.Lower

variable {type : BindingType} {checked : Bool} {c : Call} {e position target : Expr} {builtin : String}

section
variable {u : Realm} {below : Option Nat} {P : Prop} {d : Nat} {ctx : Context} {locals : Locals}

theorem emits_indexWidth : Moves u below P d d (indexWidth ctx locals builtin e) :=
  emits_operand.bind fun _ => .check (.lift fun _ _ _ => trivial)

theorem emits_knownText : Moves u below P d d (knownText? locals builtin e) := by
  unfold knownText?
  split
  · exact emits_internText.bind fun _ => .pure fun _ => trivial
  · split
    · exact .pure fun _ => trivial
    · refine .ite (fun _ => ?_) fun _ => .pure fun _ => trivial
      split
      · exact .pure fun _ => trivial
      · exact emits_get.bind fun _ => .pure fun _ => trivial
      · exact .throw
  · exact .pure fun _ => trivial

end

section
variable {u : Realm} {E : Emitter} {ctx : Context} {locals : Locals}

theorem emits_elements {w next : Width} {slot : Nat} {args : List Expr} (hE : E.Good u) (hctx : u.Admits ctx) :
    Moves u ctx.below (u.Texts locals) 0 0 (emitElements E ctx locals builtin w next slot args) := by
  induction args generalizing w next slot with
  | nil => exact .pure fun _ => trivial
  | cons e rest ih =>
    exact (hE.expr hctx).bind fun _ => .check <| emits_coerce.andThen <| emits_store.andThen ih

variable (hE : E.Good u) (hctx : u.Admits ctx)
include hE hctx

theorem emits_literal : Moves u ctx.below (u.Texts locals) 0 1 (emitLiteral E ctx locals c type) := by
  refine .liftBind fun _ _ => .liftBind fun ⟨even, odd⟩ _ => emits_newSlots.bind fun base =>
    emits_pushI32.andThen <| emits_store.andThen ?_
  have hrest {k : Nat} : Moves u ctx.below (u.Texts locals) 0 1 (do
      emitElements E ctx locals c.name even odd k c.args
      emitWith .addressOfLocal (UInt64.ofNat base)) :=
    (emits_elements hE hctx).andThen <| .quiet (a := 0) (b := 1) (by decide) nofun 0
  exact .ite (fun _ => emits_pushI32.andThen <| emits_store.andThen hrest) fun _ => hrest

theorem emits_collection : Moves u ctx.below (u.Texts locals) 0 1 (emitCollection E ctx locals e) := by
  unfold emitCollection
  split
  · split
    · exact .throw
    · split
      · exact .throw
      · exact emits_load.andThen <| .pure fun _ => trivial
  · refine .liftBind fun type? _ => ?_
    cases type? with
    | none => exact .throw
    | some type =>
      refine .liftBind fun ctx' hinside => ?_
      obtain ⟨hctx', hbelow⟩ := hctx.inside hinside
      rw [← hbelow]
      exact (emits_literal hE hctx').andThen <| .pure fun _ => trivial
  · exact .throw

theorem emits_spillIndex : Moves u ctx.below (u.Texts locals) 0 0 (spillIndex E ctx locals builtin e) :=
  emits_indexWidth.bind fun _ => emits_newSlot.bind fun _ => (hE.exprAt hctx).andThen <| emits_store.andThen <|
    .pure fun _ => trivial

theorem emits_argumentIndex : Moves u ctx.below (u.Texts locals) 0 1 (emitArgumentIndex E ctx locals c checked) := by
  unfold emitArgumentIndex
  split
  · refine .check <| .ite (fun _ => ?_) fun _ => ?_
    · exact (emits_spillIndex hE hctx).bind fun _ =>
        (routine_checkRange routine_pushArgc (by decide)).emits.andThen emits_load
    · exact emits_indexWidth.bind fun _ => hE.exprAt hctx
  · exact .throw

theorem emits_element :
    Moves u ctx.below (u.Texts locals) 0 1 (emitElement E ctx locals builtin type target position checked) := by
  refine emits_newSlot.bind fun base => (emits_collection hE hctx).bind fun _ => emits_store.andThen <|
    (emits_spillIndex hE hctx).bind fun ⟨index, w⟩ => ?_
  have hrest : Moves u ctx.below (u.Texts locals) 0 1 (do
      emitAddress base index 1 (Int64.ofNat (headerSlots type))
      emit .loadIndirect) :=
    routine_address.emits.andThen emits_loadIndirect
  refine .ite (fun _ => ?_) fun _ => hrest
  have hbound : Routine (fun _ => True) True 1 2 (do load base; emit .loadIndirect; coerce .int32 w.kind) :=
    routine_load.andThen <| routine_loadIndirect.andThen routine_coerce
  exact (routine_checkRange hbound (by decide)).emits.andThen hrest

theorem emits_lookup :
    Moves u ctx.below (u.Texts locals) 0 1 (emitLookup E ctx locals type target position checked) := by
  have hwidth : Moves u ctx.below (u.Texts locals) 0 0 (lookupWidth ctx locals type position) :=
    .liftBind fun _ _ => emits_operand.bind fun _ => .check <| .pure fun _ => trivial
  exact hwidth.bind fun _ => emits_newSlot.bind fun _ => (emits_collection hE hctx).bind fun _ => emits_store.andThen <|
    emits_newSlot.bind fun _ => (hE.exprAt hctx).andThen <| emits_store.andThen <| emits_newSlot.bind fun _ =>
    emits_load.andThen <| emits_loadIndirect.andThen <| emits_store.andThen <| emits_newSlot.bind fun _ =>
    emits_pushI32.andThen <| emits_store.andThen <| (routine_search trivial).emits.andThen <|
    routine_address.emits.andThen emits_loadIndirect

theorem emits_byte {index length : Nat} :
    Moves u ctx.below (u.Texts locals) 0 1 (emitByte E ctx locals builtin index length position checked) := by
  refine (emits_spillIndex hE hctx).bind fun ⟨slot, w⟩ => ?_
  have hrest : Moves u ctx.below (u.Texts locals) 0 1 (do
      load slot
      emitWith .loadStringByte (UInt64.ofNat index)) :=
    emits_load.andThen <| .quiet (a := 1) (b := 1) (by decide) nofun 0
  exact .ite (fun _ => (routine_checkRange routine_pushInt (by decide)).emits.andThen hrest) fun _ => hrest

theorem emits_count : Moves u ctx.below (u.Texts locals) 0 1 (emitCount E ctx locals builtin target) := by
  refine .ite (fun _ => routine_pushArgc.emits.andThen <| .pure fun _ => trivial) fun _ => .liftBind fun type? _ => ?_
  cases type? with
  | some type =>
    exact (emits_collection hE hctx).bind fun _ => emits_loadIndirect.andThen <| .pure fun _ => trivial
  | none =>
    refine emits_knownText.bind fun known => ?_
    cases known with
    | none => exact .throw
    | some text => exact emits_pushI32.andThen <| .pure fun _ => trivial

theorem emits_index : Moves u ctx.below (u.Texts locals) 0 1 (emitIndex E ctx locals c target position checked) := by
  refine .ite (fun _ => (emits_argumentIndex hE hctx).andThen <| .pure fun _ => trivial) fun _ =>
    .liftBind fun type? _ => ?_
  cases type? with
  | some type =>
    refine .ite (fun _ => ?_) fun _ => ?_
    · exact (emits_lookup hE hctx).andThen <| .pure fun _ => trivial
    · exact (emits_element hE hctx).andThen <| .pure fun _ => trivial
  | none =>
    refine emits_knownText.bind fun known => ?_
    cases known with
    | none => exact .throw
    | some text => exact (emits_byte hE hctx).andThen <| .pure fun _ => trivial

end
end FlatCode.Lower
