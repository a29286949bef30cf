import FlatCode.Proofs.Lockstep.Basic

/-! The code of collections, strings and the arguments of the run in two scopes. Only a map is searched with a loop. -/

namespace FlatCode.Lower
open Stateful

variable {type : BindingType} {checked : Bool} {c : Call} {e position target : Expr} {builtin : String}

/-- A collection has the shape that its form says. -/
theorem shape_of_collection {form : CollectionForm} {name : String} {args : List String}
    (h : BindingType.collection [] form name args = .ok type) : type.shape = form.shape := by
  unfold BindingType.collection at h
  split at h
  · split at h
    · obtain ⟨kind, -, h₁⟩ := except_bind_eq_ok.mp h
      obtain ⟨key, -, h₂⟩ := except_bind_eq_ok.mp h₁
      cases h₂
      rfl
    · exact nomatch h
  · obtain ⟨t, -, h₁⟩ := except_bind_eq_ok.mp h
    obtain ⟨kind, -, h₂⟩ := except_bind_eq_ok.mp h₁
    cases h₂
    rfl

/-- Only a call of `map` builds a map. -/
theorem map_of_ofLiteral? (h : BindingType.ofLiteral? [] c = .ok (some type))
    (hmap : type.shape = .map) : c.isBinding = false ∧ c.name ∈ loopNames := by
  obtain ⟨form, hform, hplain, hcollection⟩ := BindingType.ofLiteral?_inv h
  have hshape := (shape_of_collection hcollection).symm.trans hmap
  refine ⟨by simp_all [CallOf.isPlain], ?_⟩
  unfold BindingType.form? at hform
  split at hform <;> cases hform
  case h_3 hname =>
    rw [hname]
    decide
  all_goals cases hshape

section
variable {g : Pace} {scope' : Scope} {I' : Inferrer} {X : Nat → Context → Expr → Prop} {n : Nat} {E E' : Emitter}
  {ctx : Context} {locals : Locals} (hX : Coverage g scope' I' X)
include hX

theorem lockstep_operand (he : X n ctx e) :
    Lockstep g (ctx.operand locals e) ((ctx.over scope' I').operand locals e) fun _ => True :=
  .infer (hX.operand he)

theorem lockstep_indexWidth (he : X n ctx e) :
    Lockstep g (indexWidth ctx locals builtin e) (indexWidth (ctx.over scope' I') locals builtin e) fun _ => True :=
  (lockstep_operand hX he).bind fun _ _ => .check nofun fun _ => .lift shallow_widthOf fun _ _ => trivial

theorem mayLoop_of_collection? (he : X n ctx e) (hl : Fit g locals)
    (h : collection? locals e = .ok (some type)) (hmap : type.shape = .map) : g.mayLoop := by
  unfold collection? at h
  split at h
  case h_1 ts x =>
    obtain ⟨l, hlookup, hcollection⟩ := Option.bind_eq_some_iff.mp (Except.ok.inj h)
    unfold Local.collection? at hcollection
    split at hcollection
    · cases hcollection
      exact hl.lookup hlookup hmap
    · exact nomatch hcollection
  case h_2 ts c =>
    obtain ⟨hbinding, hname⟩ := map_of_ofLiteral? h hmap
    exact hX.loops he hbinding hname
  case h_3 => exact nomatch h

variable (hE : E.Handles g scope' I' (X n) E') (hl : Fit g locals)
include hE hl

omit hX in
theorem lockstep_elements {w next : Width} {slot : Nat} {args : List Expr} (hargs : ∀ a ∈ args, X n ctx a) :
    Lockstep g (emitElements E ctx locals builtin w next slot args)
      (emitElements E' (ctx.over scope' I') locals builtin w next slot args) fun _ => True := by
  induction args generalizing w next slot with
  | nil => exact .pure trivial
  | cons e rest ih =>
    refine (hE.expr (hargs e List.mem_cons_self) hl).bind fun _ _ => .check nofun fun _ => ?_
    exact lockstep_coerce.andThen <| lockstep_store.andThen <| ih fun a ha => hargs a (List.mem_cons_of_mem _ ha)

omit hX in
theorem lockstep_literal (hargs : ∀ a ∈ c.args, X n ctx a) :
    Lockstep g (emitLiteral E ctx locals c type) (emitLiteral E' (ctx.over scope' I') locals c type) fun _ => True := by
  refine .liftBind EffectSet.shallow_require fun _ _ => .liftBind shallow_literalWidths fun ⟨even, odd⟩ _ =>
    lockstep_newSlots.bind fun base _ => (Lockstep.emitWith rfl).andThen <| lockstep_store.andThen ?_
  have hrest {k : Nat} : Lockstep g (do
      emitElements E ctx locals c.name even odd k c.args
      emitWith .addressOfLocal (UInt64.ofNat base)) (do
      emitElements E' (ctx.over scope' I') locals c.name even odd k c.args
      emitWith .addressOfLocal (UInt64.ofNat base)) fun _ => True :=
    (lockstep_elements hE hl hargs).andThen (.emitWith rfl)
  exact .ite (fun _ => (Lockstep.emitWith rfl).andThen <| lockstep_store.andThen hrest) fun _ => hrest

/-- What is built is no map unless there may be loops. -/
theorem lockstep_collection (he : X (n + 1) ctx e) :
    Lockstep g (emitCollection E ctx locals e) (emitCollection E' (ctx.over scope' I') locals e)
      fun type => type.shape = .map → g.mayLoop := by
  unfold emitCollection
  split
  case h_1 ts x =>
    split
    · exact .throw (by simp)
    case h_2 l hlookup =>
      split
      · exact .throw (by simp)
      case h_2 type htype =>
        have hcollection : collection? locals (.name ts x) = .ok (some type) := by simp [collection?, hlookup, htype]
        exact lockstep_load.andThen <| .pure (mayLoop_of_collection? hX he hl hcollection)
  case h_2 ts c =>
    refine .liftBind BindingType.shallow_ofLiteral? fun type? htype => ?_
    cases type? with
    | none => exact .throw (by simp)
    | some type =>
      refine .inside fun effects => ?_
      have hargs : ∀ a ∈ c.args, X n { ctx with effects } a := fun a ha => hX.effects effects ((hX.parts he).1 a ha)
      exact (lockstep_literal hE hl hargs).andThen <| .pure (mayLoop_of_collection? (e := .call ts c) hX he hl htype)
  case h_3 => exact .throw (by simp)

theorem lockstep_spillIndex (he : X n ctx e) :
    Lockstep g (spillIndex E ctx locals builtin e) (spillIndex E' (ctx.over scope' I') locals builtin e) fun _ => True :=
  (lockstep_indexWidth hX he).bind fun _ _ => lockstep_newSlot.bind fun _ _ => (hE.exprAt he hl).andThen <|
    lockstep_store.andThen <| .pure trivial

theorem lockstep_argumentIndex (hargs : ∀ a ∈ c.args, X n ctx a) :
    Lockstep g (emitArgumentIndex E ctx locals c checked) (emitArgumentIndex E' (ctx.over scope' I') locals c checked)
      fun _ => True := by
  unfold emitArgumentIndex
  split
  case h_1 target position hc =>
    have hposition : X n ctx position := hargs position (by simp [hc])
    refine .check nofun fun _ => .ite (fun _ => ?_) fun _ => ?_
    · refine (lockstep_spillIndex hX hE hl hposition).bind fun _ _ => ?_
      exact (routine_checkRange (d := 0) routine_pushArgc (by decide)).lockstep.andThen lockstep_load
    · exact (lockstep_indexWidth hX hposition).bind fun _ _ => hE.exprAt hposition hl
  case h_2 => exact .throw nofun

theorem lockstep_element (htarget : X (n + 1) ctx target) (hposition : X n ctx position) :
    Lockstep g (emitElement E ctx locals builtin type target position checked)
      (emitElement E' (ctx.over scope' I') locals builtin type target position checked) fun _ => True := by
  refine lockstep_newSlot.bind fun base _ => (lockstep_collection hX hE hl htarget).bind fun _ _ =>
    lockstep_store.andThen <| (lockstep_spillIndex hX hE hl hposition).bind fun ⟨index, w⟩ _ => ?_
  have hrest : Routine (· ≠ .tooDeep) g.mayLoop 0 1 (do
      emitAddress base index 1 (Int64.ofNat (headerSlots type))
      emit .loadIndirect) :=
    routine_address.andThen routine_loadIndirect
  have hbound : Routine (· ≠ .tooDeep) g.mayLoop 1 2 (do load base; emit .loadIndirect; coerce .int32 w.kind) :=
    routine_load.andThen <| routine_loadIndirect.andThen routine_coerce
  exact Routine.lockstep (.ite (fun _ => (routine_checkRange hbound (by decide)).andThen hrest) fun _ => hrest)

theorem lockstep_lookup (htarget : X (n + 1) ctx target) (hposition : X n ctx position) (hloop : g.mayLoop) :
    Lockstep g (emitLookup E ctx locals type target position checked)
      (emitLookup E' (ctx.over scope' I') locals type target position checked) fun _ => True := by
  have hwidth : Lockstep g (lookupWidth ctx locals type position) (lookupWidth (ctx.over scope' I') locals type position)
      fun _ => True :=
    .liftBind shallow_widthOf fun _ _ => (lockstep_operand hX hposition).bind fun _ _ => .check nofun fun _ => .pure trivial
  refine hwidth.bind fun w _ => lockstep_newSlot.bind fun base _ => (lockstep_collection hX hE hl htarget).bind fun _ _ =>
    lockstep_store.andThen <| lockstep_newSlot.bind fun key _ => (hE.exprAt hposition hl).andThen <|
    lockstep_store.andThen <| Routine.lockstep (d := 0) (k := 1) ?_
  exact routine_newSlot.bind fun _ => routine_load.andThen <| routine_loadIndirect.andThen <| routine_store.andThen <|
    routine_newSlot.bind fun _ => routine_pushI32.andThen <| routine_store.andThen <|
    (routine_search hloop).andThen <| routine_address.andThen routine_loadIndirect

omit hX hE hl in
theorem lockstep_knownText : Lockstep g (knownText? locals builtin e) (knownText? locals builtin e) fun _ => True := by
  unfold knownText?
  split
  · exact lockstep_internText.bind fun _ _ => .pure trivial
  · split
    · exact .pure trivial
    · refine .ite (fun _ => ?_) fun _ => .pure trivial
      split
      · exact .pure trivial
      · exact .of_nop fun s => ⟨_, _, rfl, rfl, .nop s⟩
      · exact .throw nofun
  · exact .pure trivial

theorem lockstep_byte {index length : Nat} (hposition : X n ctx position) :
    Lockstep g (emitByte E ctx locals builtin index length position checked)
      (emitByte E' (ctx.over scope' I') locals builtin index length position checked) fun _ => True := by
  refine (lockstep_spillIndex hX hE hl hposition).bind fun ⟨slot, w⟩ _ => Routine.lockstep (d := 0) (k := 1) ?_
  have hrest : Routine (· ≠ .tooDeep) g.mayLoop 0 1 (do
      load slot
      emitWith .loadStringByte (UInt64.ofNat index)) :=
    routine_load.andThen <| .quiet (a := 1) (b := 1) (by decide) 0
  exact .ite (fun _ => (routine_checkRange routine_pushInt (by decide)).andThen hrest) fun _ => hrest

theorem lockstep_count (htarget : X (n + 1) ctx target) :
    Lockstep g (emitCount E ctx locals builtin target) (emitCount E' (ctx.over scope' I') locals builtin target)
      fun _ => True := by
  refine .ite (fun _ => (Lockstep.emitWith rfl).andThen <| .pure trivial) fun _ =>
    .liftBind shallow_collection? fun type? _ => ?_
  cases type? with
  | some type =>
    exact (lockstep_collection hX hE hl htarget).bind fun _ _ => (Lockstep.emitWith rfl).andThen <| .pure trivial
  | none =>
    refine lockstep_knownText.bind fun known _ => ?_
    cases known with
    | none => exact .throw nofun
    | some text => exact (Lockstep.emitWith rfl).andThen <| .pure trivial

theorem lockstep_index (hc : c.args = [target, position]) (hargs : ∀ a ∈ c.args, X n ctx a) :
    Lockstep g (emitIndex E ctx locals c target position checked)
      (emitIndex E' (ctx.over scope' I') locals c target position checked) fun _ => True := by
  have htarget : X (n + 1) ctx target := hX.weaken (hargs target (by simp [hc]))
  have hposition : X n ctx position := hargs position (by simp [hc])
  refine .ite (fun _ => (lockstep_argumentIndex hX hE hl hargs).andThen <| .pure trivial) fun _ =>
    .liftBind shallow_collection? fun type? htype => ?_
  cases type? with
  | some type =>
    refine .ite (fun hmap => ?_) fun _ => ?_
    · have hloop : g.mayLoop := mayLoop_of_collection? hX htarget hl htype hmap
      exact (lockstep_lookup hX hE hl htarget hposition hloop).andThen <| .pure trivial
    · exact (lockstep_element hX hE hl htarget hposition).andThen <| .pure trivial
  | none =>
    refine lockstep_knownText.bind fun known _ => ?_
    cases known with
    | none => exact .throw nofun
    | some text => exact (lockstep_byte hX hE hl hposition).andThen <| .pure trivial

end
end FlatCode.Lower
