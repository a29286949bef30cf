import FlatCode.Proofs.Agreement.Collection

/-! Lowering what is accepted: bindings and expansions. A declaration is bound to the type that the check has given it,
    so that the body of an expansion is lowered in a scope and a context that follow those in which it was accepted. -/

namespace FlatCode

/-! ### Filling parameters -/

namespace Arguments

variable {filled : List (Option Nat)} {labels : List (Option String)} {params : List Expr} {count cursor : Nat}
  {callee : String}

theorem ends_slotFor
    {label : Option String} : Ends (·.isLate = true) (fun _ => True) (slotFor callee params filled cursor label) := by
  unfold slotFor
  split
  · split
    · exact rfl
    · split
      · exact rfl
      · trivial
  · dsimp only
    split
    · trivial
    · exact rfl

theorem ends_place {i : Nat} :
    Ends (·.isLate = true) (·.length = filled.length) (place callee params filled cursor i labels) := by
  induction labels generalizing filled cursor i with
  | nil => exact rfl
  | cons label rest ih =>
    refine ends_slotFor.bind fun (slot, cursor') _ _ => ih.mono fun _ _ hlength => ?_
    rw [hlength, List.length_set]

theorem ends_order (h : repeatedLabel? [] labels = none) :
    Ends (·.isLate = true) (·.length = params.length) (order callee params count labels) := by
  unfold order
  rw [h]
  have hfilling (param : Expr) (slot : Option Nat) :
      Ends (·.isLate = true) (fun _ => True) (fillingOf callee param slot) := by
    unfold fillingOf
    split
    · trivial
    · split
      · trivial
      · exact rfl
  refine ends_place.bind fun filled _ hfilled => ?_
  refine (Ends.mapM fun (param, slot) _ => hfilling param slot).mono fun fillings _ hlength => ?_
  rw [hlength, List.length_zip, hfilled, List.length_map, Nat.min_self]

theorem repeatedLabel?_of_order
    {fillings : List Filling} (h : order callee params count labels = .ok fillings) : repeatedLabel? [] labels = none := by
  unfold order at h
  split at h
  · exact nomatch h
  · assumption

end Arguments

theorem Expr.declared?_ne_none {e : Expr} {names : List (Bool × String)} (h : e.isRegularParameter names = true)
    {scope : Scope} {templates : List String} :
    BindingType.declared? scope templates e.transforms ≠ .ok none := by
  obtain ⟨⟨t, ht, hname⟩, -⟩ := isRegular_parameter h
  unfold BindingType.declared?
  split
  case h_1 t _ =>
    cases BindingType.ofTransform scope templates t <;> exact nofun
  case h_2 hnone =>
    have hno := List.find?_eq_none.mp hnone t ht
    rw [hname] at hno
    exact absurd rfl hno

namespace Lower
open Stateful
open Check (Env Accepts AcceptsAll AcceptsBinding AcceptsBody AcceptsBuiltin AcceptsCall AcceptsParameters Enters Setting)

variable {parameter : Bool} {b : Check.Binding} {callee : Check.Context} {d : Definition} {E : Emitter} {penv : Env}
  {e : Expr} {args : List Expr} {fillings : List Filling} {operands : List Operand} {l : Local} {o : Operand}
  {init : Option Expr} {returns : ReturnInfo} {site : Site} {name : String}

section
variable {exact : Prop} {s : Setting} {ctx ctx' : Check.Context} {lctx : Context} {env : Env} {locals : Locals}

/-! ### Declarations -/

theorem safe_declaredLocal (hctx : Follows exact s ctx lctx) (hrelated : Related exact env locals)
    (h : Declares exact ctx env e init b)
    (hhome : exact → BindingType.declared? ctx.scope [] e.transforms = .ok none → site.home = ctx.home)
    (hparameter : exact → parameter = true → BindingType.declared? ctx.scope [] e.transforms ≠ .ok none) :
    Safe exact s (declaredLocal lctx site locals e init parameter) fun l => exact → l.type = b.type ∧ b.type.Settled := by
  have hinfer : Safe exact s (infer (inferLocal lctx.scope lctx.inferrer site locals e init))
      fun l => exact → l.type = b.type ∧ b.type.Settled := by
    rw [hctx.scope]
    exact .infer (infers_local hctx.inferrer hctx.sited hhome hrelated h) (.tooDeep rfl)
  unfold declaredLocal
  rw [hctx.scope] at hinfer ⊢
  refine .liftBind (h.ends_declared? hctx.sited.templates hctx.sited.scope) fun declared hdeclared _ => ?_
  cases init with
  | none => exact hinfer
  | some i =>
    obtain ⟨⟨o, ho⟩, -⟩ := h.initial i rfl
    have hrest (collection : Bool) : Safe exact s
        (if (parameter && !declared.isSome && !collection) = true then do
          if (← infer (lctx.inferrer.operand site locals i)) == .unknown then
            return { mutable := isMutable e.transforms, type := .scalar .int32 }
          else infer (inferLocal s.scope lctx.inferrer site locals e (some i))
        else infer (inferLocal s.scope lctx.inferrer site locals e (some i)))
        fun l => exact → l.type = b.type ∧ b.type.Settled := by
      refine .ite (fun huntyped => ?_) fun _ => hinfer
      have hinexact (he : exact) : False := by
        simp only [Bool.and_eq_true, Bool.not_eq_true', Option.isSome_eq_false_iff, Option.isNone_iff_eq_none]
          at huntyped
        refine hparameter he huntyped.1.1 ?_
        rw [hctx.sited.scope, hdeclared, huntyped.1.2]
      have hsite : Sited exact s ctx site :=
        ⟨hctx.sited.scope, fun he => (hinexact he).elim, hctx.sited.templates, hctx.sited.reached⟩
      refine (Meets.infer (hctx.inferrer.operand hsite hrelated ho) (.tooDeep rfl)).bind fun _ _ => ?_
      exact .ite (fun _ => .pure fun he => (hinexact he).elim) fun _ => hinfer
    refine .ite (fun _ => hrest true) fun _ => ?_
    exact .liftBind (ends_collection? hrelated hctx.sited.templates ho) fun found _ _ => hrest found.isSome

/-- What a binding is given is known, unless its value is not. -/
theorem accepts_ne_unknown (he : exact) (hrelated : Related exact env locals) (h : Accepts exact ctx env e o)
    (hcall : e.call? = none) (hcollection : Check.collection? ctx.templates env e = .ok none) : o ≠ .unknown := by
  cases h with
  | @literal _ _ _ _ l =>
    exact fun ho => Kind.ofLiteral_ne_unknown l (Operand.value.inj ho)
  | @name _ _ _ _ x b _ hb =>
    obtain ⟨l, -, hl⟩ := hrelated x b hb
    have hkind := (hl he).2.kind
    simp only [Check.collection?, hb, Except.ok.injEq, ite_eq_right_iff, reduceCtorEq, imp_false] at hcollection
    unfold Check.Binding.operand
    cases hshape : b.type.shape with
    | pointer => rintro ⟨⟩
    | value | reference => exact fun ho => hkind (Operand.value.inj ho)
    | map | array | vector =>
      rw [hshape] at hcollection
      exact absurd rfl hcollection
  | builtin | call => cases hcall

/-- In a regular program a declared collection that is not the arguments of the run is bound to a collection, and has its
    type if they have the same layout. -/
theorem bound_collection (he : exact) (hctx : exact → ctx.templates = []) (hrelated : Related exact env locals)
    {i : Expr} (h : AcceptsBinding exact ctx env e (some i) b) (hsettled : b.type.Settled)
    (hcollection : b.type.shape.isCollection = true) (harguments : b.type ≠ argumentsType) :
    (i.call? = none → isArguments locals i = false ∧
      ∃ type, Check.collection? ctx.templates env i = .ok (some type)) ∧
    ∀ built, Check.collection? ctx.templates env i = .ok (some built) → sameLayout b.type built = true →
      built = b.type := by
  cases h with
  | operand _ _ _ hb =>
    rw [hb] at hcollection
    unfold BindingType.ofOperand at hcollection
    split at hcollection <;> exact nomatch hcollection
  | @collection _ _ _ _ _ o _ h htype =>
    refine ⟨fun _ => ⟨Bool.eq_false_iff.mpr fun hno => ?_, b.type, htype⟩, fun built hbuilt _ => ?_⟩
    · have hno := htype.symm.trans (collection?_of_isArguments hrelated h he hno)
      exact harguments (Option.some.inj (Except.ok.inj hno))
    · exact (Option.some.inj (Except.ok.inj (htype.symm.trans hbuilt))).symm
  | @initialized _ _ _ _ _ o found _ h hfound hfits =>
    refine ⟨fun hcall => ⟨Bool.eq_false_iff.mpr fun hno => ?_, ?_⟩, fun built hbuilt hlayout => ?_⟩
    · cases hfound.symm.trans (collection?_of_isArguments hrelated h he hno)
      exact harguments (eq_argumentsType_of_fits hsettled hcollection hfits)
    · cases found with
      | some type => exact ⟨type, hfound⟩
      | none =>
        have hunknown := accepts_ne_unknown he hrelated h hcall hfound
        unfold Check.fits at hfits
        split at hfits
        case h_1 h | h_2 h | h_3 h => rw [h] at hcollection; exact nomatch hcollection
        all_goals exact absurd (beq_iff_eq.mp hfits) hunknown
    · cases hfound.symm.trans hbuilt
      have hbuilt := settled_of_collection? hrelated hctx h he hfound
      exact (hsettled.eq_of_sameLayout hbuilt.1 hcollection hfits hlayout).symm

section
variable {E : Emitter} (hE : E.Agrees exact s) (hctx : Follows exact s ctx lctx) (hrelated : Related exact env locals)
include hE hctx hrelated

omit hE hctx in
theorem ends_bindArguments {i : Option Expr} (hi : ∀ e, i = some e → ∃ o, Accepts exact ctx env e o) :
    Ends (Error.Tolerated exact) (fun l => exact → l.type = argumentsType) (bindArguments locals i) := by
  unfold bindArguments
  split
  case h_2 => exact .residual rfl
  case h_1 ts x =>
    obtain ⟨o, ho⟩ := hi _ rfl
    obtain ⟨b, hb, -⟩ := ho.lookup
    obtain ⟨l, hl, htype⟩ := hrelated x b hb
    rw [hl]
    dsimp only
    split
    case isFalse => exact .residual rfl
    case isTrue harguments =>
      intro he
      obtain ⟨htype, hsettled⟩ := htype he
      exact (Local.isArguments_iff (htype ▸ hsettled)).mp harguments

theorem safe_bindCollection (h : Declares exact ctx env e init b) (hl : exact → l.type = b.type ∧ b.type.Settled)
    (hcollection : l.type.shape.isCollection = true) (harguments : l.isArguments = false) :
    Safe exact s (bindCollection E lctx locals name init l) fun l' => exact → l'.type = b.type := by
  unfold bindCollection
  cases init with
  | none => exact .throw (.residual rfl)
  | some i =>
    obtain ⟨⟨o, ho⟩, -⟩ := h.initial i rfl
    have hbound (he : exact) := by
      obtain ⟨htype, hsettled⟩ := hl he
      refine bound_collection he hctx.sited.templates hrelated (h.types he) hsettled (htype ▸ hcollection) fun hno => ?_
      rw [(Local.isArguments_iff (htype ▸ hsettled)).mpr (htype.trans hno)] at harguments
      exact nomatch harguments
    refine safe_newSlot.bind fun slot _ => ?_
    refine (safe_collection hE hctx hrelated ho fun he => (hbound he).1).bind fun built hbuilt => ?_
    refine .check (fun _ => .residual rfl) fun hlayout => safe_store.andThen <| .pure fun he => ?_
    obtain ⟨htype, hsettled⟩ := hl he
    have hlayout : sameLayout b.type built = true := by
      have hopen : (b.type.kind == .unknown || (b.type.shape == .map && b.type.key == .unknown)) = false := by
        simpa [hsettled.kind] using hsettled.mapKey
      simpa [htype, hopen] using hlayout
    have heq := (hbound he).2 built (hbuilt he) hlayout
    rw [heq, htype]

theorem safe_text (h : Accepts exact ctx env e o) : Safe exact s (emitText E lctx locals e) fun _ => True := by
  unfold emitText
  split
  · exact safe_internText.bind fun _ _ => safe_emitWith.andThen <| .pure trivial
  · exact .throw (.residual rfl)
  · split
    · exact .throw (.residual rfl)
    · refine .ite (fun _ => .throw (.residual rfl)) fun _ => ?_
      split
      · exact .throw (.residual rfl)
      · exact safe_emitWith.andThen <| .pure trivial
      · exact safe_load.andThen <| .pure trivial
  · refine .ite (fun hcall => ?_) fun _ => .ite (fun hcall => ?_) fun _ => .throw (.residual rfl)
    all_goals
      rw [Expr.isCallTo, Bool.and_eq_true, beq_iff_eq] at hcall
      exact (safe_readArgument hE hctx hrelated h hcall.1 (by rw [hcall.2]; rfl)).andThen <| .pure trivial

theorem safe_bindText (h : Declares exact ctx env e init b) :
    Safe exact s (bindText E lctx locals name init l) fun l' => l'.type = l.type := by
  unfold bindText
  refine safe_newSlot.bind fun slot _ => ?_
  cases init with
  | none => exact .throw (.residual rfl)
  | some i =>
    obtain ⟨⟨o, ho⟩, -⟩ := h.initial i rfl
    exact (safe_text hE hctx hrelated ho).bind fun _ _ => safe_store.andThen <| .pure rfl

theorem safe_bindWord (h : Declares exact ctx env e init b) :
    Safe exact s (bindWord E lctx locals init l) fun l' => l'.type = l.type := by
  unfold bindWord
  refine safe_newSlot.bind fun slot _ => ?_
  have hstore : Safe exact s (do store slot; pure { l with slot }) fun l' => l'.type = l.type :=
    safe_store.andThen <| .pure rfl
  cases init with
  | none => exact safe_emitWith.andThen hstore
  | some i =>
    obtain ⟨⟨o, ho⟩, -⟩ := h.initial i rfl
    exact (hE.expr hctx hrelated ho).bind fun _ _ => .ite (fun _ => safe_coerce.andThen hstore) fun _ => hstore

/-- A declaration is bound under its name, with the type that the check has given it. -/
theorem safe_bindLocal {ts : List Transform} {c : Call}
    (hbinding : c.isBinding = true) (h : Declares exact ctx env (.call ts c) init b)
    (hhome : exact → BindingType.declared? ctx.scope [] ts = .ok none → site.home = ctx.home)
    (hparameter : exact → parameter = true → BindingType.declared? ctx.scope [] ts ≠ .ok none) :
    Safe exact s (bindLocal E lctx site locals (.call ts c) init parameter)
      fun r => r.1 = c.name ∧ (exact → r.2.type = b.type ∧ b.type.Settled) := by
  have hname : (Expr.call ts c).boundName? = some c.name := by simp [Expr.boundName?, hbinding]
  unfold bindLocal
  rw [hname]
  refine (safe_declaredLocal hctx hrelated h hhome hparameter).bind fun l hl => ?_
  have hkept {l' : Local} (hl' : l'.type = l.type) (he : exact) : l'.type = b.type ∧ b.type.Settled :=
    ⟨hl'.trans (hl he).1, (hl he).2⟩
  refine .ite (fun harguments => ?_) fun harguments => .ite (fun hcollection => ?_) fun _ => .ite (fun _ => ?_) fun _ => ?_
  · refine .liftBind (ends_bindArguments hrelated fun i hi => (h.initial i hi).1) fun l' _ hl' => .pure ⟨rfl, fun he => ?_⟩
    obtain ⟨htype, hsettled⟩ := hl he
    refine ⟨(hl' he).trans ?_, hsettled⟩
    exact ((Local.isArguments_iff (htype ▸ hsettled)).mp harguments).symm.trans htype
  · refine (safe_bindCollection hE hctx hrelated h hl hcollection (Bool.eq_false_iff.mpr harguments)).bind fun l' hl' => ?_
    exact .pure ⟨rfl, fun he => ⟨hl' he, (hl he).2⟩⟩
  · exact (safe_bindText hE hctx hrelated h).bind fun _ hl' => .pure ⟨rfl, hkept hl'⟩
  · exact (safe_bindWord hE hctx hrelated h).bind fun _ hl' => .pure ⟨rfl, hkept hl'⟩

end

/-! ### Parameters -/

/-- Outside of regular programs nothing but the definitions in scope matters. -/
theorem Follows.inexact (h : Follows exact s ctx lctx) (he : ¬exact) (hscope : ctx'.scope = s.scope) :
    Follows exact s ctx' lctx :=
  ⟨⟨hscope, fun h => absurd h he, fun h => absurd h he, fun h => absurd h he⟩, h.scope, h.inferrer, h.defaults,
    fun h => absurd h he, fun h => absurd h he, fun h => absurd h he⟩

theorem declared_of_parameter {param : Expr} {names : List (Bool × String)}
    (h : AcceptsBinding exact ctx env param init b) (hregular : param.isRegularParameter names = true) :
    BindingType.declared? ctx.scope ctx.templates param.transforms = .ok (some b.type) := by
  cases h with
  | declared htype | initialized htype => exact htype
  | collection htype | operand htype => exact absurd htype (Expr.declared?_ne_none hregular)

section
variable {callee : Check.Context} {params : Env} {param : Expr} {init : Option Expr} {b : Check.Binding}
  {names : List (Bool × String)}
  (hcallee : callee.scope = s.scope ∧ (exact → callee.templates = [])) (h : AcceptsBinding exact callee params param init b)
  (hregular : exact → param.isRegularParameter names = true)
include hcallee h hregular

theorem declares_argument (hctx : Sited exact s ctx site)
    (hargs : AcceptsAll exact ctx env args operands) (hends : exact → ∀ e ∈ args, e.endsInReturn = false) {i : Nat}
    (hfits : exact → ∀ arg actual, args[i]? = some arg → operands[i]? = some actual →
      ∃ collection, Check.collection? ctx.templates env arg = .ok collection ∧ Check.fits b.type collection actual = true) :
    Declares exact ctx env param args[i]? b := by
  refine ⟨?_, fun arg harg => ⟨?_, fun he => hends he arg (List.mem_of_getElem? harg)⟩, fun he => ?_⟩
  · rw [hctx.scope, ← hcallee.1]
    cases h with
    | declared htype | initialized htype | collection htype | operand htype => exact ⟨_, _, htype, hcallee.2⟩
  · obtain ⟨o, -, ho⟩ := hargs.getElem? harg
    exact ⟨o, ho⟩
  · have htype := declared_of_parameter h (hregular he)
    rw [hcallee.1, hcallee.2 he, ← hctx.scope, ← hctx.templates he] at htype
    cases harg : args[i]? with
    | none => exact .declared htype
    | some arg =>
      obtain ⟨o, ho, haccepts⟩ := hargs.getElem? harg
      obtain ⟨collection, hcollection, hfits⟩ := hfits he arg o harg ho
      exact .initialized htype haccepts hcollection hfits

/-- A parameter with its default, which in a regular program may be read anywhere. -/
theorem declares_default (hctx : Follows exact s ctx lctx) (hinit : init = param.initial?) :
    ∃ ctx', Follows exact s ctx' lctx ∧ Declares exact ctx' params param init b := by
  by_cases he : exact
  · have htype := declared_of_parameter h (hregular he)
    have htemplates : callee.templates = ctx.templates := (hcallee.2 he).trans (hctx.sited.templates he).symm
    rw [hcallee.1, htemplates, ← hctx.sited.scope] at htype
    have hneutral (i : Expr) (hi : init = some i) : i.All (·.isNeutral = true) :=
      (Expr.isRegular_parameter (hregular he)).2.2 i (hinit ▸ hi)
    refine ⟨ctx, hctx, .of_binding hctx.sited ?_ fun _ i hi => Expr.endsInReturn_of_isNeutral (hneutral i hi).self⟩
    cases h with
    | declared => exact .declared htype
    | initialized _ h hcollection hfits =>
      exact .initialized htype (h.neutral (hneutral _ rfl)) (htemplates ▸ hcollection) hfits
    | collection htype' | operand htype' => exact absurd htype' (Expr.declared?_ne_none (hregular he))
  · have hctx' := hctx.inexact he hcallee.1
    exact ⟨callee, hctx', .of_binding hctx'.sited h fun h => absurd h he⟩

end

/-- Parameters are bound as they are accepted: arguments in the scope of the call, defaults in that of the parameters
    before. -/
theorem safe_bindParameters (hE : E.Agrees exact s) (hctx : Follows exact s ctx lctx) {caller : Locals}
    (hcaller : Related exact env caller)
    (hargs : AcceptsAll exact ctx env args operands) (hends : exact → ∀ e ∈ args, e.endsInReturn = false)
    (hcallee : callee.scope = s.scope ∧ (exact → callee.templates = []))
    {params : List Expr} {penv' : Env}
    (h : AcceptsParameters exact callee penv params penv') (hlength : fillings.length = params.length)
    {names : List (Bool × String)} (hregular : exact → ∀ param ∈ params, param.isRegularParameter names = true)
    (hfits : exact → ∀ param i arg actual type, (param, Filling.argument i) ∈ params.zip fillings →
      args[i]? = some arg → operands[i]? = some actual →
      BindingType.declared? callee.scope callee.templates param.transforms = .ok (some type) →
      ∃ collection, Check.collection? ctx.templates env arg = .ok collection ∧ Check.fits type collection actual = true)
    (hlocals : Related exact penv locals) :
    Safe exact s (bindParameters E lctx caller d args locals (params.zip fillings)) (Related exact penv') := by
  induction h generalizing fillings locals with
  | nil => exact .pure hlocals
  | @cons penv penv' ts c b rest hbinding hb _ ih =>
    obtain ⟨filling, fillings, rfl⟩ : ∃ filling fillings', fillings = filling :: fillings' := by
      cases fillings with
      | nil => exact nomatch hlength
      | cons filling fillings => exact ⟨filling, fillings, rfl⟩
    have hparam (he : exact) := hregular he (.call ts c) List.mem_cons_self
    have htyped (he : exact) {scope : Scope} : BindingType.declared? scope [] ts ≠ .ok none :=
      Expr.declared?_ne_none (hparam he)
    have hrest {r : String × Local} (hr : r.1 = c.name ∧ (exact → r.2.type = b.type ∧ b.type.Settled)) :
        Safe exact s (bindParameters E lctx caller d args (r :: locals) (rest.zip fillings)) (Related exact penv') := by
      refine ih (Nat.succ.inj hlength) (fun he param hp => hregular he param (List.mem_cons_of_mem _ hp)) ?_ ?_
      · exact fun he param i arg actual type hmem => hfits he param i arg actual type (List.mem_cons_of_mem _ hmem)
      · obtain ⟨x, l⟩ := r
        obtain ⟨rfl, hl⟩ := hr
        exact hlocals.cons hl
    cases filling with
    | argument i =>
      have hdeclares : Declares exact ctx env (.call ts c) args[i]? b := by
        refine declares_argument hcallee hb hparam hctx.sited hargs hends fun he arg actual harg hactual => ?_
        exact hfits he _ i arg actual _ List.mem_cons_self harg hactual (declared_of_parameter hb (hparam he))
      refine (safe_bindLocal hE hctx hcaller hbinding hdeclares ?_ ?_).bind fun r hr => hrest hr
      · exact fun he hnone => absurd hnone (htyped he)
      · exact fun he _ => htyped he
    | default =>
      have hinitial : c.args.head? = (Expr.call ts c).initial? := by simp [Expr.initial?, hbinding]
      obtain ⟨ctx', hctx', hdeclares⟩ := declares_default hcallee hb hparam hctx hinitial
      rw [hinitial] at hdeclares
      refine (safe_bindLocal hE hctx' hlocals hbinding hdeclares ?_ ?_).bind fun r hr => hrest hr
      · exact fun he hnone => absurd hnone (htyped he)
      · exact fun he _ => htyped he

/-! ### Expansions -/

theorem safe_resultSlot : Safe exact s (resultSlot returns) fun slot => slot.isNone = returns.isVoid := by
  unfold resultSlot
  refine .ite (fun hvoid => .pure hvoid.symm) fun hvoid => ?_
  refine safe_newSlot.bind fun _ _ => safe_emitWith.andThen <| safe_store.andThen <| .pure ?_
  exact (Bool.eq_false_iff.mpr hvoid).symm

theorem safe_body (hE : E.Agrees exact s) (hctx : Follows exact s ctx lctx)
    (hrelated : Related exact env locals) {body : List Expr} {env' : Env}
    (h : Check.AcceptsList exact ctx env body env') : Safe exact s (emitBody E lctx locals body) fun _ => True := by
  unfold emitBody
  have hexits {exits : List Exit} : Safe exact s (modify fun s => { s with exits }) fun _ => True :=
    .of_cache fun _ => ⟨_, _, rfl, rfl⟩
  have hclose (l : List Exit) : Safe exact s (l.forM fun x => closeJump x.position) fun _ => True := by
    induction l with
    | nil => exact .pure trivial
    | cons x l ih => exact Meets.closeJump.andThen ih
  refine Meets.bind (Q := fun _ => True) (.of_cache fun _ => ⟨_, _, rfl, rfl⟩) fun _ _ => hexits.andThen ?_
  refine (hE.block hctx hrelated h).andThen ?_
  refine Meets.bind (Q := fun _ => True) (.of_cache fun _ => ⟨_, _, rfl, rfl⟩) fun _ _ => (hclose _).andThen ?_
  exact hexits.andThen <| .pure trivial

/-- The body of a definition is lowered in a context that follows the one in which it is accepted. -/
theorem Follows.body (hs : Accepted exact s) (h : Follows exact s ctx lctx) {params : Env}
    (hd : d ∈ s.scope.definitions) (hreached : exact → Reached s d.path) (hstruct : d.isStruct = false)
    (hbody : AcceptsBody exact s d callee params) {effects : EffectSet} (heffects : exact → effects = callee.effects)
    {slot : Option Nat} :
    Follows exact s callee (bodyContext lctx d effects returns slot) where
  sited := ⟨hbody.scope, fun _ => hbody.home.symm, fun he =>
    hbody.templates.trans (d.isRegular_parts (hs.regular he d hd hstruct (hreached he))).1, hbody.home ▸ hreached⟩
  scope := h.scope
  inferrer := h.inferrer
  defaults := h.defaults
  effects he _ hx := heffects he ▸ hx
  returns _ _ htarget := nomatch htarget
  expanding he := List.mem_cons_of_mem _ (h.expanding he)

namespace Follows

theorem returnInfo (hs : Accepted exact s) (h : Follows exact s ctx lctx) {d : Definition}
    (hd : d ∈ s.scope.definitions) (hreached : exact → Reached s d.path) :
    Safe exact s (lctx.returnInfo d) fun info => exact → d.Gives info := by
  unfold Context.returnInfo
  rw [h.scope]
  exact .infer (infers_returnInfo hs hd hreached) (.tooDeep rfl)

/-- A definition other than the entry is expanded with the effects for which it was accepted. -/
theorem ends_active (h : Follows exact s ctx lctx) {d : Definition} {callee : Check.Context} {params : Env}
    (hbody : AcceptsBody exact s d callee params) (hexpanding : ¬lctx.expanding.contains d.path = true) :
    Ends (Error.Tolerated exact) (fun effects => exact → effects = callee.effects)
      (EffectSet.active d.transforms lctx.defaults d.path) := by
  refine .late (fun he => ⟨callee.effects, ?_, rfl⟩) fun err herr => ?_
  · have hpath : (d.path == s.entry) = false := by
      refine beq_eq_false_iff_ne.mpr fun hpath => hexpanding ?_
      simpa [hpath] using h.expanding he
    have heffects := hbody.effects
    rw [Setting.effectsOf, hpath, ← h.defaults] at heffects
    exact heffects
  · obtain ⟨cause, rfl⟩ := EffectSet.effect_of_active herr
    rfl

end Follows

def Results (d : Definition) (k : Kind) : Prop :=
  k = .int32 ∧ d.isStruct = true ∨ d.isStruct = false ∧ ∃ info, d.Gives info ∧ info.isVoid = false ∧ k = info.kind

section
variable (hs : Accepted exact s) {E : Emitter} (hE : E.Agrees exact s) (hctx : Follows exact s ctx lctx)
  (hrelated : Related exact env locals) {c : Call} {d d' : Definition} (h : AcceptsCall exact ctx env c d)
  (hends : exact → ∀ e ∈ c.args, e.endsInReturn = false) (hd' : d' ∈ s.scope.definitions) (heq : exact → d' = d)
  (hreached : exact → Reached s d'.path)
include hs hctx h hd' heq

omit hctx in
/-- The arguments of a call fill the parameters of what it means as in the check. -/
theorem ends_fillings : ∃ params, d'.callParameters = .ok params ∧
    Ends (Error.Tolerated exact)
      (fun fillings => fillings.length = params.length ∧
        (exact → Arguments.order d.path params c.args.length c.labels = .ok fillings))
      (Arguments.order d'.path params c.args.length c.labels) := by
  obtain ⟨params', hparams'⟩ : ∃ params', d'.callParameters = .ok params' := by
    unfold Definition.callParameters
    split
    case isTrue hstruct => exact (hs.definitions d' hd').fields hstruct
    case isFalse => exact ⟨_, rfl⟩
  cases h with
  | @mk _ _ _ _ params fillings _ _ hparams hfillings =>
    have hexact (he : exact) : Arguments.order d'.path params' c.args.length c.labels = .ok fillings := by
      obtain rfl := heq he
      cases hparams.symm.trans hparams'
      exact hfillings
    have hrepeated := Arguments.repeatedLabel?_of_order hfillings
    refine ⟨params', hparams', ((Arguments.ends_order hrepeated).orLate hexact).mono fun r hr h => ⟨h.1, fun he => ?_⟩⟩
    exact heq he ▸ hr

include hE hrelated hends hreached in
theorem safe_parameters (hstruct : d'.isStruct = false) (hbody : AcceptsBody exact s d' callee penv)
    (hlength : fillings.length = d'.parameters.length)
    (hfillings : exact → Arguments.order d.path d'.parameters c.args.length c.labels = .ok fillings) :
    Safe exact s (bindParameters E lctx locals d' c.args [] (d'.parameters.zip fillings)) (Related exact penv) := by
  have hregular (he : exact) := d'.isRegular_parts (hs.regular he d' hd' hstruct (hreached he))
  have hcallee : callee.scope = s.scope ∧ (exact → callee.templates = []) :=
    ⟨hbody.scope, fun he => hbody.templates.trans (hregular he).1⟩
  cases h with
  | @mk _ _ _ _ params fillings' _ _ hparams hfillings' hargs hfits =>
    refine safe_bindParameters hE hctx hrelated hargs hends hcallee hbody.parameters hlength
      (fun he => (hregular he).2.1) (fun he param i arg actual type hmem harg hactual htype => ?_) .nil
    obtain rfl := heq he
    obtain rfl : d'.parameters = params := by simpa [Definition.callParameters, hstruct] using hparams
    cases (hfillings he).symm.trans hfillings'
    rw [hbody.scope, ← hctx.sited.scope, hbody.templates] at htype
    exact hfits param i arg actual type hmem harg hactual htype

include hE hrelated hends hreached in
/-- A call is expanded to what it means to the check. -/
theorem safe_expand {valueNeeded : Bool} :
    Safe exact s (expand E lctx locals c d' valueNeeded) fun r => exact → ∀ k, r = some k → Results d k := by
  obtain ⟨params, hparams, hfillings⟩ := ends_fillings hs h hd' heq
  unfold expand
  refine .check (fun _ => .residual rfl) fun hexpanding => .check (fun _ => .residual rfl) fun _ => ?_
  refine .okBind hparams <| .liftBind hfillings fun fillings _ ⟨hlength, hfillings⟩ => ?_
  refine .ite (fun hstruct => ?_) fun hstruct => ?_
  · have hresult : exact → ∀ k, some Kind.int32 = some k → Results d k := by
      intro he k hk
      cases hk
      exact .inl ⟨rfl, heq he ▸ hstruct⟩
    exact .ite (fun _ => safe_emitWith.andThen <| .pure hresult) fun _ => .pure hresult
  · have hstruct : d'.isStruct = false := Bool.eq_false_iff.mpr hstruct
    obtain ⟨callee, penv, hbody⟩ := (hs.definition hd' hreached).body hstruct
    obtain ⟨env', hlist⟩ := hbody.body
    obtain rfl : d'.parameters = params := by simpa [Definition.callParameters, hstruct] using hparams
    refine (hctx.returnInfo hs hd' hreached).bind fun returns hreturns => .check (fun _ => .residual rfl) fun _ => ?_
    refine .liftBind (hctx.ends_active hbody hexpanding) fun effects _ heffects => ?_
    refine Meets.bind (Q := fun _ => True) (.of_cache fun _ => ⟨_, _, rfl, rfl⟩) fun start _ => ?_
    have hparameters := safe_parameters hs hE hctx hrelated h hends hd' heq hreached hstruct hbody hlength hfillings
    refine hparameters.bind fun locals' hlocals' => safe_resultSlot.bind fun slot hslot => ?_
    refine (safe_body hE (hctx.body hs hd' hreached hstruct hbody heffects) hlocals' hlist).bind fun exits _ => ?_
    refine Meets.andThen (Q := fun _ => True) (.of_cache fun _ => ⟨_, _, rfl, rfl⟩) ?_
    cases slot with
    | none => exact .pure fun _ _ hk => nomatch hk
    | some slot =>
      have hresult (he : exact) (k : Kind)
          (hk : some (if returns.kind = .unknown then Kind.int32 else returns.kind) = some k) : Results d k := by
        obtain rfl := heq he
        have hvalue : returns.isVoid = false := hslot.symm
        have hknown := (hreturns he).kind_ne_unknown (hs.regular he d' hd' hstruct (hreached he)) hvalue
        rw [if_neg hknown] at hk
        cases hk
        exact .inr ⟨hstruct, returns, hreturns he, hvalue, rfl⟩
      exact .ite (fun _ => safe_load.andThen <| .pure hresult) fun _ => .pure hresult

end
end
end Lower
end FlatCode
