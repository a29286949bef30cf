import FlatCode.Proofs.Agreement.Scopes

/-! Inference where an expression is lowered. Of what is accepted it can tell the operand, apart from faults that are
    left to lowering; in a regular program it is the operand of the check, and it is known unless the expression ends in
    a `return`. -/

namespace FlatCode
open Stateful

/-! ### Expressions that end in a `return` -/

namespace Expr

theorem listEndsInReturn_of_getLast? {l : List Expr} {last : Expr} (h : l.getLast? = some last) :
    listEndsInReturn l = (last.isCallTo "return" || last.endsInReturn) := by
  induction l with
  | nil => cases h
  | cons e l ih =>
    cases l with
    | nil =>
      obtain rfl : e = last := by simpa using h
      rw [listEndsInReturn]
    | cons e' l =>
      rw [List.getLast?_cons_cons] at h
      rw [listEndsInReturn, ih h]
      simp

theorem branchEndsInReturn_of_branchBody {e : Expr} {body : List Expr} (h : Returns.branchBody e = .ok body) :
    branchEndsInReturn e = listEndsInReturn body := by
  have hbody := (Returns.branchBody_inv h).2
  obtain _ | _ | ⟨ts, f, args, labels, l, templateArgs, isBinding, isMethod⟩ := e
  · exact nomatch hbody
  · exact nomatch hbody
  · obtain rfl : l = some body := hbody
    rfl

theorem endsInReturn_call (ts : List Transform) {c : Call} {b : Builtin} (hbinding : c.isBinding = false)
    (hb : c.builtin? = some b) : (Expr.call ts c).endsInReturn =
      match b.cls, c.args with
      | .block, _ => bodyEndsInReturn c.body
      | .ifElse, [_, yes, no] => branchEndsInReturn yes && branchEndsInReturn no
      | _, _ => false := by
  obtain ⟨f, args, labels, body, templateArgs, isBinding, isMethod⟩ := c
  unfold CallOf.builtin? at hb
  split at hb
  case isTrue => exact nomatch hb
  case isFalse hmethod =>
    dsimp only at hb hbinding hmethod
    unfold endsInReturn
    simp only [hbinding, hmethod, Bool.false_or, hb, Option.map_some]
    cases b.cls with
    | ifElse => rcases args with _ | ⟨cond, _ | ⟨yes, _ | ⟨no, _ | _⟩⟩⟩ <;> rfl
    | _ => rfl

theorem endsInReturn_of_isNeutral {e : Expr} (h : e.isNeutral = true) : e.endsInReturn = false := by
  cases e with
  | literal | name => rfl
  | call ts c =>
    simp only [isNeutral, Bool.and_eq_true, Bool.not_eq_true', Option.any_eq_true] at h
    obtain ⟨⟨⟨-, hbinding⟩, b, hb, hoperator⟩, -⟩ := h
    rw [endsInReturn_call ts hbinding hb]
    cases hcls : b.cls with
    | block | ifElse => simp [hcls, BuiltinClass.isOperator] at hoperator
    | _ => rfl

end Expr

/-- The operands of a regular call have values, unless it is an `if`. -/
theorem CallOf.ends_of_isRegular {c : Call} {names : List (Bool × String)} (h : c.isRegular names = true)
    (hcls : c.class? ≠ some .ifElse) {e : Expr} (he : e ∈ c.args) : e.endsInReturn = false := by
  simp only [CallOf.isRegular, Bool.and_eq_true, Bool.or_eq_true, beq_iff_eq, List.all_eq_true] at h
  simpa using h.1.1.2.resolve_left hcls e he

/-! ### Results of regular definitions -/

namespace Definition

variable {d : Definition} {names : List (Bool × String)}

theorem declared?_of_isRegular (h : d.isRegular names = true) (hdeclared : ReturnInfo.declared? d = .ok none) :
    Returns.containsValue d.body = false := by
  obtain ⟨-, -, hresult, -⟩ := d.isRegular_parts h
  exact hresult.resolve_left fun hreturn => ReturnInfo.declared?_ne_none hreturn hdeclared

/-- A regular definition may be said to return one thing only. -/
theorem Gives.unique (hregular : d.isStruct = false → d.isRegular names = true) {a b : ReturnInfo}
    (ha : d.Gives a) (hb : d.Gives b) : a = b := by
  unfold Gives at ha hb
  split at ha
  case h_1 hdeclared =>
    rw [hdeclared] at hb
    exact ha.trans hb.symm
  case h_2 hdeclared =>
    rw [hdeclared] at hb
    dsimp only at hb
    split at ha
    case isTrue hvoid =>
      rw [if_pos hvoid] at hb
      exact ha.trans hb.symm
    case isFalse hvalue =>
      rw [Bool.or_eq_true, not_or, Bool.not_eq_true] at hvalue
      simp [declared?_of_isRegular (hregular hvalue.1) hdeclared] at hvalue
  case h_3 => exact ha.elim

/-- The kind of the value of a regular definition is known. -/
theorem Gives.kind_ne_unknown (hregular : d.isRegular names = true) {info : ReturnInfo} (h : d.Gives info)
    (hvalue : info.isVoid = false) : info.kind ≠ .unknown := by
  unfold Gives at h
  split at h
  case h_2 hdeclared =>
    rw [declared?_of_isRegular hregular hdeclared, Bool.not_false, Bool.or_true, if_pos rfl] at h
    subst h
    exact nomatch hvalue
  case h_3 => exact h.elim
  case h_1 declared hdeclared =>
    subst h
    unfold ReturnInfo.declared? at hdeclared
    rw [(d.isRegular_parts hregular).1] at hdeclared
    split at hdeclared
    · exact nomatch hdeclared
    · split at hdeclared
      · exact nomatch hdeclared
      · split at hdeclared
        · cases hdeclared
          exact nomatch hvalue
        · simp only [List.contains_nil, Bool.false_eq_true, if_false] at hdeclared
          obtain ⟨-, -, hdeclared⟩ := except_bind_eq_ok.mp hdeclared
          split at hdeclared
          case h_1 hk =>
            cases hdeclared
            exact Kind.ne_unknown_of_ofTypeName? hk
          case h_2 =>
            split at hdeclared
            case h_1 hk =>
              obtain ⟨name, -, hk⟩ := Option.bind_eq_some_iff.mp hk
              split at hdeclared
              · cases hdeclared
                exact Kind.ne_unknown_of_ofTypeName? hk
              · exact nomatch hdeclared
            case h_2 => exact nomatch hdeclared

end Definition

namespace Lower
open Check (Env Accepts AcceptsAll AcceptsBinding AcceptsBlock AcceptsBuiltin AcceptsCall AcceptsDefinition AcceptsList
  AcceptsPointer AcceptsStatement Enters Means Setting)

/-! ### What inference depends on -/

/-- The program is lowered from the given path. -/
abbrev Reached (s : Setting) (path : String) : Prop := s.scope.Reaches s.entry path

structure Accepted (exact : Prop) (s : Setting) : Prop where
  distinct : Definition.Distinct s.scope.definitions
  definitions : ∀ d ∈ s.scope.definitions, AcceptsDefinition (exact ∧ Reached s d.path) s d
  regular : exact → ∀ d ∈ s.scope.definitions, d.isStruct = false → Reached s d.path →
    d.isRegular (s.scope.calledAt d.path) = true

theorem Accepted.definition {exact : Prop} {s : Setting} {d : Definition} (hs : Accepted exact s)
    (hd : d ∈ s.scope.definitions) (hreached : exact → Reached s d.path) : AcceptsDefinition exact s d := by
  have hexact : (exact ∧ Reached s d.path) = exact := propext ⟨And.left, fun he => ⟨he, hreached he⟩⟩
  exact hexact ▸ hs.definitions d hd

/-- A site at which an expression that is accepted in the given context is lowered. -/
structure Sited (exact : Prop) (s : Setting) (ctx : Check.Context) (site : Site) : Prop where
  scope : ctx.scope = s.scope
  home : exact → site.home = ctx.home
  templates : exact → ctx.templates = []
  reached : exact → Reached s ctx.home

variable {c : Call} {b : Check.Binding} {d : Definition} {e : Expr} {l : List Expr} {operands : List Operand}
  {ts : List Transform} {a o : Operand} {init : Option Expr} {name : String}

theorem Sited.enter {exact : Prop} {s : Setting} {ctx ctx' : Check.Context} {site : Site}
    (h : Sited exact s ctx site) (henter : Enters exact ctx e ctx') : Sited exact s ctx' site := by
  obtain ⟨effects, rfl, -⟩ := henter
  exact ⟨h.scope, h.home, h.templates, h.reached⟩

def Leaves (exact : Prop) (e : Expr) (o o' : Operand) : Prop :=
  exact → o' = o ∧ (e.endsInReturn = false → o.target ≠ .unknown)

abbrev Infers {α : Type} (exact : Prop) (s : Setting) (m : Infer α) (Q : α → Prop) : Prop :=
  m.Meets (ReturnCache.Sound exact s.scope.definitions) (Error.Tolerated exact) Q

structure Inferrer.Agrees (exact : Prop) (s : Setting) (I : Inferrer) : Prop where
  operand : ∀ {ctx : Check.Context} {env : Env} {site : Site} {locals : Locals} {e : Expr} {o : Operand},
    Sited exact s ctx site → Related exact env locals → Accepts exact ctx env e o →
      Infers exact s (I.operand site locals e) (Leaves exact e o)
  name : ∀ {env : Env} {site : Site} {locals : Locals} {ts : List Transform} {x : String} {b : Check.Binding},
    Related exact env locals → env.lookup x = some b →
      Infers exact s (I.operand site locals (.name ts x)) fun o => exact → o = b.operand ∧ b.operand.target ≠ .unknown

/-- A declaration with the given initial value: of a binding, or of a parameter with its argument. In a regular program
    it is accepted where the value is read. -/
structure Declares (exact : Prop) (ctx : Check.Context) (env : Env) (e : Expr) (init : Option Expr) (b : Check.Binding) :
    Prop where
  declared : ∃ templates r, BindingType.declared? ctx.scope templates e.transforms = .ok r ∧ (exact → templates = [])
  initial : ∀ i, init = some i → (∃ o, Accepts exact ctx env i o) ∧ (exact → i.endsInReturn = false)
  types : exact → AcceptsBinding exact ctx env e init b

section
variable {exact : Prop} {s : Setting} {I : Inferrer} {ctx : Check.Context} {env : Env} {site : Site} {locals : Locals}
  (hs : Accepted exact s) (hI : I.Agrees exact s) (hctx : Sited exact s ctx site) (hrelated : Related exact env locals)

/-! ### Declarations -/

theorem Declares.of_binding (hctx : Sited exact s ctx site) (h : AcceptsBinding exact ctx env e init b)
    (hinit : exact → ∀ i, init = some i → i.endsInReturn = false) : Declares exact ctx env e init b := by
  refine ⟨?_, fun i hi => ⟨?_, fun he => hinit he i hi⟩, fun _ => h⟩
  · cases h with
    | declared htype | initialized htype | collection htype | operand htype => exact ⟨_, _, htype, hctx.templates⟩
  · cases h with
    | declared => exact nomatch hi
    | initialized _ h | collection _ h | operand _ h =>
      cases hi
      exact ⟨_, h⟩

/-- The type that is declared is the type of the binding. -/
theorem Declares.ends_declared?
    (h : Declares exact ctx env e init b) (hctx : exact → ctx.templates = []) (hscope : ctx.scope = s.scope) :
    Ends (Error.Tolerated exact)
      (fun r => exact → AcceptsBinding exact ctx env e init b ∧
        BindingType.declared? ctx.scope ctx.templates e.transforms = .ok r)
      (BindingType.declared? s.scope [] e.transforms) := by
  obtain ⟨templates, r, hr, htemplates⟩ := h.declared
  rw [← hscope]
  refine .late (fun he => ⟨r, ?_, h.types he, ?_⟩) fun err herr => BindingType.late_of_declared? hr herr
  · exact htemplates he ▸ hr
  · rw [hctx he]
    exact htemplates he ▸ hr

theorem ends_checkSupported {type : BindingType} :
    Ends (Error.Tolerated exact) (fun _ => True) (checkSupported name type) := by
  unfold checkSupported
  split
  · trivial
  case h_2 | h_3 =>
    split
    · exact .residual rfl
    · trivial
  · split
    · trivial
    · split
      · trivial
      · exact .residual rfl

/-- The local of a declaration has the type of its binding. The site matters only if no type is declared. -/
theorem infers_local (hI : I.Agrees exact s) {near : Site} (hctx : Sited exact s ctx near)
    (hhome : exact → BindingType.declared? ctx.scope [] e.transforms = .ok none → site.home = ctx.home)
    (hrelated : Related exact env locals) (h : Declares exact ctx env e init b) :
    Infers exact s (inferLocal s.scope I site locals e init) fun l => exact → l.type = b.type ∧ b.type.Settled := by
  unfold inferLocal
  refine .liftBind (h.ends_declared? hctx.templates hctx.scope) fun declared hdeclared htypes => ?_
  cases declared with
  | some type =>
    refine .liftBind ends_checkSupported fun _ _ _ => .pure fun he => ?_
    have hsettled := BindingType.settled_declared? hdeclared
    obtain ⟨hbinding, htype⟩ := htypes he
    have heq : type = b.type := by
      cases hbinding with
      | declared hd | initialized hd => exact Option.some.inj (Except.ok.inj (htype.symm.trans hd))
      | collection hd | operand hd => exact nomatch htype.symm.trans hd
    exact ⟨heq, heq ▸ hsettled⟩
  | none =>
    cases init with
    | none => exact .throw (.residual rfl)
    | some i =>
      obtain ⟨⟨o, ho⟩, hends⟩ := h.initial i rfl
      dsimp only
      split
      case isTrue harguments =>
        refine .pure fun he => ?_
        obtain ⟨hbinding, htype⟩ := htypes he
        have hcollection := collection?_of_isArguments hrelated ho he harguments
        have hsettled := settled_of_collection? hrelated hctx.templates ho he hcollection
        cases hbinding with
        | initialized h => exact nomatch htype.symm.trans h
        | operand _ _ h => exact nomatch hcollection.symm.trans h
        | collection _ _ h =>
          have heq : argumentsType = b.type := Option.some.inj (Except.ok.inj (hcollection.symm.trans h))
          exact ⟨heq, heq ▸ hsettled.1⟩
      case isFalse harguments =>
        have hno : isArguments locals i = false := Bool.eq_false_iff.mpr harguments
        refine .liftBind (ends_collection? hrelated hctx.templates ho) fun collection _ hcollection => ?_
        cases collection with
        | some type =>
          refine .pure fun he => ?_
          obtain ⟨hbinding, htype⟩ := htypes he
          have hsettled := settled_of_collection? hrelated hctx.templates ho he (hcollection he hno)
          cases hbinding with
          | initialized h => exact nomatch htype.symm.trans h
          | operand _ _ h => exact nomatch (hcollection he hno).symm.trans h
          | collection _ _ h =>
            have heq : type = b.type := Option.some.inj (Except.ok.inj ((hcollection he hno).symm.trans h))
            exact ⟨heq, heq ▸ hsettled.1⟩
        | none =>
          -- In a regular program the operand is the one that the type of the binding was made from.
          obtain ⟨o, ho, htype⟩ : ∃ o, Accepts exact ctx env i o ∧
              (exact → b.type = .ofOperand o (ctx.scope.built? i ctx.home)) := by
            by_cases he : exact
            · obtain ⟨hbinding, htype⟩ := htypes he
              cases hbinding with
              | initialized h => exact nomatch htype.symm.trans h
              | collection _ _ h => exact nomatch (hcollection he hno).symm.trans h
              | operand _ h _ hb => exact ⟨_, h, fun _ => hb⟩
            · exact ⟨o, ho, fun h => absurd h he⟩
          have hsite : Sited exact s ctx site := by
            refine ⟨hctx.scope, fun he => hhome he ?_, hctx.templates, hctx.reached⟩
            rw [hctx.scope]
            exact hdeclared
          refine (hI.operand hsite hrelated ho).bind fun o' ho' => ?_
          split
          · exact .throw (.residual rfl)
          · exact .throw (.residual rfl)
          · refine .pure fun he => ?_
            obtain ⟨rfl, hknown⟩ := ho' he
            have heq : BindingType.ofOperand o' (s.scope.built? i site.home) = b.type := by
              rw [htype he, hsite.home he, hctx.scope]
            exact ⟨heq, heq ▸ BindingType.settled_ofOperand (hknown (hends he))⟩

include hI hctx hrelated in
/-- After the declarations among accepted statements lowering knows what the check does. -/
theorem infers_locals {env' : Env} (h : AcceptsList exact ctx env l env') :
    Infers exact s (inferLocals s.scope I site locals l) (Related exact env') := by
  induction l generalizing env locals with
  | nil =>
    cases h
    exact .pure hrelated
  | cons e l ih =>
    cases h with
    | cons h hl =>
      unfold inferLocals
      cases h with
      | @binding _ ctx' _ ts c b henter hbinding hregular hb =>
        have hname : (Expr.call ts c).boundName? = some c.name := by simp [Expr.boundName?, hbinding]
        have hinitial : (Expr.call ts c).initial? = c.args.head? := by simp [Expr.initial?, hbinding]
        have hclass : c.class? ≠ some .ifElse := by simp [CallOf.class?, hbinding]
        have hctx' := hctx.enter henter
        have hdeclares := Declares.of_binding hctx' hb fun he i hi =>
          CallOf.ends_of_isRegular (hregular he) hclass (List.mem_of_head? hi)
        rw [hname, hinitial]
        refine (infers_local hI hctx' (fun he _ => hctx'.home he) hrelated hdeclares).bind ?_
        exact fun l hl' => ih (hrelated.cons hl') hl
      | @builtin _ _ _ ts c _ _ hbinding | @call _ _ _ ts c _ _ hbinding =>
        have hname : (Expr.call ts c).boundName? = none := by simp [Expr.boundName?, hbinding]
        rw [hname]
        exact ih hrelated hl
      | value _ hcall =>
        have hname : e.boundName? = none := by
          cases e with
          | literal | name => rfl
          | call => cases hcall
        rw [hname]
        exact ih hrelated hl

/-! ### Blocks -/

include hI hctx hrelated in
theorem infers_block {body : List Expr} (h : AcceptsBlock exact ctx env body o) :
    Infers exact s (inferBlock s.scope I site locals body)
      fun o' => exact → o' = o ∧ (Expr.listEndsInReturn body = false → o.target ≠ .unknown) := by
  unfold inferBlock
  cases h with
  | @value _ _ env' _ last _ hlast hinit hbinding hreturn h =>
    rw [hlast, Expr.listEndsInReturn_of_getLast? hlast]
    refine (infers_locals hI hctx hrelated hinit).bind fun inner hinner => ?_
    simp only [hbinding, hreturn, Bool.false_eq_true, if_false, Bool.false_or]
    exact hI.operand hctx hinner h
  | @leave _ _ env' _ _ last hlast hinit hbinding hreturn _ =>
    rw [hlast, Expr.listEndsInReturn_of_getLast? hlast]
    refine (infers_locals hI hctx hrelated hinit).bind fun inner hinner => ?_
    simp only [hbinding, hreturn, Bool.false_eq_true, if_false, if_true, Bool.true_or]
    exact .pure fun _ => ⟨rfl, nofun⟩

/-- Branches are merged as the check merges them, or found not to agree. -/
theorem ends_mergeBranches {b a' b' : Operand} {ea eb : Bool} (h : Check.mergeBranches a b = .ok o)
    (ha : exact → a' = a ∧ (ea = false → a.target ≠ .unknown))
    (hb : exact → b' = b ∧ (eb = false → b.target ≠ .unknown)) :
    Ends (Error.Tolerated exact) (fun o' => exact → o' = o ∧ ((ea && eb) = false → o.target ≠ .unknown))
      (mergeBranches a' b') := by
  have hresult {o' : Operand} (hmerge : mergeBranches a' b' = .ok o') (he : exact) :
      o' = o ∧ ((ea && eb) = false → o.target ≠ .unknown) := by
    obtain ⟨rfl, hka⟩ := ha he
    obtain ⟨rfl, hkb⟩ := hb he
    have hknown {x : Operand} {ex : Bool} (hx : ex = false → x.target ≠ .unknown) (hunknown : x.kind = .unknown) :
        ex = true := by
      cases ex with
      | true => rfl
      | false => exact absurd hunknown (Operand.kind_ne_unknown_of_target (hx rfl))
    unfold mergeBranches at hmerge
    unfold Check.mergeBranches at h
    split at hmerge
    case isTrue hunknown =>
      rw [if_pos hunknown] at h
      cases hmerge
      cases h
      have hea := hknown hka hunknown
      exact ⟨rfl, fun hends => hkb (by simpa [hea] using hends)⟩
    case isFalse hkind =>
      rw [if_neg hkind] at h
      split at hmerge
      case isTrue hunknown =>
        rw [if_pos hunknown] at h
        cases hmerge
        cases h
        have heb := hknown hkb hunknown
        exact ⟨rfl, fun hends => hka (by simpa [heb] using hends)⟩
      case isFalse hkind' =>
        rw [if_neg hkind'] at h
        split at hmerge
        case isTrue heq =>
          subst heq
          rw [if_pos ⟨rfl, rfl⟩] at h
          cases hmerge
          cases h
          refine ⟨rfl, fun hends => ?_⟩
          rcases Bool.and_eq_false_iff.mp hends with hends | hends
          · exact hka hends
          · exact hkb hends
        case isFalse hne =>
          split at hmerge
          case isFalse => exact nomatch hmerge
          case isTrue hnumeric =>
            -- Two different numbers are of different kinds.
            have hkinds : ¬(a'.kind = b'.kind ∧ a'.isPointer = b'.isPointer) := by
              cases a' with
              | pointer => simp [Operand.isPointer] at hnumeric
              | value k =>
                cases b' with
                | pointer => simp [Operand.isPointer] at hnumeric
                | value k' => exact fun hk => hne (congrArg Operand.value hk.1)
            rw [if_neg hkinds, if_pos hnumeric] at h
            split at hmerge
            case h_2 => exact nomatch hmerge
            case h_1 r hr =>
              rw [hr] at h
              cases hmerge
              cases h
              refine ⟨rfl, fun _ => ?_⟩
              cases a' with
              | pointer => simp [Operand.isPointer] at hnumeric
              | value k => exact target_of_resolve hr hkind
  cases hmerge : mergeBranches a' b' with
  | ok o' => exact hresult hmerge
  | error e =>
    have hcause : e = .type .branchMismatch := by
      unfold mergeBranches at hmerge
      repeat' split at hmerge
      all_goals cases hmerge
      all_goals rfl
    exact hcause ▸ .residual rfl

include hI hctx hrelated in
theorem infers_if {cond yes no : Expr} {ys ns : List Expr} {b : Operand} (hargs : c.args = [cond, yes, no])
    (hyes : Returns.branchBody yes = .ok ys) (hno : Returns.branchBody no = .ok ns)
    (ha : AcceptsBlock exact ctx env ys a) (hb : AcceptsBlock exact ctx env ns b)
    (hmerge : Check.mergeBranches a b = .ok o) :
    Infers exact s (inferIf s.scope I site locals c)
      fun o' => exact → o' = o ∧
        ((yes.branchEndsInReturn && no.branchEndsInReturn) = false → o.target ≠ .unknown) := by
  unfold inferIf
  rw [hargs]
  have hbranches : Infers exact s (inferBranches s.scope I site locals [yes, no]) fun l => ∃ a' b', l = [a', b'] ∧
      (exact → a' = a ∧ (yes.branchEndsInReturn = false → a.target ≠ .unknown)) ∧
      (exact → b' = b ∧ (no.branchEndsInReturn = false → b.target ≠ .unknown)) := by
    simp only [inferBranches, (Returns.branchBody_inv hyes).2, (Returns.branchBody_inv hno).2,
      Expr.branchEndsInReturn_of_branchBody hyes, Expr.branchEndsInReturn_of_branchBody hno]
    refine (infers_block hI hctx hrelated ha).bind fun a' ha' => ?_
    refine Infer.Meets.bind (Q := fun l => ∃ b', l = [b'] ∧
      (exact → b' = b ∧ (Expr.listEndsInReturn ns = false → b.target ≠ .unknown))) ?_ ?_
    · exact (infers_block hI hctx hrelated hb).bind fun b' hb' => .pure ⟨b', rfl, hb'⟩
    · rintro _ ⟨b', rfl, hb'⟩
      exact .pure ⟨a', b', rfl, ha', hb'⟩
  refine hbranches.bind ?_
  rintro _ ⟨a', b', rfl, ha', hb'⟩
  exact .lift (ends_mergeBranches hmerge ha' hb')

/-! ### Calls of definitions -/

/-- What a definition is found to return is what it was found to return. -/
theorem infers_returnInfo (hs : Accepted exact s) (hd : d ∈ s.scope.definitions) (hreached : exact → Reached s d.path)
    {busy : List String} :
    Infers exact s (returnInfo s.scope I busy d) fun info => exact → d.Gives info := by
  refine meets_returnInfo hs.distinct hd (fun e he => ?_) fun hdeclared hvalue busy => ?_
  · obtain ⟨info, hgives⟩ := (hs.definitions d hd).gives
    unfold Definition.Gives at hgives
    rw [he] at hgives
    exact hgives.elim
  · by_cases he : exact
    · simp only [Definition.hasValue, hdeclared, Bool.and_eq_true, Bool.not_eq_true'] at hvalue
      have hregular := hs.regular he d hd hvalue.1 (hreached he)
      cases hvalue.2.symm.trans (Definition.declared?_of_isRegular hregular hdeclared)
    · exact fun _ _ _ _ _ => ⟨fun h => absurd h he, trivial⟩

theorem accepts_simple (h : Accepts exact ctx env e o) (he : e.call? = none) : o = Check.simpleOperand env e := by
  cases h with
  | literal => rfl
  | name _ hb => simp [Check.simpleOperand, hb]
  | builtin | call => exact nomatch he

/-- A method belongs to the struct of its receiver, or else to its kind, as for the check. -/
theorem methodOwner?_eq (he : exact) (hrelated : Related exact env locals) {receiver : Expr}
    (h : Accepts exact ctx env receiver o) (hcall : receiver.call? = none) {scope : Scope} {kind : Kind} :
    Check.methodOwner? env receiver kind =
      match receiverStruct? scope site locals receiver with
      | some path => some path
      | none => if kind = .unknown then none else some (Path.atRoot kind.typeName) := by
  cases receiver with
  | literal => rfl
  | call => exact nomatch hcall
  | name ts x =>
    obtain ⟨b, hb, -⟩ := h.lookup
    obtain ⟨l, hl, htype⟩ := hrelated x b hb
    cases hstruct : b.type.struct <;>
      simp [Check.methodOwner?, receiverStruct?, hb, hl, (htype he).1, hstruct]

theorem infers_found {path : String} (hpath : exact → s.scope.get? path = some d) :
    Infers exact s (match s.scope.get? path with | some d => pure d | none => throw (.structural (.unknownCall path)))
      fun d' => d' ∈ s.scope.definitions ∧ (exact → d' = d) := by
  split
  case h_1 d' hd' => exact .pure ⟨Scope.mem_of_get? hd', fun he => Option.some.inj (hd'.symm.trans (hpath he))⟩
  case h_2 hnone =>
    refine .throw (.late (fun he => ?_) rfl)
    cases hnone.symm.trans (hpath he)

include hI hctx hrelated in
/-- A call means a definition of the program; in a regular program, the one it means to the check. -/
theorem infers_callee (hmeans : Means exact ctx env c d) (hargs : AcceptsAll exact ctx env c.args operands)
    (hregular : exact → c.isRegular ctx.called = true) :
    Infers exact s (callee s.scope I site locals c) fun d' => d' ∈ s.scope.definitions ∧ (exact → d' = d) := by
  unfold callee
  cases hmeans with
  | function hmethod hd =>
    simp only [hmethod, Bool.false_eq_true, if_false]
    split
    case h_1 d' hd' =>
      refine .pure ⟨Scope.mem_of_resolve? hd', fun he => ?_⟩
      rw [hctx.home he, ← hctx.scope, hd] at hd'
      exact (Option.some.inj hd').symm
    case h_2 hnone =>
      refine .throw (.late (fun he => ?_) rfl)
      rw [hctx.home he, ← hctx.scope, hd] at hnone
      cases hnone
  | @method receiver rest hmethod hcargs _ hd =>
    have hcall (he : exact) : receiver.call? = none := by
      have hreceiver := (Bool.and_eq_true_iff.mp (Bool.and_eq_true_iff.mp (hregular he)).1).2
      simpa [hmethod, hcargs] using hreceiver
    simp only [hmethod, if_true]
    rw [hcargs] at hargs ⊢
    cases hargs with
    | cons h _ =>
      dsimp only
      split
      case h_1 path hpath =>
        refine infers_found fun he => ?_
        obtain ⟨owner, howner', hget⟩ := hd he
        rw [methodOwner?_eq he hrelated h (hcall he), hpath] at howner'
        cases howner'
        exact hctx.scope ▸ hget
      case h_2 hpath =>
        refine (hI.operand hctx hrelated h).bind fun o' ho' => infers_found fun he => ?_
        obtain ⟨owner, howner', hget⟩ := hd he
        rw [methodOwner?_eq he hrelated h (hcall he), hpath, ← accepts_simple h (hcall he)] at howner'
        dsimp only at howner'
        split at howner'
        · cases howner'
        · cases howner'
          rw [(ho' he).1]
          exact hctx.scope ▸ hget

include hctx in
/-- What a call means can be reached from where it stands. -/
theorem reached_of_means (hmeans : Means exact ctx env c d) (hregular : exact → c.isRegular ctx.called = true)
    (hbinding : c.isBinding = false) (hb : c.builtin? = none) (he : exact) : Reached s d.path := by
  have hcalled : (c.isMethod, c.name) ∈ s.scope.calledAt ctx.home := by
    have h := (Bool.and_eq_true_iff.mp (Bool.and_eq_true_iff.mp (Bool.and_eq_true_iff.mp (hregular he)).1).1).1
    simpa [hbinding, hb, Check.Context.called, hctx.scope] using h
  cases hmeans with
  | function hmethod hd => exact .function (hctx.reached he) (hmethod ▸ hcalled) (hctx.scope ▸ hd)
  | method hmethod _ _ hd =>
    obtain ⟨owner, -, hget⟩ := hd he
    exact .method (hctx.reached he) (hmethod ▸ hcalled) (hctx.scope ▸ hget)

include hs hI hctx hrelated in
theorem infers_call (h : AcceptsCall exact ctx env c d) (hregular : exact → c.isRegular ctx.called = true)
    (hbinding : c.isBinding = false) (hb : c.builtin? = none)
    (ho : o = .value .int32 ∧ d.isStruct = true ∨ d.isStruct = false ∧ ∃ info, d.Gives info ∧ o = .value info.kind) :
    Infers exact s (inferCall s.scope I site locals c) fun o' => exact → o' = o ∧ o.target ≠ .unknown := by
  unfold inferCall
  cases h with
  | mk hmeans _ _ hargs _ =>
    refine (infers_callee hI hctx hrelated hmeans hargs hregular).bind fun d' ⟨hd', heq⟩ => ?_
    have hreached (he : exact) : Reached s d'.path := heq he ▸ reached_of_means hctx hmeans hregular hbinding hb he
    split
    case isTrue hstruct =>
      refine .pure fun he => ?_
      rcases ho with ⟨rfl, -⟩ | ⟨hno, -⟩
      · exact ⟨rfl, nofun⟩
      · rw [heq he] at hstruct
        exact nomatch hstruct.symm.trans hno
    case isFalse hstruct =>
      refine (infers_returnInfo hs hd' hreached).bind fun info hinfo => .check (fun _ => .residual rfl) fun hvoid => ?_
      refine .pure fun he => ?_
      obtain rfl := heq he
      have hstruct : d'.isStruct = false := Bool.eq_false_iff.mpr hstruct
      have hd := hs.regular he d' hd' hstruct (hreached he)
      rcases ho with ⟨-, hno⟩ | ⟨-, info', hinfo', rfl⟩
      · exact nomatch hstruct.symm.trans hno
      · rw [(hinfo he).unique (fun _ => hd) hinfo']
        refine ⟨rfl, hinfo'.kind_ne_unknown hd ?_⟩
        rw [← (hinfo he).unique (fun _ => hd) hinfo']
        exact Bool.eq_false_iff.mpr hvoid

/-! ### Builtins -/

namespace Leaves
variable {e : Expr} {o o' : Operand}

theorem known (h : exact → o' = o ∧ o.target ≠ .unknown) : Leaves exact e o o' := fun he => ⟨(h he).1, fun _ => (h he).2⟩

theorem pointer {k : Kind} (h : Leaves exact e o o') (ho : exact → o = .pointer k) (hends : exact → e.endsInReturn = false) :
    exact → o' = .pointer k ∧ k ≠ .unknown := by
  intro he
  obtain ⟨rfl, hknown⟩ := h he
  cases ho he
  exact ⟨rfl, hknown (hends he)⟩

theorem value (h : Leaves exact e o o') (hends : exact → e.endsInReturn = false) : exact → o' = o ∧ o.target ≠ .unknown :=
  fun he => ⟨(h he).1, (h he).2 (hends he)⟩

variable {ts : List Transform} {c : Call} {b : Builtin} (hbinding : c.isBinding = false) (hb : c.builtin? = some b)
include hbinding hb

theorem of_branches {cond yes no : Expr} (hcls : b.cls = .ifElse) (hargs : c.args = [cond, yes, no])
    (h : exact → o' = o ∧ ((yes.branchEndsInReturn && no.branchEndsInReturn) = false → o.target ≠ .unknown)) :
    Leaves exact (.call ts c) o o' := by
  refine fun he => ⟨(h he).1, fun hend => (h he).2 ?_⟩
  rw [Expr.endsInReturn_call ts hbinding hb, hcls, hargs] at hend
  exact hend

theorem of_block (hcls : b.cls = .block)
    (h : exact → o' = o ∧ (Expr.listEndsInReturn (c.body.getD []) = false → o.target ≠ .unknown)) :
    Leaves exact (.call ts c) o o' := by
  refine fun he => ⟨(h he).1, fun hend => (h he).2 ?_⟩
  rw [Expr.endsInReturn_call ts hbinding hb, hcls] at hend
  cases hbody : c.body with
  | none => rfl
  | some body =>
    rw [hbody] at hend
    exact hend

end Leaves

/-! ### Operators -/

section
variable {ol or ol' or' o : Operand} (hl : exact → ol' = ol ∧ ol.target ≠ .unknown)
include hl

theorem ends_resolve {op : ArithmeticOp}
    (h : ol ≠ .unknown → or ≠ .unknown → ∃ resolution, op.resolve ol or = .ok resolution ∧ o = resolution.result)
    (hr : exact → or' = or ∧ or.target ≠ .unknown) :
    Ends (Error.Tolerated exact) (fun resolution => exact → resolution.result = o ∧ o.target ≠ .unknown)
      (op.resolve ol' or') := by
  refine .late (fun he => ?_) fun _ => late_of_resolve
  obtain ⟨rfl, hkl⟩ := hl he
  obtain ⟨rfl, hkr⟩ := hr he
  obtain ⟨resolution, hresolution, rfl⟩ := h (Operand.ne_unknown_of_target hkl) (Operand.ne_unknown_of_target hkr)
  exact ⟨resolution, hresolution, rfl, target_of_resolve hresolution hkl⟩

theorem ends_resolveComparison (h : ol ≠ .unknown → or ≠ .unknown → ∃ w, resolveComparison ol or = .ok w)
    (hr : exact → or' = or ∧ or.target ≠ .unknown) :
    Ends (Error.Tolerated exact) (fun _ => True) (resolveComparison ol' or') := by
  refine (Ends.late (P := fun _ => True) (fun he => ?_) fun _ => late_of_combine).mono fun _ _ _ => trivial
  obtain ⟨rfl, hkl⟩ := hl he
  obtain ⟨rfl, hkr⟩ := hr he
  obtain ⟨w, hw⟩ := h (Operand.ne_unknown_of_target hkl) (Operand.ne_unknown_of_target hkr)
  exact ⟨w, hw, trivial⟩

theorem ends_resolveNegate (h : ol ≠ .unknown → ∃ w, resolveNegate ol = .ok w ∧ o = .value w.kind) :
    Ends (Error.Tolerated exact) (fun w => exact → Operand.value w.kind = o ∧ o.target ≠ .unknown)
      (resolveNegate ol') := by
  refine .late (fun he => ?_) fun _ => late_of_resolveNegate
  obtain ⟨rfl, hk⟩ := hl he
  obtain ⟨w, hw, rfl⟩ := h (Operand.ne_unknown_of_target hk)
  exact ⟨w, hw, rfl, w.kind_ne_unknown⟩

omit hl in
theorem ends_resolveMath {operands' : List Operand}
    (h : .unknown ∉ operands → ∃ w, resolveMath name operands = .ok w ∧ o = .value w.kind)
    (hos : exact → operands' = operands ∧ ∀ o ∈ operands, o.target ≠ .unknown) :
    Ends (Error.Tolerated exact) (fun w => exact → Operand.value w.kind = o ∧ o.target ≠ .unknown)
      (resolveMath name operands') := by
  refine .late (fun he => ?_) fun _ => late_of_resolveMath
  obtain ⟨rfl, hk⟩ := hos he
  obtain ⟨w, hw, rfl⟩ := h fun hmem => hk _ hmem rfl
  exact ⟨w, hw, rfl, w.kind_ne_unknown⟩

end

/-! ### Calls of builtins -/

theorem argument_eq_ok {i : Nat} (hargs : c.args = l) (he : l[i]? = some e) : c.argument i = .ok e := by
  simp [CallOf.argument, hargs, he]

/-- What is dereferenced is accepted as an address, in a context with no more effects. -/
theorem accepts_dereference (h : Accepts exact ctx env e o) (hcall : e.isCallTo "dereference" = true) :
    ∃ ts c ctx' pointer k, e = .call ts c ∧ c.args = [pointer] ∧ Enters exact ctx e ctx' ∧
      AcceptsPointer exact ctx' env pointer k ∧ o = .value k ∧ (exact → pointer.endsInReturn = false) := by
  obtain ⟨ts, c, rfl, hplain, hname⟩ := Expr.isCallTo_inv hcall
  have hb : c.builtin? = some (.exact .dereference 1) := by
    rw [CallOf.builtin?_of_isPlain hplain, hname]
    rfl
  obtain ⟨ctx', henter, -, hregular, hvalue⟩ := h.ofBuiltin hb
  have hclass : c.class? ≠ some .ifElse := by
    unfold CallOf.class?
    rw [hb]
    split <;> exact nofun
  cases hvalue with
  | boolean hcls => rcases hcls with hcls | hcls | hcls <;> exact nomatch hcls
  | dereference hargs hpointer =>
    refine ⟨ts, c, ctx', _, _, rfl, hargs, henter, hpointer, rfl, fun he => ?_⟩
    exact CallOf.ends_of_isRegular (hregular he) hclass (by rw [hargs]; exact List.mem_singleton_self _)

/-- An accepted address is a reference of its kind, or else it is accepted as a value. -/
theorem reference_or_accepts {k : Kind} (hrelated : Related exact env locals)
    (h : AcceptsPointer exact ctx env e k) :
    (∀ l, reference? locals e = some l → exact → l.type.kind = k ∧ k ≠ .unknown) ∧
      (reference? locals e = none → ∃ o, Accepts exact ctx env e o ∧ (exact → o = .pointer k)) := by
  cases h with
  | @reference _ _ ts x b hb hshape =>
    have hreference (he : exact) := reference?_eq ts hrelated hb he
    simp only [if_pos hshape] at hreference
    constructor
    · intro l hl he
      obtain ⟨_, -, htype, hsettled, hfound⟩ := hreference he
      cases hl.symm.trans hfound
      exact ⟨by rw [htype], hsettled.kind⟩
    · intro hl
      have hno (he : exact) : False := by
        obtain ⟨_, -, -, -, hfound⟩ := hreference he
        cases hl.symm.trans hfound
      exact ⟨b.operand, .name ⟨ctx.effects, rfl, fun he => (hno he).elim⟩ hb, fun he => (hno he).elim⟩
  | pointer hno h =>
    refine ⟨fun l hl he => ?_, fun _ => ⟨_, h, fun _ => rfl⟩⟩
    cases e with
    | literal | call => cases hl
    | name ts x =>
      obtain ⟨b, hb, -⟩ := h.lookup
      obtain ⟨_, -, -, -, hfound⟩ := reference?_eq ts hrelated hb he
      simp only [Check.referenced?, hb] at hno
      rw [hl] at hfound
      split at hfound
      case isFalse => cases hfound
      case isTrue hshape => simp [hshape] at hno

include hI hctx hrelated

theorem infers_operands (h : AcceptsAll exact ctx env l operands)
    (hends : exact → ∀ e ∈ l, e.endsInReturn = false) :
    Infers exact s (l.mapM (I.operand site locals))
      fun os => exact → os = operands ∧ ∀ o ∈ operands, o.target ≠ .unknown := by
  induction l generalizing operands with
  | nil =>
    cases h
    exact .pure fun _ => ⟨rfl, nofun⟩
  | cons e l ih =>
    cases h with
    | cons h hl =>
      rw [List.mapM_cons]
      refine (hI.operand hctx hrelated h).bind fun o ho => ?_
      refine (ih hl fun he x hx => hends he x (List.mem_cons_of_mem _ hx)).bind fun os hos => .pure fun he => ?_
      obtain ⟨rfl, hknown⟩ := ho he
      obtain ⟨rfl, hknowns⟩ := hos he
      refine ⟨rfl, List.forall_mem_cons.mpr ⟨hknown (hends he e List.mem_cons_self), hknowns⟩⟩

/-- The operand that an address leads to. -/
theorem infers_dereference {pointer : Expr} {k : Kind} (hargs : c.args = [pointer])
    (h : AcceptsPointer exact ctx env pointer k) (hends : exact → pointer.endsInReturn = false) :
    Infers exact s (inferBuiltin s.scope I site locals c .dereference)
      fun o' => exact → o' = .value k ∧ k ≠ .unknown := by
  unfold inferBuiltin
  refine .okBind (argument_eq_ok hargs rfl) ?_
  obtain ⟨hfound, hother⟩ := reference_or_accepts hrelated h
  split
  case h_1 l hl => exact .pure fun he => ⟨by rw [(hfound l hl he).1], (hfound l hl he).2⟩
  case h_2 hl =>
    obtain ⟨o, ho, heq⟩ := hother hl
    refine (hI.operand hctx hrelated ho).bind fun o' ho' => ?_
    have ho' := ho'.pointer heq hends
    cases o' with
    | pointer k' => exact .pure fun he => ⟨by rw [Operand.pointer.inj (ho' he).1], (ho' he).2⟩
    | value k' => exact .throw (.late (fun he => Operand.noConfusion (ho' he).1) rfl)

omit hctx in
/-- The operand of a name that is changed, or of what it refers to. -/
theorem infers_changedName {cls : BuiltinClass} {x : String} (hcls : cls = .assign ∨ ∃ op, cls = .step op)
    (harg : c.argument 0 = .ok (.name ts x)) (hb : env.lookup x = some b) :
    Infers exact s (inferBuiltin s.scope I site locals c cls)
      fun o' => exact → o' = b.operand ∧ b.operand.target ≠ .unknown := by
  rcases hcls with rfl | ⟨op, rfl⟩
  all_goals
    unfold inferBuiltin
    refine .okBind harg ?_
    split
    case h_1 l hl =>
      refine .pure fun he => ?_
      obtain ⟨l', -, htype, hsettled, hreference⟩ := reference?_eq ts hrelated hb he
      rw [hl] at hreference
      split at hreference
      case isFalse => exact nomatch hreference
      case isTrue hshape =>
        cases hreference
        simp only [Check.Binding.operand, hshape, htype]
        exact ⟨trivial, hsettled.kind⟩
    case h_2 => exact hI.name hrelated hb

theorem infers_index {target position : Expr} {ot : Operand} {collection : Option BindingType}
    (hargs : c.args = [target, position])
    (ht : Accepts exact ctx env target ot) (hcollection : Check.collection? ctx.templates env target = .ok collection) :
    Infers exact s (inferIndex I site locals c)
      fun o => exact → o = .value ((collection.map (·.kind)).getD .int32) ∧ o.target ≠ .unknown := by
  unfold inferIndex
  refine .okBind (argument_eq_ok hargs rfl) ?_
  split
  case isTrue harguments =>
    refine .pure fun he => ?_
    cases hcollection.symm.trans (collection?_of_isArguments hrelated ht he harguments)
    exact ⟨rfl, nofun⟩
  case isFalse harguments =>
    have hno : isArguments locals target = false := Bool.eq_false_iff.mpr harguments
    refine .liftBind (ends_collection? hrelated hctx.templates ht) fun found _ hfound => ?_
    cases found with
    | some type =>
      refine .pure fun he => ?_
      have hsettled := settled_of_collection? hrelated hctx.templates ht he (hfound he hno)
      cases hcollection.symm.trans (hfound he hno)
      exact ⟨rfl, hsettled.1.kind⟩
    | none =>
      refine (hI.operand hctx hrelated ht).bind fun o' _ => ?_
      split
      · refine .pure fun he => ?_
        cases hcollection.symm.trans (hfound he hno)
        exact ⟨rfl, nofun⟩
      · exact .throw (.residual rfl)

theorem infers_builtin {b : Builtin} (hbinding : c.isBinding = false) (hb : c.builtin? = some b)
    (hregular : exact → c.isRegular ctx.called = true) (h : AcceptsBuiltin exact ctx env c b.cls o) :
    Infers exact s (inferBuiltin s.scope I site locals c b.cls) (Leaves exact (.call ts c) o) := by
  have hvalues (hcls : b.cls ≠ .ifElse) (he : exact) {e : Expr} : e ∈ c.args → e.endsInReturn = false :=
    CallOf.ends_of_isRegular (hregular he) (by simpa [CallOf.class?, hbinding, hb] using hcls)
  generalize hcls : b.cls = cls at h hvalues
  cases h with
  | @arithmetic _ _ _ op l r ol or o hargs hl hr h =>
    unfold inferBuiltin
    refine .okBind (argument_eq_ok hargs rfl) <| (hI.operand hctx hrelated hl).bind fun ol' hol => ?_
    refine .okBind (argument_eq_ok hargs rfl) <| (hI.operand hctx hrelated hr).bind fun or' hor => ?_
    have hol := hol.value fun he => hvalues (by simp) he (by simp [hargs])
    have hor := hor.value fun he => hvalues (by simp) he (by simp [hargs])
    exact .liftBind (ends_resolve hol h hor) fun _ _ hresolution => .pure (.known hresolution)
  | @negate _ _ _ e oe o hargs he' h =>
    unfold inferBuiltin
    refine .okBind (argument_eq_ok hargs rfl) <| (hI.operand hctx hrelated he').bind fun oe' hoe => ?_
    have hoe := hoe.value fun he => hvalues (by simp) he (by simp [hargs])
    exact .liftBind (ends_resolveNegate hoe h) fun _ _ hw => .pure (.known hw)
  | comparison => exact .pure (.known fun _ => ⟨rfl, by decide⟩)
  | boolean hcls => rcases hcls with rfl | rfl | rfl <;> exact .pure (.known fun _ => ⟨rfl, by decide⟩)
  | @math _ _ _ f operands o hargs h =>
    unfold inferBuiltin
    refine (infers_operands hI hctx hrelated hargs fun he _ => hvalues (by simp) he).bind fun os hos => ?_
    exact .liftBind (ends_resolveMath h hos) fun _ _ hw => .pure (.known hw)
  | convert _ hk =>
    unfold inferBuiltin
    exact .okBind hk <| .pure (.known fun _ => ⟨rfl, CallOf.known_of_convertTarget hk⟩)
  | location hargs hb' =>
    unfold inferBuiltin
    refine .okBind (argument_eq_ok hargs rfl) <| .liftBind (ends_addressable hrelated hb') fun l _ hl => ?_
    refine .pure (.known fun he => ⟨by rw [(hl he).1], (hl he).2.kind⟩)
  | dereference hargs hpointer =>
    refine (infers_dereference hI hctx hrelated hargs hpointer fun he => ?_).mono fun _ => .known
    exact hvalues (by simp) he (by simp [hargs])
  | assignName hargs hb' =>
    exact (infers_changedName hI hrelated (.inl rfl) (argument_eq_ok hargs rfl) hb').mono fun _ => .known
  | @assign _ _ _ target value o _ hargs htarget ht =>
    unfold inferBuiltin
    obtain ⟨ts', c', -, -, -, rfl, -⟩ := accepts_dereference ht htarget
    refine .okBind (argument_eq_ok hargs rfl) <| (hI.operand hctx hrelated ht).mono fun o' ho' => .known ?_
    exact ho'.value fun he => hvalues (by simp) he (by simp [hargs])
  | @stepName _ _ _ op ts' x b' hargs hb' hshape =>
    refine (infers_changedName hI hrelated (.inr ⟨op, rfl⟩) (argument_eq_ok hargs rfl) hb').mono fun _ ho' => .known ?_
    have hoperand : b'.operand = .value b'.type.kind := by
      rcases hshape with hshape | hshape <;> simp [Check.Binding.operand, hshape]
    exact hoperand ▸ ho'
  | @step _ _ _ op target o hargs htarget ht =>
    unfold inferBuiltin
    obtain ⟨ts', c', -, -, k, rfl, -, -, -, rfl, -⟩ := accepts_dereference ht htarget
    refine .okBind (argument_eq_ok hargs rfl) <| (hI.operand hctx hrelated ht).mono fun o' ho' => .known ?_
    exact ho'.value fun he => hvalues (by simp) he (by simp [hargs])
  | ifElse hargs _ _ hyes hno ha hb' hmerge =>
    refine (infers_if hI hctx hrelated hargs hyes hno ha hb' hmerge).mono fun o' ho' => ?_
    exact .of_branches hbinding hb hcls hargs ho'
  | block h => exact (infers_block hI hctx hrelated h).mono fun o' ho' => .of_block hbinding hb hcls ho'
  | count => exact .pure (.known fun _ => ⟨rfl, by decide⟩)
  | index hargs ht _ hcollection _ ho =>
    refine (infers_index hI hctx hrelated hargs ht hcollection).mono fun o' ho' => .known fun he => ?_
    obtain ⟨rfl, hknown⟩ := ho' he
    exact ⟨ho.symm, ho ▸ hknown⟩
  | collection => exact .throw (.residual rfl)
  | heap => exact .throw (.residual rfl)

/-! ### One level of inference -/

include hs in
theorem infers_operand (h : Accepts exact ctx env e o) :
    Infers exact s (inferOperand s.scope I site locals e) (Leaves exact e o) := by
  cases h with
  | @literal _ _ _ _ l => exact .pure (.known fun _ => ⟨rfl, Kind.ofLiteral_ne_unknown l⟩)
  | name _ hb => exact .liftBind (ends_readable hrelated hb) fun _ _ hl => .pure (.known hl)
  | builtin henter hbinding hb _ hregular hvalue =>
    simp only [inferOperand, hbinding, Bool.false_eq_true, if_false, hb]
    exact infers_builtin hI (hctx.enter henter) hrelated hbinding hb hregular hvalue
  | call henter hbinding hb hregular hcall ho =>
    simp only [inferOperand, hbinding, Bool.false_eq_true, if_false, hb]
    exact (infers_call hs hI (hctx.enter henter) hrelated hcall hregular hbinding hb ho).mono fun _ => .known

omit hI hctx hrelated in
theorem Inferrer.agrees_atDepth (hs : Accepted exact s) (n : Nat) : (Inferrer.atDepth s.scope n).Agrees exact s := by
  induction n with
  | zero => exact ⟨fun _ _ _ => Recall.Meets.tooDeep, fun _ _ => Recall.Meets.tooDeep⟩
  | succ n ih =>
    refine ⟨fun hctx hrelated h => infers_operand hs ih hctx hrelated h, fun hrelated hb => ?_⟩
    exact .liftBind (ends_readable hrelated hb) fun _ _ hl => .pure hl

end
end Lower
end FlatCode
