import FlatCode.Proofs.Tracking
import FlatCode.Proofs.Within

/-! What a check infers does not depend on what it remembers. The kind of an expression is told from the calls in it, and
    from memories that give those calls the same results it is told alike, whatever else the memories hold, whichever
    results are being inferred, and to whatever depth that is enough. From one memory it keeps what is remembered
    (`Inferrer.keeps_atDepth`). -/

namespace FlatCode

namespace Scope
variable {scope : Scope} {Z : Expr → Prop} {e i : Expr}

def source? (scope : Scope) : Expr → Option Expr
  | .call ts c =>
    if c.isBinding then
      match BindingType.declared? scope [] ts with
      | .ok (some _) => none
      | _ => c.args.head?
    else if c.name == "return" then c.args.head?
    else none
  | _ => none

/-- The definitions that a call in the definition at `home` may mean. Which method it means depends on its receiver. -/
def MayMean (scope : Scope) (home : String) (c : Call) (d : Definition) : Prop :=
  if c.isMethod then ∃ owner, scope.get? (owner ++ "/" ++ c.name) = some d else scope.resolve? c.name home = some d

theorem MayMean.mem {home : String} {c : Call} {d : Definition} (h : scope.MayMean home c d) : d ∈ scope.definitions := by
  unfold MayMean at h
  split at h
  · obtain ⟨owner, hget⟩ := h
    exact mem_of_get? hget
  · exact mem_of_resolve? h

theorem source?_of_initial? (hi : e.initial? = some i)
    (hdeclared : ∀ type, BindingType.declared? scope [] e.transforms ≠ .ok (some type)) : scope.source? e = some i := by
  cases e with
  | literal | name => exact nomatch hi
  | call ts c =>
    unfold Expr.initial? at hi
    unfold source?
    dsimp only at hi ⊢
    split at hi
    case isFalse => exact nomatch hi
    case isTrue hbinding =>
      rw [if_pos hbinding]
      split
      case h_1 type hok => exact absurd hok (hdeclared type)
      case h_2 => exact hi

theorem source?_mem (h : e.Parts Z) (hi : scope.source? e = some i) : Z i := by
  cases e with
  | literal | name => exact nomatch hi
  | call ts c =>
    refine h.1 i (List.mem_of_head? ?_)
    unfold source? at hi
    dsimp only at hi
    split at hi
    · split at hi
      · exact nomatch hi
      · exact hi
    · split at hi
      · exact hi
      · exact nomatch hi

end Scope

namespace Check

/-! ### Inference from two memories -/

variable {c : Call} {e : Expr} {l : List Expr}

section
variable {S : ReturnCache → ReturnCache → Prop} {mayStop : Prop} {scope : Scope} {Z : Expr → Prop} {I I' : Inferrer}
  {home : String} {busy busy' : List String} {env : Env}

section
variable (hI : ∀ {env e}, Z e →
  Recall.Tracks S mayStop (I.operand ⟨home, busy⟩ env e) (I'.operand ⟨home, busy'⟩ env e) fun _ => True)
include hI

theorem tracks_inferBinding (he : ∀ i, scope.source? e = some i → Z i) :
    Recall.Tracks S mayStop (inferBinding scope I ⟨home, busy⟩ env e) (inferBinding scope I' ⟨home, busy'⟩ env e)
      fun _ => True := by
  unfold inferBinding
  split
  case h_1 => exact .pure trivial
  case h_2 hdeclared =>
    split
    case h_1 => exact .pure trivial
    case h_2 init hinit =>
      have hsource := Scope.source?_of_initial? hinit fun type h => hdeclared type h
      split
      · exact .pure trivial
      · exact (hI (he init hsource)).bind fun _ _ => .pure trivial

theorem tracks_inferBindings (hl : ∀ e ∈ l, ∀ i, scope.source? e = some i → Z i) :
    Recall.Tracks S mayStop (inferBindings scope I ⟨home, busy⟩ env l) (inferBindings scope I' ⟨home, busy'⟩ env l)
      fun _ => True := by
  induction l generalizing env with
  | nil => exact .pure trivial
  | cons e l ih =>
    obtain ⟨he, hl⟩ := List.forall_mem_cons.mp hl
    unfold inferBindings
    split
    · exact ih hl
    · exact (tracks_inferBinding hI he).bind fun _ _ => ih hl

theorem tracks_inferParameters {templates : List String} (hl : ∀ e ∈ l, ∀ i, scope.source? e = some i → Z i) :
    Recall.Tracks S mayStop (inferParameters scope I ⟨home, busy⟩ templates env l)
      (inferParameters scope I' ⟨home, busy'⟩ templates env l) fun _ => True := by
  induction l generalizing env with
  | nil => exact .pure trivial
  | cons e l ih =>
    obtain ⟨he, hl⟩ := List.forall_mem_cons.mp hl
    unfold inferParameters
    split
    · exact ih hl
    · dsimp only
      split
      · exact Recall.Tracks.bind (Q := fun _ => True) (.pure trivial) fun _ _ => ih hl
      · exact (tracks_inferBinding hI he).bind fun _ _ => ih hl

theorem tracks_callee? (hargs : ∀ a ∈ c.args, Z a) :
    Recall.Tracks S mayStop (callee? scope I ⟨home, busy⟩ env c) (callee? scope I' ⟨home, busy'⟩ env c)
      fun d? => ∀ d, d? = some d → scope.MayMean home c d := by
  unfold callee?
  split
  case isTrue hmethod =>
    split
    case h_1 => exact .pure (by simp)
    case h_2 receiver rest hreceiver =>
      refine (hI (hargs receiver (hreceiver ▸ List.mem_cons_self))).bind fun operand _ => .pure fun d hd => ?_
      obtain ⟨owner, -, hget⟩ := Option.bind_eq_some_iff.mp hd
      rw [Scope.MayMean, if_pos hmethod]
      exact ⟨owner, hget⟩
  case isFalse hplain =>
    refine .pure fun d hd => ?_
    rwa [Scope.MayMean, if_neg hplain]

section
variable (hZ : ∀ {e}, Z e → e.Parts Z)
include hZ

theorem tracks_inferBlock {body : List Expr} (hbody : ∀ s ∈ body, Z s) :
    Recall.Tracks S mayStop (inferBlock scope I ⟨home, busy⟩ env body) (inferBlock scope I' ⟨home, busy'⟩ env body)
      fun _ => True := by
  unfold inferBlock
  split
  case h_1 => exact .pure trivial
  case h_2 last hlast =>
    refine (tracks_inferBindings hI fun s hs i => ?_).bind fun _ _ => hI (hbody last (List.mem_of_getLast? hlast))
    exact Scope.source?_mem (hZ (hbody s ((List.dropLast_sublist _).subset hs)))

theorem tracks_inferBody {body : Option (List Expr)} (hbody : ∀ l, body = some l → ∀ s ∈ l, Z s) :
    Recall.Tracks S mayStop (inferBody scope I ⟨home, busy⟩ env body) (inferBody scope I' ⟨home, busy'⟩ env body)
      fun _ => True := by
  cases body with
  | none => exact .pure trivial
  | some l => exact tracks_inferBlock hI hZ (hbody l rfl)

omit hZ in
theorem tracks_inferFirst (hargs : ∀ a ∈ c.args, Z a) (k : Operand → Operand) : Recall.Tracks S mayStop
    (match c.args with | target :: _ => do return k (← I.operand ⟨home, busy⟩ env target) | [] => return .unknown)
    (match c.args with | target :: _ => do return k (← I'.operand ⟨home, busy'⟩ env target) | [] => return .unknown)
    fun _ => True := by
  split
  case h_1 target rest htarget => exact (hI (hargs target (htarget ▸ List.mem_cons_self))).bind fun _ _ => .pure trivial
  case h_2 => exact .pure trivial

theorem tracks_inferBuiltin {cls : BuiltinClass} (hargs : ∀ a ∈ c.args, Z a)
    (hbody : ∀ l, c.body = some l → ∀ s ∈ l, Z s) :
    Recall.Tracks S mayStop (inferBuiltin scope I ⟨home, busy⟩ env c cls) (inferBuiltin scope I' ⟨home, busy'⟩ env c cls)
      fun _ => True := by
  have hall : Recall.Tracks S mayStop (c.args.mapM (I.operand ⟨home, busy⟩ env))
      (c.args.mapM (I'.operand ⟨home, busy'⟩ env)) fun _ => True := .mapM fun a ha => hI (hargs a ha)
  cases cls with
  | arithmetic op =>
    refine hall.bind fun operands _ => ?_
    split
    · split <;> exact .pure trivial
    · exact .pure trivial
  | negate | math => exact hall.bind fun _ _ => .pure trivial
  | comparison | conjunction | disjunction | not | convert | count | index => exact .pure trivial
  | location =>
    unfold inferBuiltin
    dsimp only
    split <;> exact .pure trivial
  | dereference => exact tracks_inferFirst hI hargs fun operand => .value operand.target
  | assign | step => exact tracks_inferFirst hI hargs fun operand => .value operand.kind
  | ifElse =>
    refine tracks_inferBody hI hZ fun l hl => ?_
    obtain ⟨branch, hbranch, hl⟩ := Option.bind_eq_some_iff.mp hl
    exact (hZ (hargs branch (List.mem_of_getElem? hbranch))).body hl
  | block => exact tracks_inferBody hI hZ hbody
  | collection | heap | pathspace | ret | repeatLoop | countedLoop | whileLoop | forLoop | print => exact .pure trivial

/-- The results of the calls that an expression may mean are found alike. -/
theorem tracks_inferOperand (hparts : e.Parts Z)
    (hreturns : ∀ ts c, e = .call ts c → c.isBinding = false → c.builtin? = none → ∀ d, scope.MayMean home c d →
      d.isStruct = false →
      Recall.Tracks S mayStop (returnInfo scope I busy d).run (returnInfo scope I' busy' d).run fun _ => True) :
    Recall.Tracks S mayStop (inferOperand scope I ⟨home, busy⟩ env e) (inferOperand scope I' ⟨home, busy'⟩ env e)
      fun _ => True := by
  unfold inferOperand
  split
  case h_1 => exact .pure trivial
  case h_2 => exact .pure trivial
  case h_3 ts c =>
    split
    case isTrue => exact .pure trivial
    case isFalse hbinding =>
      split
      case h_1 => exact tracks_inferBuiltin hI hZ hparts.1 hparts.2
      case h_2 hb =>
        refine (tracks_callee? hI hparts.1).bind fun d? hd? => ?_
        cases d? with
        | none => exact .pure trivial
        | some d =>
          dsimp only
          split
          case isTrue => exact .pure trivial
          case isFalse hstruct =>
            have hstruct : d.isStruct = false := Bool.eq_false_iff.mpr hstruct
            refine (hreturns ts c rfl (Bool.eq_false_iff.mpr hbinding) hb d (hd? d rfl) hstruct).bind fun r _ => ?_
            cases r <;> exact .pure trivial

end

/-! ### First returns -/

section
variable {B : List Expr → Prop} (hB : ∀ {env l}, B l →
  Recall.Tracks S mayStop (I.firstReturn ⟨home, busy⟩ env l) (I'.firstReturn ⟨home, busy'⟩ env l) fun _ => True)
include hB

omit hI in
theorem tracks_firstReturnIn {bodies : List (List Expr)} (h : ∀ body ∈ bodies, B body) :
    Recall.Tracks S mayStop (firstReturnIn I ⟨home, busy⟩ env bodies) (firstReturnIn I' ⟨home, busy'⟩ env bodies)
      fun _ => True := by
  induction bodies with
  | nil => exact .pure trivial
  | cons body rest ih =>
    obtain ⟨hbody, hrest⟩ := List.forall_mem_cons.mp h
    refine (hB hbody).bind fun k _ => ?_
    cases k with
    | some k => exact .pure trivial
    | none => exact ih hrest

theorem tracks_inferFirstReturn (hsources : ∀ e ∈ l, ∀ i, scope.source? e = some i → Z i)
    (hblocks : ∀ ts c, .call ts c ∈ l → ∀ body ∈ c.blocks, B body) :
    Recall.Tracks S mayStop (inferFirstReturn scope I ⟨home, busy⟩ env l) (inferFirstReturn scope I' ⟨home, busy'⟩ env l)
      fun _ => True := by
  induction l generalizing env with
  | nil => exact .pure trivial
  | cons e rest ih =>
    obtain ⟨he, hsources⟩ := List.forall_mem_cons.mp hsources
    have hrest {env : Env} : Recall.Tracks S mayStop (inferFirstReturn scope I ⟨home, busy⟩ env rest)
        (inferFirstReturn scope I' ⟨home, busy'⟩ env rest) fun _ => True :=
      ih hsources fun ts c hc => hblocks ts c (List.mem_cons_of_mem _ hc)
    cases e with
    | literal | name => exact hrest
    | call ts c =>
      unfold inferFirstReturn
      split
      case isTrue => exact (tracks_inferBinding hI he).bind fun _ _ => hrest
      case isFalse hbinding =>
        split
        case isTrue hreturn =>
          split
          case h_1 value rest' hargs =>
            have hsource : scope.source? (.call ts c) = some value := by simp [Scope.source?, hbinding, hreturn, hargs]
            exact (hI (he value hsource)).bind fun _ _ => .pure trivial
          case h_2 => exact hrest
        case isFalse =>
          refine (tracks_firstReturnIn hB (hblocks ts c List.mem_cons_self)).bind fun k _ => ?_
          cases k with
          | some k => exact .pure trivial
          | none => exact hrest

end
end
end

/-! ### Inference from one memory -/

section
variable {S : ReturnCache → Prop} {scope : Scope} {I : Inferrer} {d : Definition} {busy : List String}

structure Inferrer.Keeps (S : ReturnCache → Prop) (I : Inferrer) : Prop where
  operand : ∀ site env e, (I.operand site env e).Keeps S
  firstReturn : ∀ site env l, (I.firstReturn site env l).Keeps S

theorem keeps_inferResult (hI : I.Keeps S) : (inferResult scope I busy d).Keeps S := by
  have hparameters : (inferParameters scope I ⟨d.path, busy⟩ d.templateArgs [] d.parameters).Keeps S :=
    (tracks_inferParameters (Z := fun _ => True) (fun _ => (hI.operand _ _ _).tracks) fun _ _ _ _ => trivial).meets
  exact hparameters.bind fun _ _ => (hI.firstReturn _ _ _).bind fun _ _ => .pure trivial

theorem meets_checkReturnInfo (hdistinct : Definition.Distinct scope.definitions)
    (hI : I.Keeps scope.Sound) (hd : d ∈ scope.definitions) :
    Infer.Meets scope.Sound (fun _ => True) (returnInfo scope I busy d) d.Gives :=
  (meets_returnInfo hdistinct hd (fun _ _ => trivial) fun _ _ _ => keeps_inferResult hI).mono fun _ h => h trivial

theorem Inferrer.keeps_atDepth (hdistinct : Definition.Distinct scope.definitions) (n : Nat) :
    (Inferrer.atDepth scope n).Keeps scope.Sound := by
  induction n with
  | zero => exact ⟨fun _ _ _ => .tooDeep, fun _ _ _ => .tooDeep⟩
  | succ n ih =>
    have hoperand (site : Site) {env : Env} {e : Expr} (_ : True) := (ih.operand site env e).tracks
    have hfirst (site : Site) {env : Env} {l : List Expr} (_ : True) := (ih.firstReturn site env l).tracks
    have hparts (e : Expr) : e.Parts fun _ => True := by cases e <;> simp [Expr.Parts]
    refine ⟨fun site env e => ?_, fun site env l => ?_⟩
    · refine (tracks_inferOperand (hoperand site) (fun _ => hparts _) (hparts e) fun _ _ _ _ _ d hd _ => ?_).meets
      exact (Recall.Meets.mono (meets_checkReturnInfo hdistinct ih hd.mem) fun _ _ => trivial).tracks
    · exact (tracks_inferFirstReturn (hoperand site) (hfirst site) (fun _ _ _ _ => trivial) fun _ _ _ _ _ => trivial).meets

end
end Check
end FlatCode
