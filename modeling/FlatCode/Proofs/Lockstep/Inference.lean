import FlatCode.Lower.Inference
import FlatCode.Proofs.Layout.Expansion
import FlatCode.Proofs.Tracking
import FlatCode.Proofs.Within

/-! Inference in two scopes side by side. Where the scopes look up alike what the expressions name, the inference to some
    depth in one tracks the inference to the same or a greater depth in the other. Which expressions are looked at from
    which depth on is left open (`Inferrer.Coverage`), so that the depth can be counted, or not. -/

namespace FlatCode

theorem CallOf.mem_of_argument {c : Call} {i : Nat} {a : Expr} (h : c.argument i = .ok a) : a ∈ c.args := by
  unfold argument at h
  split at h
  case h_1 hget =>
    cases h
    exact List.mem_of_getElem? hget
  case h_2 => exact nomatch h

/-- The scopes look up alike what an expression names itself: a type, and what a call means. -/
structure Scope.Alike (scope scope' : Scope) (e : Expr) : Prop where
  declared : BindingType.declared? scope [] e.transforms = BindingType.declared? scope' [] e.transforms
  resolve : ∀ ts c, e = .call ts c → c.isBinding = false → c.builtin? = none →
    ∀ home, scope.resolve? c.name home = scope'.resolve? c.name home
  method : ∀ ts c, e = .call ts c → c.isBinding = false → c.builtin? = none →
    ∀ owner, scope.get? (owner ++ "/" ++ c.name) = scope'.get? (owner ++ "/" ++ c.name)

theorem Scope.Alike.refl {scope : Scope} {e : Expr} : scope.Alike scope e :=
  ⟨rfl, fun _ _ _ _ _ _ => rfl, fun _ _ _ _ _ _ => rfl⟩

theorem Scope.Alike.built {scope scope' : Scope} {e : Expr} (h : scope.Alike scope' e) (home : String) :
    scope.built? e home = scope'.built? e home := by
  unfold Scope.built?
  split
  case h_1 ts c =>
    split
    case isTrue hplain =>
      have hbinding : c.isBinding = false := by simp_all [CallOf.isPlain]
      have hb : c.builtin? = none := by simp_all [CallOf.builtin?]
      rw [h.resolve ts c rfl hbinding hb home]
    case isFalse => rfl
  case h_2 => rfl

/-- Expressions whose parts are among them, and whose names both scopes look up alike. -/
structure Scope.Closed (scope scope' : Scope) (Z : Expr → Prop) : Prop where
  parts : ∀ {e}, Z e → e.Parts Z
  alike : ∀ {e}, Z e → scope.Alike scope' e

namespace Lower

variable {c : Call} {e : Expr} {l : List Expr} {ts : List Transform}

section
variable {K : ReturnCache → Prop} {mayStop : Prop} {scope scope' : Scope} {Z : Expr → Prop} {I I' : Inferrer}
  {site : Site} {locals : Locals}

section
variable (hZ : scope.Closed scope' Z)
  (hI : ∀ {locals e}, Z e → Infer.InStep K mayStop (I.operand site locals e) (I'.operand site locals e))
include hZ hI

/-! ### Bindings -/

theorem tracks_inferLocal {init : Option Expr} (he : scope.Alike scope' e) (hinit : ∀ i, init = some i → Z i) :
    Infer.InStep K mayStop (inferLocal scope I site locals e init) (inferLocal scope' I' site locals e init) := by
  unfold inferLocal
  rw [he.declared]
  refine .liftBind BindingType.shallow_declared? fun type? _ => ?_
  cases type? with
  | some type => exact .liftBind shallow_checkSupported fun _ _ => .pure trivial
  | none =>
    cases init with
    | none => exact .throw nofun
    | some init =>
      have hi := hinit init rfl
      refine .ite (fun _ => .pure trivial) fun _ => .liftBind shallow_collection? fun type? _ => ?_
      cases type? with
      | some type => exact .pure trivial
      | none =>
        refine (hI hi).bind fun operand _ => ?_
        rw [(hZ.alike hi).built]
        split
        · exact .throw nofun
        · exact .throw nofun
        · exact .pure trivial

theorem tracks_inferLocals (hl : ∀ e ∈ l, Z e) :
    Infer.InStep K mayStop (inferLocals scope I site locals l) (inferLocals scope' I' site locals l) := by
  induction l generalizing locals with
  | nil => exact .pure trivial
  | cons e l ih =>
    have he := hl e List.mem_cons_self
    have hrest : ∀ e ∈ l, Z e := fun e he => hl e (List.mem_cons_of_mem _ he)
    unfold inferLocals
    split
    · exact ih hrest
    · exact (tracks_inferLocal hZ hI (hZ.alike he) fun _ => (hZ.parts he).initial).bind fun _ _ => ih hrest

theorem tracks_tryLocal (he : scope.Alike scope' e) (hinit : ∀ i, e.initial? = some i → Z i) :
    Recall.InStep K mayStop (tryLocal scope I site locals e) (tryLocal scope' I' site locals e) := by
  unfold tryLocal
  split
  · exact .pure trivial
  · refine Recall.Tracks.bind (tracks_inferLocal hZ hI he hinit) fun r _ => ?_
    cases r with
    | ok l => exact .pure trivial
    | error e => exact .pure trivial

theorem tracks_inferParameters (hl : ∀ e ∈ l, scope.Alike scope' e ∧ ∀ i, e.initial? = some i → Z i) :
    Recall.InStep K mayStop (inferParameters scope I site locals l) (inferParameters scope' I' site locals l) := by
  induction l generalizing locals with
  | nil => exact .pure trivial
  | cons e l ih =>
    obtain ⟨he, hinit⟩ := hl e List.mem_cons_self
    exact (tracks_tryLocal hZ hI he hinit).bind fun _ _ => ih fun e he => hl e (List.mem_cons_of_mem _ he)

/-! ### Calls -/

omit hZ hI in
theorem tracks_found {path : String} {e : Error} (hpath : scope.get? path = scope'.get? path) (he : e ≠ .tooDeep) :
    Infer.Tracks (ReturnCache.Same K) mayStop (match scope.get? path with | some d => pure d | none => throw e)
      (match scope'.get? path with | some d => pure d | none => throw e) fun d => d ∈ scope.definitions := by
  rw [← hpath]
  split
  case h_1 hget => exact .pure (Scope.mem_of_get? hget)
  case h_2 => exact .throw he

/-- A call means the same definition, which is one of the first scope. -/
theorem tracks_callee (hc : scope.Alike scope' (.call ts c))
    (hbinding : c.isBinding = false) (hb : c.builtin? = none) (hargs : ∀ a ∈ c.args, Z a) :
    Infer.Tracks (ReturnCache.Same K) mayStop (callee scope I site locals c) (callee scope' I' site locals c)
      fun d => d ∈ scope.definitions := by
  unfold callee
  refine .ite (fun _ => ?_) fun _ => ?_
  · split
    case h_1 => exact .throw (by simp)
    case h_2 receiver rest hreceiver =>
      have hmem : receiver ∈ c.args := hreceiver ▸ List.mem_cons_self
      have howner : receiverStruct? scope site locals receiver = receiverStruct? scope' site locals receiver := by
        unfold receiverStruct?
        split
        · rfl
        · exact (hZ.alike (hargs receiver hmem)).built _
      rw [howner]
      split
      · exact tracks_found (hc.method ts c rfl hbinding hb _) (by simp)
      · exact (hI (hargs receiver hmem)).bind fun _ _ => tracks_found (hc.method ts c rfl hbinding hb _) (by simp)
  · rw [← hc.resolve ts c rfl hbinding hb]
    split
    case h_1 hresolve => exact .pure (Scope.mem_of_resolve? hresolve)
    case h_2 => exact .throw (by simp)

/-! ### Builtins -/

theorem tracks_inferBlock {body : List Expr} (hbody : ∀ s ∈ body, Z s) :
    Infer.InStep K mayStop (inferBlock scope I site locals body) (inferBlock scope' I' site locals body) := by
  unfold inferBlock
  split
  case h_1 => exact .throw nofun
  case h_2 last hlast =>
    refine (tracks_inferLocals hZ hI fun s hs => hbody s ((List.dropLast_sublist _).subset hs)).bind fun inner _ => ?_
    refine .check nofun fun _ => .ite (fun _ => .pure trivial) fun _ => ?_
    exact hI (hbody last (List.mem_of_getLast? hlast))

theorem tracks_inferBranches (hl : ∀ e ∈ l, Z e) :
    Infer.InStep K mayStop (inferBranches scope I site locals l) (inferBranches scope' I' site locals l) := by
  induction l with
  | nil => exact .pure trivial
  | cons e l ih =>
    unfold inferBranches
    split
    case h_1 => exact .throw nofun
    case h_2 body hbody =>
      refine (tracks_inferBlock hZ hI ((hZ.parts (hl e List.mem_cons_self)).body hbody)).bind fun _ _ => ?_
      exact (ih fun e he => hl e (List.mem_cons_of_mem _ he)).bind fun _ _ => .pure trivial

theorem tracks_inferIf (hargs : ∀ a ∈ c.args, Z a) :
    Infer.InStep K mayStop (inferIf scope I site locals c) (inferIf scope' I' site locals c) := by
  refine (tracks_inferBranches hZ hI fun e he => hargs e (List.mem_of_mem_drop he)).bind fun operands _ => ?_
  split
  · exact .lift shallow_mergeBranches fun _ _ => trivial
  · exact .throw nofun

omit hZ in
theorem tracks_inferIndex (hargs : ∀ a ∈ c.args, Z a) :
    Infer.InStep K mayStop (inferIndex I site locals c) (inferIndex I' site locals c) := by
  refine .liftBind CallOf.shallow_argument fun target htarget => ?_
  refine .ite (fun _ => .pure trivial) fun _ => .liftBind shallow_collection? fun type? _ => ?_
  cases type? with
  | some type => exact .pure trivial
  | none =>
    refine (hI (hargs target (CallOf.mem_of_argument htarget))).bind fun operand _ => ?_
    split
    · exact .pure trivial
    · exact .throw nofun

theorem tracks_inferBuiltin {cls : BuiltinClass} (hargs : ∀ a ∈ c.args, Z a)
    (hbody : ∀ l, c.body = some l → ∀ s ∈ l, Z s) :
    Infer.InStep K mayStop (inferBuiltin scope I site locals c cls) (inferBuiltin scope' I' site locals c cls) := by
  have hoperand {i : Nat} {a : Expr} (ha : c.argument i = .ok a) :
      Infer.InStep K mayStop (I.operand site locals a) (I'.operand site locals a) :=
    hI (hargs a (CallOf.mem_of_argument ha))
  cases cls with
  | arithmetic op =>
    refine .liftBind CallOf.shallow_argument fun l hl => (hoperand hl).bind fun _ _ => ?_
    refine .liftBind CallOf.shallow_argument fun r hr => (hoperand hr).bind fun _ _ => ?_
    exact .liftBind ArithmeticOp.shallow_resolve fun _ _ => .pure trivial
  | negate =>
    refine .liftBind CallOf.shallow_argument fun e he => (hoperand he).bind fun _ _ => ?_
    exact .liftBind shallow_resolveNegate fun _ _ => .pure trivial
  | comparison | conjunction | disjunction | not | count => exact .pure trivial
  | math f =>
    refine Infer.Tracks.bind (.mapM fun a ha => hI (hargs a ha)) fun _ _ => ?_
    exact .liftBind shallow_resolveMath fun _ _ => .pure trivial
  | convert => exact .liftBind CallOf.shallow_convertTarget fun _ _ => .pure trivial
  | location =>
    refine .liftBind CallOf.shallow_argument fun target _ => ?_
    split
    · exact .liftBind shallow_addressable fun _ _ => .pure trivial
    · exact .throw (by simp)
  | dereference =>
    refine .liftBind CallOf.shallow_argument fun target htarget => ?_
    split
    · exact .pure trivial
    · refine (hoperand htarget).bind fun operand _ => ?_
      split
      · exact .pure trivial
      · exact .throw (by simp)
  | assign | step =>
    refine .liftBind CallOf.shallow_argument fun target htarget => ?_
    split
    · exact .pure trivial
    · exact hoperand htarget
  | ifElse => exact tracks_inferIf hZ hI hargs
  | block =>
    refine tracks_inferBlock hZ hI ?_
    cases hb : c.body with
    | none => exact fun _ h => absurd h List.not_mem_nil
    | some l => exact hbody l hb
  | index => exact tracks_inferIndex hI hargs
  | collection | heap | pathspace | ret | repeatLoop | countedLoop | whileLoop | forLoop | print => exact .throw (by simp)

end
end

/-! ### One level of inference -/

/-- Expressions that are looked at from each depth on, in a place of their own: at depth zero nothing is looked at
    without giving up, and the parts of an expression need one depth less. -/
structure Covers (mayStop : Prop) {ι : Type} (X : Nat → ι → Expr → Prop) : Prop where
  zero : ∀ {i e}, X 0 i e → mayStop
  weaken : ∀ {n i e}, X n i e → X (n + 1) i e
  parts : ∀ {n i e}, X (n + 1) i e → e.Parts (X n i)

def resultSite (d : Definition) (busy : List String) : Site := { home := d.path, busy := d.path :: busy }

/-- A definition whose result is inferred at some depth: the body is looked at where blocks are, and its expressions, like
    those of the parameters, are looked at themselves. -/
structure Resulting (Y : Nat → Site → Expr → Prop) (D : Nat → Site → Prop) (n : Nat) (d : Definition) (busy : List String) :
    Prop where
  block : D n (resultSite d busy)
  parameters : ∀ e ∈ d.parameters, Y (n + 1) (resultSite d busy) e
  body : ∀ e ∈ d.body, Y n (resultSite d busy) e

/-- Expressions whose operands are inferred at each depth, and the places of blocks of them: what a call means is among
    them, unless its result is being inferred already. -/
structure Inferrer.Coverage (K : ReturnCache → Prop) (mayStop : Prop) (scope scope' : Scope) (Y : Nat → Site → Expr → Prop)
    (D : Nat → Site → Prop) : Prop extends Covers mayStop Y where
  stable : ReturnCache.Stable K
  alike : ∀ {n site e}, Y n site e → scope.Alike scope' e
  zeroBlock : ∀ {site}, D 0 site → mayStop
  block : ∀ {n site e}, Y (n + 1) site e → D n site
  callee : ∀ {n site ts c d}, Y (n + 1) site (.call ts c) → c.isBinding = false → c.builtin? = none →
    d ∈ scope.definitions → d.isStruct = false → d.path ∉ site.busy → Resulting Y D n d site.busy

/-- Inference that tracks another one on the given expressions, and on blocks of them in the given places. -/
structure Inferrer.Tracks (K : ReturnCache → Prop) (mayStop : Prop) (Z : Site → Expr → Prop) (B : Site → Prop)
    (I I' : Inferrer) : Prop where
  operand : ∀ {site locals e}, Z site e →
    Infer.InStep K mayStop (I.operand site locals e) (I'.operand site locals e)
  firstReturn : ∀ {site locals l}, B site → (∀ e ∈ l, Z site e) →
    Recall.InStep K mayStop (I.firstReturn site locals l) (I'.firstReturn site locals l)

section
variable {K : ReturnCache → Prop} {mayStop : Prop} {scope scope' : Scope} {Y : Nat → Site → Expr → Prop}
  {D : Nat → Site → Prop} {n : Nat}
  {I I' : Inferrer} {site : Site} {locals : Locals}

theorem Inferrer.Coverage.closed (hY : Inferrer.Coverage K mayStop scope scope' Y D) (n : Nat) (site : Site) :
    scope.Closed scope' (Y n site) :=
  ⟨fun h => hY.parts (hY.weaken h), hY.alike⟩

variable (hY : Inferrer.Coverage K mayStop scope scope' Y D) (hI : Inferrer.Tracks K mayStop (Y n) (D n) I I')
include hY hI

theorem tracks_returnInfo {d : Definition} {busy : List String}
    (hd : d.isStruct = false → d.path ∉ busy → Resulting Y D n d busy) :
    Infer.InStep K mayStop (returnInfo scope I busy d) (returnInfo scope' I' busy d) := by
  refine Definition.tracks_returnInfo hY.stable fun hstruct hbusy => ?_
  obtain ⟨hblock, hparams, hbody⟩ := hd hstruct hbusy
  refine Recall.Tracks.bind (tracks_inferParameters (hY.closed n (resultSite d busy)) hI.operand fun e he => ?_) fun _ _ =>
    (hI.firstReturn hblock hbody).bind fun _ _ => .pure trivial
  exact ⟨hY.alike (hparams e he), fun _ => (hY.parts (hparams e he)).initial⟩

theorem tracks_inferCall (h : Y (n + 1) site (.call ts c)) (hbinding : c.isBinding = false) (hb : c.builtin? = none) :
    Infer.InStep K mayStop (inferCall scope I site locals c) (inferCall scope' I' site locals c) := by
  refine (tracks_callee (hY.closed n site) hI.operand (hY.alike h) hbinding hb (hY.parts h).1).bind fun d hd => ?_
  refine .ite (fun _ => .pure trivial) fun _ => ?_
  refine (tracks_returnInfo hY hI (hY.callee h hbinding hb hd)).bind fun info _ => ?_
  exact .check nofun fun _ => .pure trivial

theorem tracks_inferOperand (h : Y (n + 1) site e) :
    Infer.InStep K mayStop (inferOperand scope I site locals e) (inferOperand scope' I' site locals e) := by
  unfold inferOperand
  split
  case h_1 => exact .pure trivial
  case h_2 => exact .liftBind shallow_readable fun _ _ => .pure trivial
  case h_3 ts c =>
    refine .ite (fun _ => .throw nofun) fun hbinding => ?_
    split
    case h_1 b hb => exact tracks_inferBuiltin (hY.closed n site) hI.operand (hY.parts h).1 (hY.parts h).2
    case h_2 hb => exact tracks_inferCall hY hI h (Bool.eq_false_iff.mpr hbinding) hb

omit hY in
theorem tracks_firstReturnIn {bodies : List (List Expr)} (hblock : D n site)
    (h : ∀ body ∈ bodies, ∀ s ∈ body, Y n site s) :
    Recall.InStep K mayStop (firstReturnIn I site locals bodies) (firstReturnIn I' site locals bodies) := by
  induction bodies with
  | nil => exact .pure trivial
  | cons body rest ih =>
    refine (hI.firstReturn hblock (h body List.mem_cons_self)).bind fun k _ => ?_
    cases k with
    | some k => exact .pure trivial
    | none => exact ih fun body hbody => h body (List.mem_cons_of_mem _ hbody)

omit hI in
theorem covers_blocks (h : Y (n + 1) site (.call ts c)) : ∀ body ∈ c.blocks, ∀ s ∈ body, Y n site s := by
  have hparts := hY.parts h
  exact CallOf.parts_blocks (fun a ha => hY.parts (hY.weaken (hparts.1 a ha))) hparts.2

theorem tracks_inferFirstReturn (h : ∀ e ∈ l, Y (n + 1) site e) :
    Recall.InStep K mayStop (inferFirstReturn scope I site locals l) (inferFirstReturn scope' I' site locals l) := by
  induction l generalizing locals with
  | nil => exact .pure trivial
  | cons e rest ih =>
    have he := h e List.mem_cons_self
    have hrest {locals : Locals} : Recall.InStep K mayStop (inferFirstReturn scope I site locals rest)
        (inferFirstReturn scope' I' site locals rest) :=
      ih fun e he => h e (List.mem_cons_of_mem _ he)
    unfold inferFirstReturn
    split
    case h_1 ts c =>
      split
      · exact (tracks_tryLocal (hY.closed n site) hI.operand (hY.alike he) fun i => (hY.parts he).initial).bind
          fun _ _ => hrest
      · split
        · split
          case h_1 value _ hvalue =>
            refine Recall.Tracks.bind (hI.operand ((hY.parts he).1 value (hvalue ▸ List.mem_cons_self))) fun r _ => ?_
            cases r with
            | ok operand => exact .pure trivial
            | error e => exact .pure trivial
          case h_2 => exact hrest
        · refine (tracks_firstReturnIn hI (hY.block he) (covers_blocks hY he)).bind fun k _ => ?_
          cases k with
          | some k => exact .pure trivial
          | none => exact hrest
    case h_2 => exact hrest

end

/-- Inference to a depth tracks inference to the same or a greater depth. -/
theorem Inferrer.tracks_atDepth {K : ReturnCache → Prop} {mayStop : Prop} {scope scope' : Scope} {Y : Nat → Site → Expr → Prop}
    {D : Nat → Site → Prop} (hY : Inferrer.Coverage K mayStop scope scope' Y D) (n k : Nat) :
    Inferrer.Tracks K mayStop (Y n) (D n) (atDepth scope n) (atDepth scope' (n + k)) := by
  induction n with
  | zero => exact ⟨fun h => .tooDeep (hY.zero h), fun h _ => .tooDeep (hY.zeroBlock h)⟩
  | succ n ih =>
    rw [Nat.succ_add]
    exact ⟨fun h => tracks_inferOperand hY ih h, fun _ h => tracks_inferFirstReturn hY ih h⟩

end Lower
end FlatCode
