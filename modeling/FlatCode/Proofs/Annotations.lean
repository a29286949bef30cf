import FlatCode.Program.Build
import FlatCode.Proofs.Agreement.Scopes

/-! Which `effects(...)` annotations a check enforces. The annotation of a statement, an operand or a statement of a
    block may only narrow what is annotated around it, and nothing in the expression needs an effect that it does not
    list. The branches of an `if` are looked through: their own annotations, like those of a declared condition of a
    `for` and of a name that is only a target, say nothing, and what stands in them is held to the annotation around. -/

namespace FlatCode

/-! ### Annotations and needs -/

/-- The effects that the last `effects(...)` transform lists. -/
def listedEffects? (transforms : List Transform) : Option (List String) :=
  (transforms.reverse.find? (·.name == "effects")).map (·.arguments)

def Definition.effectNames (d : Definition) (entry : String) (defaults entryDefaults : List String) : List String :=
  (listedEffects? d.transforms).getD (if d.path == entry then entryDefaults else defaults)

/-- The expressions in a call of a builtin that are held to their own annotations. -/
def CallOf.governedBy (c : Call) (cls : BuiltinClass) : List Expr :=
  match cls, c.args with
  | .location, _ | .dereference, [.name ..] | .step _, [.name ..] => []
  | .assign, [.name .., value] => [value]
  | .ifElse, [cond, yes, no] => cond :: (yes.body?.getD [] ++ no.body?.getD [])
  | .forLoop, [init, cond, step] =>
    init :: step :: ((if cond.isBinding then cond.initial?.toList else [cond]) ++ c.body.getD [])
  | _, args => args ++ c.body.getD []

namespace Expr

def effectNames? (e : Expr) : Option (List String) := listedEffects? e.transforms

def effectNames (outer : List String) (e : Expr) : List String := e.effectNames?.getD outer

def needs? : Expr → Option Effect
  | .call _ c => if c.isBinding || c.builtin?.isNone then none else Effect.requiredBy? c.name
  | _ => none

/-- The expressions directly in an expression that are held to their own annotations. -/
def governed : Expr → List Expr
  | .call _ c =>
    if c.isBinding then c.args.head?.toList
    else match c.builtin? with
      | some b => c.governedBy b.cls
      | none => c.args ++ c.body.getD []
  | _ => []

/-- `e` is held to its annotation in the block `l`, and `outer` is the nearest annotation around it. -/
inductive Governed (l : List Expr) : Option (List String) → Expr → Prop
  | statement {e} (h : e ∈ l) : Governed l none e
  | part {outer e a} (he : Governed l outer e) (ha : a ∈ e.governed) : Governed l (e.effectNames?.or outer) a

inductive Holds : Expr → Expr → Prop
  | self {e} : Holds e e
  | part {e a b} (ha : a ∈ e.governed) (hb : Holds a b) : Holds e b

end Expr

/-! ### Names of effects -/

theorem Effect.ofName?_name (x : Effect) : ofName? x.name = some x := by
  cases x <;> rfl

theorem Effect.name_of_ofName? {n : String} {x : Effect} (h : ofName? n = some x) : x.name = n := by
  simpa using List.find?_some h

namespace EffectSet

/-- The names spell the members of a set, each of them once. -/
structure Spelled (names : List String) (s : EffectSet) : Prop where
  nodup : names.Nodup
  known : ∀ n ∈ names, ∃ x : Effect, x.name = n
  contains_iff : ∀ x, s.contains x = true ↔ x.name ∈ names

variable {names : List String} {context : String}

theorem parseNames_inv {seen effects : List Effect} (h : parseNames context seen names = .ok effects) :
    names.Nodup ∧ (∀ n ∈ names, ∃ x : Effect, x.name = n ∧ x ∉ seen) ∧
      ∀ x, x ∈ effects ↔ x ∈ seen ∨ x.name ∈ names := by
  induction names generalizing seen with
  | nil =>
    cases h
    exact ⟨.nil, by simp, fun x => by simp⟩
  | cons n names ih =>
    rw [parseNames] at h
    split at h
    · cases h
    case h_2 y hy =>
      obtain rfl := Effect.name_of_ofName? hy
      split at h
      · cases h
      case isFalse hseen =>
        have hseen : y ∉ seen := by simpa using hseen
        obtain ⟨hnodup, hknown, hmem⟩ := ih h
        have hnew (hin : y.name ∈ names) : False := by
          obtain ⟨x, hx, hx'⟩ := hknown _ hin
          have hxy : some x = some y := by rw [← Effect.ofName?_name, ← Effect.ofName?_name, hx]
          exact hx' (Option.some.inj hxy ▸ List.mem_cons_self)
        refine ⟨List.nodup_cons.mpr ⟨hnew, hnodup⟩, ?_, fun x => ?_⟩
        · rintro n (_ | ⟨_, hn⟩)
          · exact ⟨y, rfl, hseen⟩
          · obtain ⟨x, hx, hx'⟩ := hknown n hn
            exact ⟨x, hx, fun hin => hx' (List.mem_cons_of_mem _ hin)⟩
        · have hname : x.name = y.name ↔ x = y := by
            refine ⟨fun hx => Option.some.inj ?_, congrArg _⟩
            rw [← Effect.ofName?_name, ← Effect.ofName?_name, hx]
          rw [hmem, List.mem_cons, List.mem_cons, hname, or_assoc, or_left_comm]

/-- What is read from names is spelled by them. -/
theorem spelled_of_parse {s : EffectSet} (h : parse names context = .ok s) : Spelled names s := by
  unfold parse at h
  cases hnames : parseNames context [] names with
  | error e => rw [hnames] at h; exact nomatch h
  | ok effects =>
    rw [hnames] at h
    cases h
    obtain ⟨hnodup, hknown, hmem⟩ := parseNames_inv hnames
    refine ⟨hnodup, fun n hn => (hknown n hn).imp fun _ => And.left, fun x => ?_⟩
    have hall : x ∈ Effect.all := by cases x <;> decide
    simp [contains, ofList, hall, hmem]

theorem explicit?_inv {transforms : List Transform} {s? : Option EffectSet}
    (h : explicit? transforms context = .ok s?) :
    s? = none ∧ listedEffects? transforms = none ∨
      ∃ s names, s? = some s ∧ listedEffects? transforms = some names ∧ Spelled names s := by
  unfold explicit? at h
  unfold listedEffects?
  split at h
  case h_2 hnone =>
    cases h
    exact .inl ⟨rfl, by rw [hnone]; rfl⟩
  case h_1 t ht =>
    cases hparse : parse t.arguments context with
    | error e => rw [hparse] at h; exact nomatch h
    | ok s =>
      rw [hparse] at h
      cases h
      exact .inr ⟨s, t.arguments, rfl, by rw [ht]; rfl, spelled_of_parse hparse⟩

end EffectSet

/-! ### Keeping to annotations -/

structure Narrows (names outer : List String) : Prop where
  nodup : names.Nodup
  known : ∀ n ∈ names, ∃ x : Effect, x.name = n
  subset : names ⊆ outer

namespace Expr

/-- Where `outer` is listed, an expression and what stands in it keep to their annotations. -/
inductive Obeys : List String → Expr → Prop
  | mk {outer e} (narrows : ∀ names, e.effectNames? = some names → Narrows names outer)
    (needs : ∀ x, e.needs? = some x → x.name ∈ e.effectNames outer)
    (parts : ∀ a ∈ e.governed, Obeys (e.effectNames outer) a) : Obeys outer e

variable {outer : List String} {e a : Expr}

theorem effectNames_effectNames : e.effectNames (e.effectNames outer) = e.effectNames outer := by
  unfold effectNames
  cases e.effectNames? <;> rfl

theorem Obeys.narrows (h : e.Obeys outer) {names : List String} (hnames : e.effectNames? = some names) :
    Narrows names outer := by
  obtain ⟨hnarrows, -, -⟩ := h
  exact hnarrows names hnames

theorem Obeys.needs (h : e.Obeys outer) {x : Effect} (hx : e.needs? = some x) : x.name ∈ e.effectNames outer := by
  obtain ⟨-, hneeds, -⟩ := h
  exact hneeds x hx

theorem Obeys.part (h : e.Obeys outer) (ha : a ∈ e.governed) : a.Obeys (e.effectNames outer) := by
  obtain ⟨-, -, hparts⟩ := h
  exact hparts a ha

theorem Obeys.effectNames_subset (h : e.Obeys outer) : e.effectNames outer ⊆ outer := by
  unfold effectNames
  cases hnames : e.effectNames? with
  | none => exact fun _ hn => hn
  | some names => exact (h.narrows hnames).subset

/-- What stands in an expression that keeps to its annotation needs only what is listed in it. -/
theorem Obeys.needs_of_holds (h : e.Obeys outer) (ha : e.Holds a) {x : Effect} (hx : a.needs? = some x) :
    x.name ∈ e.effectNames outer := by
  induction ha generalizing outer with
  | self => exact h.needs hx
  | part hin _ ih => exact (h.part hin).effectNames_subset (ih (h.part hin) hx)

/-- In a block that keeps to its annotations so does all that is held to one. -/
theorem Governed.obeys {l : List Expr} {around : Option (List String)} (h : Governed l around e)
    (hl : ∀ e ∈ l, e.Obeys outer) : e.Obeys (around.getD outer) := by
  induction h with
  | statement he => exact hl _ he
  | @part around e a _ ha ih =>
    have hpart := ih.part ha
    unfold effectNames at hpart
    cases hnames : e.effectNames? <;> simpa [hnames] using hpart

end Expr

/-! ### Expressions that are checked -/

/-- A `block` takes no argument, and a `return` at most one. -/
theorem Builtin.maxArgs_of_lookup? {f : String} {b : Builtin} (h : lookup? f = some b) :
    (b.cls = .block → b.maxArgs = some 0) ∧ (b.cls = .ret → b.maxArgs = some 1) := by
  unfold lookup? at h
  split at h <;> cases h <;> exact ⟨by rintro ⟨⟩ <;> rfl, by rintro ⟨⟩ <;> rfl⟩

namespace Check
open Checking FlatCode.Expr

/-- Nothing is asked of the memory of results. -/
theorem Checking.Meets.any {α : Type} {m : Checking α} : Meets (fun _ => True) m fun _ => True :=
  fun _ _ _ _ _ => ⟨trivial, trivial⟩

abbrev Checking.Says {α : Type} (m : Checking α) (P : Prop) : Prop := Meets (fun _ => True) m fun _ => P

variable {b : Builtin} {c : Call} {ctx ctx' : Context} {d : Definition} {cond e target : Expr} {l : List Expr}
  {defaults entryDefaults : List String} {ts : List Transform} {builtin : String}

/-- The effects in force in an expression are those listed in it. -/
theorem spelled_inside {outer : List String} (hctx : ctx.effects.Spelled outer) (h : ctx.inside e = .ok ctx') :
    ctx'.effects.Spelled (e.effectNames outer) ∧ ∀ names, e.effectNames? = some names → Narrows names outer := by
  obtain ⟨effects, heffects, h⟩ := Stateful.except_bind_eq_ok.mp h
  cases h
  have hsubset {x : Effect} (hx : effects.contains x = true) : x.name ∈ outer :=
    (hctx.contains_iff x).mp (EffectSet.contains_of_inside heffects hx)
  obtain ⟨s?, hexplicit, hnested⟩ := Stateful.except_bind_eq_ok.mp heffects
  unfold effectNames effectNames?
  rcases EffectSet.explicit?_inv hexplicit with ⟨rfl, hnone⟩ | ⟨s, names, rfl, hnames, hspelled⟩
  · cases hnested
    rw [hnone]
    exact ⟨hctx, nofun⟩
  · dsimp only at hnested
    split at hnested
    · exact nomatch hnested
    cases hnested
    rw [hnames]
    refine ⟨hspelled, ?_⟩
    rintro _ ⟨⟩
    refine ⟨hspelled.nodup, hspelled.known, fun n hn => ?_⟩
    obtain ⟨x, rfl⟩ := hspelled.known n hn
    exact hsubset ((hspelled.contains_iff x).mpr hn)

/-- What a call of a builtin has beside its arguments, and where it has none. -/
structure Shaped (c : Call) (cls : BuiltinClass) : Prop where
  body : cls.takesBody = false → c.body = none
  block : cls = .block → c.args = []
  ret : cls = .ret → c.args = c.args.head?.toList

theorem shaped_of_builtinShape (hb : c.builtin? = some b) (h : builtinShape ctx b c = .ok ()) : Shaped c b.cls := by
  obtain ⟨-, harity, hbody, -⟩ := builtinShape_inv h
  have hmax {n : Nat} (hn : b.maxArgs = some n) : c.args.length ≤ n := by
    unfold Builtin.checkArity at harity
    split at harity
    · exact nomatch harity
    · simp_all
  obtain ⟨hblock, hret⟩ := Builtin.maxArgs_of_lookup? (CallOf.lookup?_of_builtin? hb)
  refine ⟨fun htakes => ?_, fun hcls => ?_, fun hcls => ?_⟩
  · simpa [htakes] using hbody
  · exact List.length_eq_zero_iff.mp (Nat.le_zero.mp (hmax (hblock hcls)))
  · match c.args, hmax (hret hcls) with
    | [], _ | [_], _ => rfl

structure Checker.Enforces (K : Checker) : Prop where
  expr : ∀ {outer : List String} {ctx : Context} {env : Env} {e : Expr}, ctx.effects.Spelled outer →
    (K.expr ctx env e).Says (e.Obeys outer)
  statement : ∀ {outer : List String} {ctx : Context} {env : Env} {e : Expr}, ctx.effects.Spelled outer →
    (K.statement ctx env e).Says (e.Obeys outer)

section
variable {K : Checker} (hK : K.Enforces) {outer : List String} {ctx : Context} (hctx : ctx.effects.Spelled outer)
  {env : Env}
include hK hctx

theorem Checker.Enforces.statements : (K.statements ctx env l).Says (∀ e ∈ l, e.Obeys outer) := by
  induction l generalizing env with
  | nil => exact .pure (List.forall_mem_nil _)
  | cons e l ih =>
    refine (hK.statement hctx).bind fun env' he => ?_
    exact ih.mono fun _ hl => List.forall_mem_cons.mpr ⟨he, hl⟩

theorem Checker.Enforces.block : (K.block ctx env l).Says (∀ e ∈ l, e.Obeys outer) :=
  (hK.statements hctx).bind fun _ hl => .pure hl

theorem Checker.Enforces.all : (l.mapM (K.expr ctx env)).Says (∀ e ∈ l, e.Obeys outer) := by
  induction l with
  | nil => exact .pure (List.forall_mem_nil _)
  | cons e l ih =>
    rw [List.mapM_cons]
    refine (hK.expr hctx).bind fun _ he => ih.bind fun _ hl => .pure ?_
    exact List.forall_mem_cons.mpr ⟨he, hl⟩

theorem says_checkCall {valueNeeded : Bool} :
    (checkCall K ctx env c valueNeeded).Says (∀ e ∈ c.args ++ c.body.getD [], e.Obeys outer) := by
  refine Meets.any.bind fun d? _ => ?_
  cases d? with
  | none => exact .throw
  | some d =>
    refine .check fun hbody => .liftBind fun _ _ => .liftBind fun _ _ => (hK.all hctx).bind fun _ hargs => ?_
    have hall : ∀ e ∈ c.args ++ c.body.getD [], e.Obeys outer := by
      simpa [show c.body = none by simpa using hbody] using hargs
    exact Meets.any.mono fun _ _ => hall

theorem says_checkBlockValue {body : List Expr} :
    (checkBlockValue K ctx env body).Says (∀ e ∈ body, e.Obeys outer) := by
  unfold checkBlockValue
  split
  · exact .throw
  case h_2 last hlast =>
    have hsplit (hinit : ∀ e ∈ body.dropLast, e.Obeys outer) (h : last.Obeys outer) : ∀ e ∈ body, e.Obeys outer := by
      obtain ⟨init, rfl⟩ := List.getLast?_eq_some_iff.mp hlast
      rw [List.dropLast_concat] at hinit
      simpa [or_imp, forall_and] using ⟨hinit, h⟩
    refine (hK.statements hctx).bind fun env' hinit => .check fun _ => ?_
    split
    · exact (hK.statement hctx).bind fun _ h => .pure (hsplit hinit h)
    · exact Meets.any.bind fun _ _ => .check fun _ => (hK.expr hctx).mono fun _ h => hsplit hinit h

theorem says_checkCondition {construct : ConditionOf} :
    (checkCondition K ctx env construct cond).Says (cond.Obeys outer) :=
  (hK.expr hctx).bind fun _ h => .checkLast fun _ => h

/-- The values that the target of a change holds besides its name. -/
theorem says_checkAssign {value : Expr} (hargs : c.args = [target, value]) (hbody : c.body = none) :
    (checkAssign K ctx env target value).Says (∀ e ∈ c.governedBy .assign, e.Obeys outer) := by
  unfold checkAssign CallOf.governedBy
  rw [hargs, hbody]
  split
  case h_1 ts x =>
    refine Meets.any.bind fun _ _ => .pureBind <| (hK.expr hctx).bind fun _ h => .check fun _ => .pure ?_
    simpa using h
  case h_2 ts d =>
    split
    · refine (hK.expr hctx).bind fun _ ht => (hK.expr hctx).bind fun _ hv => .check fun _ => .pure ?_
      simpa using ⟨ht, hv⟩
    · exact .throwBind
  case h_3 => exact .throwBind

theorem says_checkStep {op : ArithmeticOp} (hargs : c.args = [target]) (hbody : c.body = none) :
    (checkStep K ctx env builtin target).Says (∀ e ∈ c.governedBy (.step op), e.Obeys outer) := by
  unfold checkStep stepTarget CallOf.governedBy
  rw [hargs, hbody]
  split
  case h_1 ts x => exact Meets.any.mono fun _ _ => nofun
  case h_2 ts d =>
    split
    · refine Meets.bind (Q := fun _ => (Expr.call ts d).Obeys outer) ?_ fun _ h => .check fun _ => .pure ?_
      · exact (hK.expr hctx).bind fun _ h => .pure h
      · simpa using h
    · exact .throwBind
  case h_3 => exact .throwBind

theorem says_checkDereference (hargs : c.args = [target]) (hbody : c.body = none) :
    (checkDereference K ctx env target).Says (∀ e ∈ c.governedBy .dereference, e.Obeys outer) := by
  have htarget : (K.expr ctx env target).Says (∀ e ∈ c.governedBy .dereference, e.Obeys outer) := by
    refine (hK.expr hctx).mono fun _ h => ?_
    unfold CallOf.governedBy
    rw [hargs, hbody]
    cases target with
    | name => exact nofun
    | literal | call => simpa using h
  unfold checkDereference
  split
  case h_1 k hk =>
    refine .pure ?_
    unfold referenced? at hk
    split at hk
    · simp [CallOf.governedBy, hargs]
    · exact nomatch hk
  case h_2 =>
    refine htarget.bind fun o h => ?_
    cases o with
    | pointer k => exact .pure h
    | value k => exact .throw

theorem says_checkElements {type : BindingType} {i : Nat} :
    (checkElements K ctx env builtin type i l).Says (∀ e ∈ l, e.Obeys outer) := by
  induction l generalizing i with
  | nil => exact .pure (List.forall_mem_nil _)
  | cons e l ih =>
    refine (hK.expr hctx).bind fun _ he => .check fun _ => ih.mono fun _ hl => ?_
    exact List.forall_mem_cons.mpr ⟨he, hl⟩

theorem says_checkIndex {position : Expr} :
    (checkIndex K ctx env builtin target position).Says (target.Obeys outer ∧ position.Obeys outer) := by
  refine (hK.expr hctx).bind fun _ ht => .liftBind fun _ _ => (hK.expr hctx).bind fun _ hp => ?_
  exact Meets.any.mono fun _ _ => ⟨ht, hp⟩

omit hK hctx in
theorem branchBody_eq (h : Returns.branchBody e = .ok l) : e.body?.getD [] = l := by
  rw [(Returns.branchBody_inv h).2, Option.getD_some]

/-- A call of a builtin that passes holds what is in it to its annotations. -/
theorem says_checkBuiltin {cls : BuiltinClass} (hc : Shaped c cls) :
    (checkBuiltin K ctx env c cls).Says (∀ e ∈ c.governedBy cls, e.Obeys outer) := by
  have hbody := hc.body
  unfold checkBuiltin
  split
  case h_1 op l r h =>
    refine (hK.expr hctx).bind fun _ hl => (hK.expr hctx).bind fun _ hr => Meets.any.mono fun _ _ => ?_
    simpa [CallOf.governedBy, h, hbody rfl] using ⟨hl, hr⟩
  case h_2 e h =>
    refine (hK.expr hctx).bind fun _ he => Meets.any.mono fun _ _ => ?_
    simpa [CallOf.governedBy, h, hbody rfl] using he
  case h_3 op l r h =>
    refine (hK.expr hctx).bind fun _ hl => (hK.expr hctx).bind fun _ hr => Meets.any.mono fun _ _ => ?_
    simpa [CallOf.governedBy, h, hbody rfl] using ⟨hl, hr⟩
  case h_4 | h_5 | h_6 | h_7 | h_18 =>
    refine (hK.all hctx).bind fun _ hargs => Meets.any.mono fun _ _ => ?_
    simpa [CallOf.governedBy, hbody rfl] using hargs
  case h_8 e h =>
    refine .liftBind fun _ _ => (hK.expr hctx).bind fun _ he => Meets.any.mono fun _ _ => ?_
    simpa [CallOf.governedBy, h, hbody rfl] using he
  case h_9 e h =>
    refine Meets.any.mono fun _ _ => ?_
    simp [CallOf.governedBy]
  case h_10 e h => exact says_checkDereference hK hctx h (hbody rfl)
  case h_11 target value h => exact says_checkAssign hK hctx h (hbody rfl)
  case h_12 op target h => exact says_checkStep hK hctx h (hbody rfl)
  case h_13 cond yes no h =>
    refine (says_checkCondition hK hctx).bind fun _ hcond => .liftBind fun ys hys => .liftBind fun ns hns => ?_
    refine (says_checkBlockValue hK hctx).bind fun _ hyes => (says_checkBlockValue hK hctx).bind fun _ hno => ?_
    refine Meets.any.mono fun _ _ => ?_
    simpa [CallOf.governedBy, h, branchBody_eq hys, branchBody_eq hns, or_imp, forall_and] using ⟨hcond, hyes, hno⟩
  case h_14 =>
    refine (says_checkBlockValue hK hctx).mono fun _ h => ?_
    simpa [CallOf.governedBy, hc.block rfl] using h
  case h_15 target h =>
    refine (hK.expr hctx).bind fun _ he => Meets.any.mono fun _ _ => ?_
    simpa [CallOf.governedBy, h, hbody rfl] using he
  case h_16 checked target position h =>
    refine (says_checkIndex hK hctx).mono fun _ h' => ?_
    simpa [CallOf.governedBy, h, hbody rfl] using h'
  case h_17 form =>
    refine .liftBind fun _ _ => .check fun _ => (says_checkElements hK hctx).bind fun _ hargs => .pure ?_
    simpa [CallOf.governedBy, hbody rfl] using hargs
  all_goals exact .throw

omit hK in
/-- An expression keeps to its annotation if what it needs is in force in it, and what is in it keeps to its own. -/
theorem obeys_call (hinside : ctx.inside (.call ts c) = .ok ctx')
    (hneeds : c.isBinding = false → c.builtin?.isSome = true → ctx'.effects.require c.name = .ok ())
    (hparts : ∀ a ∈ (Expr.call ts c).governed, a.Obeys ((Expr.call ts c).effectNames outer)) :
    (Expr.call ts c).Obeys outer := by
  obtain ⟨hspelled, hnarrows⟩ := spelled_inside hctx hinside
  refine ⟨hnarrows, fun x hx => ?_, hparts⟩
  dsimp only [needs?] at hx
  split at hx
  · exact nomatch hx
  case isFalse hcall =>
    simp only [Bool.or_eq_true, not_or, Bool.not_eq_true, Option.isNone_eq_false_iff] at hcall
    have hrequire := hneeds hcall.1 hcall.2
    unfold EffectSet.require at hrequire
    rw [hx] at hrequire
    dsimp only at hrequire
    split at hrequire
    case isTrue hcontains => exact (hspelled.contains_iff x).mp hcontains
    · exact nomatch hrequire

theorem says_checkExpr : (checkExpr K ctx env e).Says (e.Obeys outer) := by
  refine .liftBind fun ctx' hinside => ?_
  obtain ⟨hctx', hnarrows⟩ := spelled_inside hctx hinside
  cases e with
  | literal ts l => exact .pure ⟨hnarrows, nofun, nofun⟩
  | name ts x => exact Meets.any.mono fun _ _ => ⟨hnarrows, nofun, nofun⟩
  | call ts c =>
    dsimp only
    split
    · exact .throw
    case isFalse hbinding =>
      split
      case h_1 b hb =>
        refine .liftBind fun _ hshape => ?_
        refine (says_checkBuiltin hK hctx' (shaped_of_builtinShape hb hshape)).mono fun _ h => ?_
        refine obeys_call hctx hinside (fun _ _ => (builtinShape_inv hshape).2.2.2) ?_
        simpa [governed, hbinding, hb] using h
      case h_2 hb =>
        refine (says_checkCall hK hctx').mono fun _ h => ?_
        refine obeys_call hctx hinside (fun _ hsome => by simp [hb] at hsome) ?_
        simpa [governed, hbinding, hb] using h

/-! ### Statements that are checked -/

theorem says_checkBinding : (checkBinding K ctx env (.call ts c)).Says (∀ e ∈ c.args.head?.toList, e.Obeys outer) := by
  unfold checkBinding
  refine .check fun _ => Meets.bind (Q := fun _ => ∀ e ∈ c.args.head?.toList, e.Obeys outer) ?_ fun _ h => .pure h
  refine .liftBind fun _ _ => ?_
  cases c.args.head? with
  | none => exact Meets.any.mono fun _ _ => nofun
  | some init =>
    refine (hK.expr hctx).bind fun _ h => Meets.any.mono fun _ _ => ?_
    simpa using h

theorem says_checkForCondition :
    (checkForCondition K ctx env cond).Says
      (∀ e ∈ if cond.isBinding then cond.initial?.toList else [cond], e.Obeys outer) := by
  unfold checkForCondition
  split
  case isTrue hbinding =>
    cases cond with
    | literal | name => exact nomatch hbinding
    | call ts c =>
      refine (says_checkBinding hK hctx).bind fun _ h => Meets.any.mono fun _ _ => ?_
      have hbinding : c.isBinding = true := hbinding
      simpa [initial?, hbinding] using h
  case isFalse => exact (says_checkCondition hK hctx).bind fun _ h => .pure (by simpa using h)

theorem says_checkBuiltinStatement (hbinding : c.isBinding = false)
    (hb : c.builtin? = some b) (hc : Shaped c b.cls) (hnames : (Expr.call ts c).effectNames outer = outer) :
    (checkBuiltinStatement K ctx env (.call ts c) c b.cls).Says (∀ e ∈ c.governedBy b.cls, e.Obeys outer) := by
  have hbody := hc.body
  unfold checkBuiltinStatement
  dsimp only
  split
  case h_1 hcls =>
    rw [hcls] at hc ⊢
    refine Meets.mono (Q := fun _ => ∀ e ∈ c.args.head?.toList, e.Obeys outer) ?_ fun _ h => ?_
    · unfold checkReturn
      cases c.args.head? with
      | none => exact Meets.any.mono fun _ _ => nofun
      | some value => exact .check fun _ => (hK.expr hctx).bind fun _ h => .checkLast fun _ => by simpa using h
    · simpa [CallOf.governedBy, hc.body rfl, ← hc.ret rfl] using h
  case h_2 cond yes no hcls h =>
    refine (says_checkCondition hK hctx).bind fun _ hcond => .liftBind fun ys hys => .liftBind fun ns hns => ?_
    refine (hK.block hctx).bind fun _ hyes => (hK.block hctx).mono fun _ hno => ?_
    simp only [hcls, CallOf.governedBy, h, branchBody_eq hys, branchBody_eq hns]
    simpa [or_imp, forall_and] using ⟨hcond, hyes, hno⟩
  case h_3 count hcls h | h_4 count hcls h =>
    refine (hK.expr hctx).bind fun _ he => .check fun _ => (hK.block hctx).mono fun _ hb => ?_
    simpa [hcls, CallOf.governedBy, h] using ⟨he, hb⟩
  case h_5 cond hcls h =>
    refine (says_checkCondition hK hctx).bind fun _ he => (hK.block hctx).mono fun _ hb => ?_
    simpa [hcls, CallOf.governedBy, h] using ⟨he, hb⟩
  case h_6 init cond step hcls h =>
    refine (hK.statement hctx).bind fun _ hi => (says_checkForCondition hK hctx).bind fun _ hcond => ?_
    refine (hK.block hctx).bind fun _ hb => (hK.block hctx).mono fun _ hs => ?_
    simp only [hcls, CallOf.governedBy, h]
    simpa [or_imp, forall_and] using ⟨hi, hs step List.mem_cons_self, hcond, hb⟩
  case h_7 hcls =>
    rw [hcls] at hc ⊢
    refine (hK.block hctx).mono fun _ h => ?_
    simpa [CallOf.governedBy, hc.block rfl] using h
  case h_8 e hcls h =>
    refine (hK.expr hctx).bind fun _ he => .checkLast fun _ => ?_
    simpa [hcls, CallOf.governedBy, h, hbody (hcls ▸ rfl)] using he
  case h_9 hcls | h_10 hcls =>
    refine (hK.all hctx).bind fun _ hargs => .pure ?_
    simpa [hcls, CallOf.governedBy, hbody (hcls ▸ rfl)] using hargs
  case h_11 =>
    -- The expression is entered once more, which changes nothing.
    refine (says_checkExpr hK hctx).bind fun _ h => .pure fun a ha => ?_
    exact hnames ▸ h.part (by simpa [governed, hbinding, hb] using ha)

theorem says_checkStatement : (checkStatement K ctx env e).Says (e.Obeys outer) := by
  refine .liftBind fun ctx' hinside => ?_
  obtain ⟨hctx', hnarrows⟩ := spelled_inside hctx hinside
  cases e with
  | literal | name => exact Meets.any.mono fun _ _ => ⟨hnarrows, nofun, nofun⟩
  | call ts c =>
    dsimp only
    split
    case isTrue hbinding =>
      refine (says_checkBinding hK hctx').mono fun _ h => ?_
      refine obeys_call hctx hinside (fun hno => absurd (hbinding.symm.trans hno) nofun) ?_
      simpa [governed, hbinding] using h
    case isFalse hbinding =>
      split
      case h_1 b hb =>
        refine .liftBind fun _ hshape => ?_
        refine (says_checkBuiltinStatement hK hctx' (by simpa using hbinding) hb (shaped_of_builtinShape hb hshape)
          effectNames_effectNames).bind fun _ h => .pure ?_
        refine obeys_call hctx hinside (fun _ _ => (builtinShape_inv hshape).2.2.2) ?_
        simpa [governed, hbinding, hb] using h
      case h_2 hb =>
        refine (says_checkCall hK hctx').bind fun _ h => .pure ?_
        refine obeys_call hctx hinside (fun _ hsome => by simp [hb] at hsome) ?_
        simpa [governed, hbinding, hb] using h

end

theorem Checker.enforces_atDepth (n : Nat) : (Checker.atDepth n).Enforces := by
  induction n with
  | zero => exact ⟨fun _ => .throw, fun _ => .throw⟩
  | succ n ih => exact ⟨fun hctx => says_checkExpr ih hctx, fun hctx => says_checkStatement ih hctx⟩

/-! ### Definitions that are checked -/

theorem spelled_active {transforms : List Transform} {names : List String} {defaults s : EffectSet} {context : String}
    (hdefaults : defaults.Spelled names) (h : EffectSet.active transforms defaults context = .ok s) :
    s.Spelled ((listedEffects? transforms).getD names) := by
  obtain ⟨s?, hexplicit, h⟩ := Stateful.except_bind_eq_ok.mp h
  cases h
  rcases EffectSet.explicit?_inv hexplicit with ⟨rfl, hnone⟩ | ⟨s, names, rfl, hnames, hspelled⟩
  · rw [hnone]
    exact hdefaults
  · rw [hnames]
    exact hspelled

theorem says_checkDefinition {s : Setting}
    (hdefaults : s.defaults.Spelled defaults) (hentryDefaults : s.entryDefaults.Spelled entryDefaults) :
    (s.checkDefinition d).Says (d.isStruct = false →
      ∀ e ∈ d.body, e.Obeys (d.effectNames s.entry defaults entryDefaults)) := by
  refine .liftBind fun effects heffects => Meets.any.bind fun returns _ => ?_
  have hctx : effects.Spelled (d.effectNames s.entry defaults entryDefaults) := by
    refine spelled_active ?_ heffects
    split
    · exact hentryDefaults
    · exact hdefaults
  split
  case isTrue hstruct => exact Meets.any.mono fun _ _ hno => absurd (hstruct.symm.trans hno) nofun
  case isFalse =>
    refine Meets.any.bind fun env _ => ?_
    exact ((Checker.enforces_atDepth s.depth).block hctx).bind fun _ h => Meets.any.mono fun _ _ _ => h

/-- In a program that is checked the bodies of definitions keep to their annotations. -/
theorem obeys_of_check {p : Program} {entry : String}
    (h : p.check entry defaults entryDefaults = .ok ()) (hd : d ∈ p.definitions)
    (hstruct : d.isStruct = false) : ∀ e ∈ d.body, e.Obeys (d.effectNames entry defaults entryDefaults) := by
  obtain ⟨scope, -, h⟩ := Stateful.except_bind_eq_ok.mp h
  obtain ⟨defaults', hdefaults, h⟩ := Stateful.except_bind_eq_ok.mp h
  obtain ⟨entryDefaults', hentryDefaults, h⟩ := Stateful.except_bind_eq_ok.mp h
  split at h
  · exact nomatch h
  case h_2 =>
    obtain ⟨⟨⟩, -, h⟩ := Stateful.except_bind_eq_ok.mp h
    obtain ⟨⟨⟨⟩, c⟩, hrun, -⟩ := Stateful.except_bind_eq_ok.mp h
    let s : Setting := { scope, depth := p.depth, entry, defaults := defaults', entryDefaults := entryDefaults' }
    have hdefinition (d : Definition) := says_checkDefinition (s := s) (d := d) (EffectSet.spelled_of_parse hdefaults)
      (EffectSet.spelled_of_parse hentryDefaults)
    have hall := (Meets.forM (l := p.definitions) fun d _ => hdefinition d).bind
      (f := fun _ => p.executions.forM s.checkExecution) fun _ hds => Meets.any.mono fun _ _ => hds
    exact (hall [] () c trivial hrun).2 d hd hstruct

/-- In a program that is checked, take any expression in the body of a definition that is held to its annotation. The
    annotation lists known effects, each once, and only such as the nearest annotation around it lists, or else the
    definition; and whatever stands in the expression needs only effects that it lists. -/
theorem annotation_enforced {p : Program} {entry : String} {defaults entryDefaults : List String}
    (h : p.check entry defaults entryDefaults = .ok ()) {d : Definition} (hd : d ∈ p.definitions)
    (hstruct : d.isStruct = false) {around : Option (List String)} {e : Expr} (he : Governed d.body around e)
    {names : List String} (hnames : e.effectNames? = some names) :
    Narrows names (around.getD (d.effectNames entry defaults entryDefaults)) ∧
      ∀ a x, e.Holds a → a.needs? = some x → x.name ∈ names := by
  have hobeys := he.obeys (obeys_of_check h hd hstruct)
  refine ⟨hobeys.narrows hnames, fun a x ha hx => ?_⟩
  simpa [effectNames, hnames] using hobeys.needs_of_holds ha hx

def listing (names : List String) (c : Call) : Expr := .call [{ name := "effects", arguments := names }] c

def printing : Expr := listing ["io_out"] { name := "print_line", args := [.string "hello"] }

def choosing (names : List String) : Expr :=
  .plainCall "if" [.bool true, listing names { name := "then", body := some [printing] }, .blockCall "else" [] []]

def choosingTwice (names : List String) : Expr :=
  listing ["io_err", "io_out"] { name := "repeat", args := [.int32 2], body := some [choosing names] }

def choosingProgram (names : List String) : Program :=
  { definitions := [{ path := "/main", statements := [choosingTwice names] }] }

/-- Whatever a branch of an `if` lists, known or not, the program is accepted, although what stands in the branch needs
    `io_out`. -/
theorem branch_annotation_unchecked (names : List String) :
    (choosingProgram names).check "/main" [] ["io_out", "io_err"] = .ok () ∧ printing.needs? = some .ioOut :=
  ⟨rfl, rfl⟩

/-- The nearest annotation around the printing is that of the loop. -/
theorem printing_governed (names : List String) :
    Governed [choosingTwice names] (some ["io_err", "io_out"]) printing := by
  have hloop : Governed [choosingTwice names] none (choosingTwice names) := .statement List.mem_cons_self
  have hchoice : Governed [choosingTwice names] (some ["io_err", "io_out"]) (choosing names) :=
    hloop.part (List.mem_cons_of_mem _ List.mem_cons_self)
  exact hchoice.part (List.mem_cons_of_mem _ List.mem_cons_self)

/-- The printing keeps to its annotation, and that to the annotation of the loop. -/
theorem printing_annotation_enforced : (choosingProgram []).check "/main" [] ["io_out", "io_err"] = .ok () ∧
    Narrows ["io_out"] ["io_err", "io_out"] ∧
      ∀ a x, printing.Holds a → a.needs? = some x → x.name ∈ ["io_out"] :=
  ⟨rfl, @annotation_enforced (choosingProgram []) "/main" [] ["io_out", "io_err"] rfl _ List.mem_cons_self rfl _
    printing (printing_governed []) _ rfl⟩

end Check
end FlatCode
