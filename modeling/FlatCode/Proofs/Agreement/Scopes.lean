import FlatCode.Proofs.Agreement.Types

/-! The scope of lowering beside that of the check. It knows every name that the check knows, and in a regular program by
    the same type; so names and collections stand for the same in both. -/

namespace FlatCode
open Stateful

namespace Check
variable {exact : Prop}

/-! ### What is accepted, by its form -/

variable {b : Builtin} {c : Call} {ctx : Context} {env : Env} {e : Expr} {ts : List Transform} {o : Operand}

theorem Accepts.lookup {x : String}
    (h : Accepts exact ctx env (.name ts x) o) : ∃ b, env.lookup x = some b ∧ o = b.operand := by
  cases h with
  | name _ hb => exact ⟨_, hb, rfl⟩

theorem Accepts.ofBuiltin (h : Accepts exact ctx env (.call ts c) o) (hb : c.builtin? = some b) :
    ∃ ctx', Enters exact ctx (.call ts c) ctx' ∧ builtinShape ctx' b c = .ok () ∧ (exact → c.isRegular ctx'.called = true) ∧
      AcceptsBuiltin exact ctx' env c b.cls o := by
  cases h with
  | builtin henter _ hb' hshape hregular hvalue =>
    cases hb.symm.trans hb'
    exact ⟨_, henter, hshape, hregular, hvalue⟩
  | call _ _ hb' => exact nomatch hb.symm.trans hb'

theorem AcceptsBuiltin.index_inv {checked : Bool} (h : AcceptsBuiltin exact ctx env c (.index checked) o) :
    ∃ target position ot op collection, c.args = [target, position] ∧ Accepts exact ctx env target ot ∧
      Accepts exact ctx env position op ∧ collection? ctx.templates env target = .ok collection ∧
      ((∀ type, collection = some type → type.shape ≠ .map) → isIndex op = true) ∧
      o = .value ((collection.map (·.kind)).getD .int32) := by
  cases h with
  | boolean hcls => rcases hcls with hcls | hcls | hcls <;> exact nomatch hcls
  | index hargs ht hp hcollection hindex ho => exact ⟨_, _, _, _, _, hargs, ht, hp, hcollection, hindex, ho⟩

theorem AcceptsAll.getElem? {l : List Expr} {operands : List Operand} (h : AcceptsAll exact ctx env l operands)
    {i : Nat} (he : l[i]? = some e) : ∃ o, operands[i]? = some o ∧ Accepts exact ctx env e o := by
  induction l generalizing operands i with
  | nil => exact nomatch he
  | cons x l ih =>
    cases h with
    | cons hx hl =>
      cases i with
      | zero =>
        cases he
        exact ⟨_, rfl, hx⟩
      | succ i => exact ih hl he

/-- The parts of how a call of a builtin is written. -/
theorem builtinShape_inv (h : builtinShape ctx b c = .ok ()) :
    c.hasLabels = false ∧ b.checkArity c.name c.args.length = .ok () ∧ c.body.isSome = b.cls.takesBody ∧
      ctx.effects.require c.name = .ok () := by
  unfold builtinShape at h
  obtain ⟨hlabels, h⟩ := except_check_eq_ok.mp h
  obtain ⟨-, h⟩ := except_check_eq_ok.mp h
  obtain ⟨⟨⟩, harity, h⟩ := except_bind_eq_ok.mp h
  have hparts : c.body.isSome = b.cls.takesBody ∧ ctx.effects.require c.name = .ok () := by
    split at h
    case isTrue htakes =>
      obtain ⟨hbody, h⟩ := except_check_eq_ok.mp h
      refine ⟨?_, h⟩
      rw [htakes]
      simpa [Option.isSome_iff_ne_none] using hbody
    case isFalse htakes =>
      obtain ⟨hbody, h⟩ := except_check_eq_ok.mp h
      refine ⟨?_, h⟩
      rw [Bool.eq_false_iff.mpr htakes]
      simpa using hbody
  exact ⟨by simpa using hlabels, harity, hparts⟩

theorem AcceptsAll.imp {ctx' : Context} {l : List Expr} {operands : List Operand}
    (h : AcceptsAll exact ctx env l operands)
    (himp : ∀ e ∈ l, ∀ o, Accepts exact ctx env e o → Accepts exact ctx' env e o) : AcceptsAll exact ctx' env l operands := by
  induction l generalizing operands with
  | nil =>
    cases h
    exact .nil
  | cons e l ih =>
    cases h with
    | cons h hl => exact .cons (himp e List.mem_cons_self _ h) (ih hl fun e he => himp e (List.mem_cons_of_mem _ he))

/-- What is made of literals, names and operators is accepted alike in every context. -/
theorem Accepts.neutral {ctx ctx' : Context} {env : Env} {e : Expr} {o : Operand} (h : Accepts exact ctx env e o)
    (hneutral : e.All (·.isNeutral = true)) : Accepts exact ctx' env e o := by
  have hself := hneutral.self
  cases h with
  | literal => exact .literal (enters_self fun _ => (Bool.not_eq_true' _).mp hself)
  | name _ hb => exact .name (enters_self fun _ => (Bool.not_eq_true' _).mp hself) hb
  | call _ _ hb => simp [Expr.isNeutral, hb] at hself
  | @builtin _ ctx'' _ ts c b _ _ hbinding hb hshape hregular hvalue =>
    simp only [Expr.isNeutral, Bool.and_eq_true, Bool.not_eq_true', Option.isNone_iff_eq_none, hb, Option.any_some] at hself
    obtain ⟨⟨⟨heffects, -⟩, hoperator⟩, hrequired⟩ := hself
    have hargs (e : Expr) (he : e ∈ c.args) (o : Operand) (h : Accepts exact ctx'' env e o) : Accepts exact ctx' env e o :=
      have := (Expr.call ts c).parts_size.1 e he
      Accepts.neutral h (hneutral.parts.1 e he)
    refine .builtin (enters_self fun _ => heffects) hbinding hb ?_ (fun he => ?_) ?_
    · simpa only [builtinShape, EffectSet.require, hrequired] using hshape
    · simpa [CallOf.isRegular, hb] using hregular he
    · generalize b.cls = cls at hvalue hoperator ⊢
      cases hvalue with
      | arithmetic hc hl hr h =>
        exact .arithmetic hc (hargs _ (by simp [hc]) _ hl) (hargs _ (by simp [hc]) _ hr) h
      | negate hc he h => exact .negate hc (hargs _ (by simp [hc]) _ he) h
      | comparison hc hl hr h =>
        exact .comparison hc (hargs _ (by simp [hc]) _ hl) (hargs _ (by simp [hc]) _ hr) h
      | boolean hcls hall h => exact .boolean hcls (hall.imp hargs) h
      | math hall h => exact .math (hall.imp hargs) h
      | convert hc hk he h => exact .convert hc hk (hargs _ (by simp [hc]) _ he) h
      | _ => cases hoperator
termination_by e.size

/-- What is entered differs in its effects only. -/
theorem Enters.effects {ctx' : Context} (h : Enters exact ctx e ctx') (he : exact) {x : Effect}
    (hx : ctx'.effects.contains x = true) : ctx.effects.contains x = true := by
  obtain ⟨effects, rfl, hinside⟩ := h
  exact EffectSet.contains_of_inside (hinside he) hx

end Check

theorem CallOf.builtin?_of_isPlain {c : Call} (h : c.isPlain = true) : c.builtin? = Builtin.lookup? c.name := by
  simp only [CallOf.isPlain, Bool.and_eq_true, Bool.not_eq_true'] at h
  simp [CallOf.builtin?, h.2]

theorem Expr.isCallTo_inv {e : Expr} {f : String} (h : e.isCallTo f = true) :
    ∃ ts c, e = .call ts c ∧ c.isPlain = true ∧ c.name = f := by
  cases e with
  | literal | name => exact nomatch h
  | call ts c =>
    simp only [Expr.isCallTo, Bool.and_eq_true, beq_iff_eq] at h
    exact ⟨ts, c, rfl, h.1, h.2⟩

namespace Lower
open Check (Env Accepts AcceptsAll AcceptsBuiltin Enters Setting)

variable {exact : Prop} {env : Env} {locals : Locals}

/-! ### Names -/

/-- Lowering knows the names of the check, and in a regular program their types, which are settled. -/
def Related (exact : Prop) (env : Env) (locals : Locals) : Prop :=
  ∀ x b, env.lookup x = some b → ∃ l, locals.lookup x = some l ∧ (exact → l.type = b.type ∧ b.type.Settled)

theorem Related.nil : Related exact [] locals := nofun

variable {t : BindingType} {c : Call} {b : Check.Binding} {ts : List Transform} {l : Local} {x : String}

theorem Related.cons (h : Related exact env locals)
    (hl : exact → l.type = b.type ∧ b.type.Settled) : Related exact ((x, b) :: env) ((x, l) :: locals) := by
  intro y b' hy
  rw [List.lookup_cons] at hy ⊢
  cases hxy : y == x with
  | true =>
    rw [hxy] at hy
    cases hy
    exact ⟨l, rfl, hl⟩
  | false =>
    rw [hxy] at hy
    exact h y b' hy

/-- A local that is no collection leaves the operand of its binding. -/
theorem Local.operand_eq (htype : l.type = b.type) (h : l.type.shape.isCollection = false) : l.operand = b.operand := by
  unfold Local.operand Check.Binding.operand
  rw [htype] at h ⊢
  cases hshape : b.type.shape with
  | pointer | value | reference => rfl
  | map | array | vector => rw [hshape] at h; exact nomatch h

theorem Local.target_operand (l : Local) : l.operand.target = l.type.kind := by
  unfold Local.operand
  split <;> rfl

theorem ends_readable (h : Related exact env locals) (hb : env.lookup x = some b) :
    Ends (Error.Tolerated exact) (fun l => exact → l.operand = b.operand ∧ b.operand.target ≠ .unknown)
      (readable locals x) := by
  obtain ⟨l, hl, htype⟩ := h x b hb
  unfold readable
  rw [hl]
  dsimp only
  split
  · exact .residual rfl
  · split
    · exact .residual rfl
    case isFalse hshape =>
      intro he
      have hoperand := Local.operand_eq (htype he).1 (by simpa using hshape)
      refine ⟨hoperand, ?_⟩
      rw [← hoperand, Local.target_operand, (htype he).1]
      exact (htype he).2.kind

theorem ends_addressable (h : Related exact env locals) (hb : env.lookup x = some b) :
    Ends (Error.Tolerated exact) (fun l => exact → l.type = b.type ∧ b.type.Settled) (addressable locals x) := by
  obtain ⟨l, hl, htype⟩ := h x b hb
  unfold addressable
  rw [hl]
  dsimp only
  split
  · exact .residual rfl
  · exact htype

/-- A name that is assigned to may only be known under another name that is not mutable. -/
theorem ends_mutableLocal {builtin : String} (h : Related exact env locals) (hb : env.lookup x = some b) :
    Ends (Error.Tolerated exact) (fun l => exact → l.type = b.type ∧ b.type.Settled)
      (mutableLocal locals builtin x) := by
  obtain ⟨l, hl, htype⟩ := h x b hb
  unfold mutableLocal
  rw [hl]
  dsimp only
  split
  · exact htype
  · exact .residual rfl

/-- In a regular program the references of the check are those of lowering. -/
theorem reference?_eq (ts : List Transform) (h : Related exact env locals) (hb : env.lookup x = some b) (he : exact) :
    ∃ l, locals.lookup x = some l ∧ l.type = b.type ∧ b.type.Settled ∧
      reference? locals (.name ts x) = if b.type.shape = .reference then some l else none := by
  obtain ⟨l, hl, htype⟩ := h x b hb
  refine ⟨l, hl, (htype he).1, (htype he).2, ?_⟩
  simp only [reference?, hl, (htype he).1]

/-! ### Collections -/

def argumentsType : BindingType := { shape := .array, kind := .string }

theorem eq_argumentsType (h : t.Settled) (hshape : t.shape = .array) (hkind : t.kind = .string) :
    t = argumentsType := by
  have hsettled : argumentsType.Settled := ⟨nofun, fun _ => rfl, nofun, fun _ => rfl⟩
  exact h.ext hsettled (by rw [hshape]; rfl) hshape hkind fun hmap => nomatch hshape.symm.trans hmap

theorem Local.isArguments_iff (h : l.type.Settled) : l.isArguments = true ↔ l.type = argumentsType := by
  constructor
  · intro hl
    simp only [isArguments, Bool.and_eq_true, beq_iff_eq] at hl
    exact eq_argumentsType h hl.1 hl.2
  · intro hl
    rw [isArguments, hl]
    rfl

/-- The arguments of the run fit nothing else. -/
theorem eq_argumentsType_of_fits {o : Operand} (h : t.Settled) (hcollection : t.shape.isCollection = true)
    (hfits : Check.fits t (some argumentsType) o = true) : t = argumentsType := by
  obtain ⟨hshape, haccepts, -⟩ := BindingType.parts_of_fits hcollection hfits
  refine eq_argumentsType h hshape.symm ?_
  have hkind := h.kind
  revert hkind haccepts
  cases t.kind <;> decide

section
variable {ctx : Check.Context} {e : Expr} {o : Operand} (hrelated : Related exact env locals)
  (hctx : exact → ctx.templates = []) (h : Accepts exact ctx env e o)
include hrelated h

omit hrelated in
/-- A collection literal is accepted as one. -/
theorem accepts_collection {form : CollectionForm} (he : e = .call ts c)
    (hform : BindingType.form? c.name = some form) (hplain : c.isPlain = true) :
    ∃ ctx' operands type, Enters exact ctx e ctx' ∧ ctx'.effects.require c.name = .ok () ∧
      AcceptsAll exact ctx' env c.args operands ∧
      BindingType.collection ctx.templates form c.name c.templateArgs = .ok type ∧
      (form = .map → c.args.length % 2 = 0) ∧ ∀ o ∈ operands, o.isPointer = false := by
  subst he
  have hb := (CallOf.builtin?_of_isPlain hplain).trans (BindingType.lookup?_of_form? hform)
  obtain ⟨ctx', henter, hshape, -, hvalue⟩ := h.ofBuiltin hb
  have htemplates : ctx'.templates = ctx.templates := by
    obtain ⟨effects, rfl, -⟩ := henter
    rfl
  cases hvalue with
  | boolean hcls => rcases hcls with hcls | hcls | hcls <;> exact nomatch hcls
  | collection hargs htype hpairs hpointers =>
    exact ⟨ctx', _, _, henter, (Check.builtinShape_inv hshape).2.2.2, hargs, htemplates ▸ htype, hpairs, hpointers⟩

include hctx in
omit hrelated in
/-- The type of a collection literal may be found to be unknown late. -/
theorem ends_ofLiteral? (he : e = .call ts c) :
    Ends (Error.Tolerated exact) (fun _ => True) (BindingType.ofLiteral? [] c) := by
  unfold BindingType.ofLiteral?
  split
  case h_2 => trivial
  case h_1 form hform =>
    split
    case isFalse => trivial
    case isTrue hplain =>
      obtain ⟨-, -, type, -, -, -, htype, -⟩ := accepts_collection h he hform hplain
      cases hcollection : BindingType.collection [] form c.name c.templateArgs with
      | ok => trivial
      | error err =>
        refine Error.Tolerated.late (fun hexact => ?_) (BindingType.late_of_collection htype hcollection)
        rw [hctx hexact] at htype
        exact nomatch htype.symm.trans hcollection

include hctx in
/-- Apart from the arguments of the run, collections are those of the check. -/
theorem ends_collection? :
    Ends (Error.Tolerated exact)
      (fun r => exact → isArguments locals e = false → Check.collection? ctx.templates env e = .ok r)
      (collection? locals e) := by
  cases e with
  | literal => exact fun _ _ => rfl
  | call ts c =>
    refine (ends_ofLiteral? hctx h rfl).mono fun r hr _ he _ => ?_
    rw [hctx he]
    exact hr
  | name ts x =>
    obtain ⟨b, hb, -⟩ := h.lookup
    obtain ⟨l, hl, htype⟩ := hrelated x b hb
    intro he hno
    simp only [isArguments, hl, Option.any_some] at hno
    simp only [Check.collection?, hb, hl, Option.bind_some, Local.collection?, hno, (htype he).1]
    simp

/-- The arguments of the run are a collection to the check. -/
theorem collection?_of_isArguments (he : exact) (hargs : isArguments locals e = true) :
    Check.collection? ctx.templates env e = .ok (some argumentsType) := by
  cases e with
  | literal | call => exact nomatch hargs
  | name ts x =>
    obtain ⟨b, hb, -⟩ := h.lookup
    obtain ⟨l, hl, htype⟩ := hrelated x b hb
    obtain ⟨htype, hsettled⟩ := htype he
    rw [isArguments, hl, Option.any_some, Local.isArguments_iff (htype ▸ hsettled)] at hargs
    simp only [Check.collection?, hb]
    rw [← htype, hargs]
    rfl

include hctx in
/-- In a regular program the types of collections are settled. -/
theorem settled_of_collection? (he : exact) {type : BindingType}
    (htype : Check.collection? ctx.templates env e = .ok (some type)) :
    type.Settled ∧ type.shape.isCollection = true := by
  cases e with
  | literal => exact nomatch htype
  | call ts c =>
    rw [hctx he] at htype
    exact BindingType.settled_ofLiteral? htype
  | name ts x =>
    obtain ⟨b, hb, -⟩ := h.lookup
    obtain ⟨l, -, hl⟩ := hrelated x b hb
    simp only [Check.collection?, hb, Except.ok.injEq] at htype
    split at htype
    case isFalse => exact nomatch htype
    case isTrue hcollection =>
      cases htype
      have hb := (hl he).2
      exact ⟨⟨hb.kind, hb.key, hb.mapKey, fun _ => rfl⟩, hcollection⟩

end
end Lower
end FlatCode
