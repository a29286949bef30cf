import FlatCode.Proofs.Lookup
import FlatCode.Proofs.Monad
import FlatCode.Proofs.Source.Words

/-! The kinds that lowering infers for expressions of the fragment are the kinds of their terms. -/

namespace FlatCode.Source
open Lower Stateful

/-! ### Locals -/

def operandOf : Option Scalar → Operand
  | some k => .value k.kind
  | none => .unknown

inductive Typed : Locals → Kinds → Prop
  | nil : Typed [] []
  | cons {x l k locals Γ} (shape : l.type.shape = .value) (kind : l.type.kind = Scalar.kind k) (h : Typed locals Γ) :
    Typed ((x, l) :: locals) ((x, k) :: Γ)

theorem Scalar.kind_inj {a b : Scalar} (h : a.kind = b.kind) : a = b := by cases a <;> cases b <;> first | rfl | cases h

variable {c : Call} {e : Expr} {os : List (Option Scalar)} {es : List Expr} {ts : List Transform} {l : Local}
  {i : Nat} {k : Scalar} {name x : String} {a : Term} {β : Type} {b : β}

theorem Typed.lookup {locals : Locals} {Γ : Kinds} (h : Typed locals Γ)
    (hl : locals.lookup x = some l) : ∃ k, Γ.lookup x = some k ∧ l.type.shape = .value ∧ l.type.kind = k.kind := by
  induction h with
  | nil => exact nomatch hl
  | @cons y _ _ _ _ shape kind _ ih =>
    rw [List.lookup_cons] at hl ⊢
    cases hxy : x == y with
    | true =>
      rw [hxy] at hl
      cases hl
      exact ⟨_, rfl, shape, kind⟩
    | false =>
      rw [hxy] at hl
      exact ih hl

/-! ### Operators -/

section
variable {a b : Option Scalar} {w : Width}

theorem resolve_operands {op : ArithmeticOp} {r : ArithmeticResolution}
    (h : op.resolve (operandOf a) (operandOf b) = .ok r) : ∃ k, Scalar.join a b = some k ∧ r = .numeric k.width := by
  rcases a with _ | (_ | _ | _ | _) <;> rcases b with _ | (_ | _ | _ | _) <;> cases h <;>
    exact ⟨_, rfl, rfl⟩

theorem resolveNegate_operand (h : resolveNegate (operandOf a) = .ok w) :
    ∃ k, a = some k ∧ k.isSigned = true ∧ w = k.width := by
  rcases a with _ | (_ | _ | _ | _) <;> cases h <;> exact ⟨_, rfl, rfl, rfl⟩

def Widens (a b : Option Scalar) : Prop := ∀ i, a = some i → ∃ j, b = some j ∧ ∀ n, i.Holds n → j.Holds n

theorem Widens.refl : Widens a a := fun i hi => ⟨i, hi, fun _ hn => hn⟩

theorem widens_merge (h : ∀ i j, a = some i → b = some j → i ≠ j → (i.join? j).isSome) :
    Widens a (Scalar.merge a b) ∧ Widens b (Scalar.merge a b) := by
  rcases a with _ | i
  · exact ⟨nofun, .refl⟩
  rcases b with _ | j
  · exact ⟨.refl, nofun⟩
  rw [Scalar.merge]
  split
  case isTrue hij => exact hij ▸ ⟨.refl, .refl⟩
  case isFalse hij =>
    obtain ⟨k, hk⟩ := Option.isSome_iff_exists.mp (h i j rfl rfl hij)
    obtain ⟨-, hik, hjk⟩ := Scalar.join?_eq_some hk
    rw [hk]
    exact ⟨fun _ h => by cases h; exact ⟨k, rfl, hik⟩, fun _ h => by cases h; exact ⟨k, rfl, hjk⟩⟩

theorem mergeBranches_operands {o : Operand} (h : mergeBranches (operandOf a) (operandOf b) = .ok o) :
    o = operandOf (Scalar.merge a b) ∧ Widens a (Scalar.merge a b) ∧ Widens b (Scalar.merge a b) := by
  constructor
  · rcases a with _ | (_ | _ | _ | _) <;> rcases b with _ | (_ | _ | _ | _) <;> cases h <;> rfl
  · refine widens_merge fun i j hi hj hij => ?_
    subst hi hj
    cases i <;> cases j <;> cases h <;> first | rfl | exact absurd rfl hij

def Scalar.number : Scalar → Scalar
  | .bool => .i32
  | k => k

theorem Scalar.Holds.number {n : Int} (h : k.Holds n) : k.number.Holds n := by
  cases k with
  | i32 | i64 | u64 => exact h
  | bool => rcases h with rfl | rfl <;> exact ⟨by decide, by decide⟩

theorem Scalar.number_ne_bool (k : Scalar) : k.number ≠ .bool := by cases k <;> exact nofun

theorem Scalar.width_number (k : Scalar) : k.number.width = k.width := by cases k <;> rfl

theorem resolveComparison_operands (h : resolveComparison (operandOf a) (operandOf b) = .ok w) :
    ∃ l r k, a = some l ∧ b = some r ∧ l.number.join? r.number = some k ∧ w = k.width := by
  rcases a with _ | (_ | _ | _ | _) <;> rcases b with _ | (_ | _ | _ | _) <;> cases h <;>
    exact ⟨_, _, _, rfl, rfl, rfl, rfl⟩

theorem combine_operands (hk : k ≠ .bool)
    (h : (OperatorFamily.builtin name).combine k.width.kind (operandOf b).kind = .ok w) :
    ∃ k', Scalar.join (some k) b = some k' ∧ w = k'.width := by
  rcases k with _ | _ | _ | _ <;> rcases b with _ | (_ | _ | _ | _) <;>
    first
    | contradiction
    | cases h; exact ⟨_, rfl, rfl⟩

theorem combineOperands_operands {r : Option Width}
    (hk : k ≠ .bool) (h : combineOperands (.builtin name) (some k.width) (os.map operandOf) = .ok r) :
    ∃ k', os.foldl Scalar.join (some k) = some k' ∧ r = some k'.width := by
  induction os generalizing k with
  | nil =>
    cases h
    exact ⟨k, rfl, rfl⟩
  | cons o os ih =>
    have hvalue : operandOf o = .value (operandOf o).kind := by cases o <;> rfl
    rw [List.map_cons, hvalue] at h
    obtain ⟨w, hw, h₁⟩ := except_bind_eq_ok.mp h
    obtain ⟨k', hjoin, rfl⟩ := combine_operands hk hw
    rw [List.foldl_cons, hjoin]
    refine ih ?_ h₁
    cases o with
    | none => exact nomatch hjoin
    | some o => exact (Scalar.join?_eq_some hjoin).1

/-- The width of a function of several numbers. -/
theorem resolveMath_operands
    (h : resolveMath name (os.map operandOf) = .ok w) : ∃ k, Scalar.joinAll os = some k ∧ w = k.width := by
  obtain ⟨r, hr, h₁⟩ := except_bind_eq_ok.mp h
  cases os with
  | nil =>
    cases hr
    exact nomatch h₁
  | cons o os =>
    have hvalue : operandOf o = .value (operandOf o).kind := by cases o <;> rfl
    rw [List.map_cons, hvalue] at hr
    obtain ⟨w', hw', hr'⟩ := except_bind_eq_ok.mp hr
    have hfirst : ∃ k, Scalar.join o o = some k ∧ k ≠ .bool ∧ w' = k.width := by
      rcases o with _ | (_ | _ | _ | _) <;> cases hw' <;> exact ⟨_, rfl, nofun, rfl⟩
    obtain ⟨k, hk, hne, rfl⟩ := hfirst
    obtain ⟨k', hk', rfl⟩ := combineOperands_operands hne hr'
    refine ⟨k', by rw [Scalar.joinAll, hk, hk'], ?_⟩
    obtain ⟨-, h₂⟩ := except_check_eq_ok.mp h₁
    cases h₂
    rfl

end

/-! ### Expressions -/

section
variable {T : Scalar} {Γ : Kinds} {locals : Locals} {e : Expr} {a : Term} {c : Call} {cls : BuiltinClass} {b : Builtin}

theorem IsCall.isValue (h : IsCall T Γ c cls a) : cls ≠ .ret ∧ ∀ f, cls ≠ .collection f := by
  cases h <;> exact ⟨nofun, nofun⟩

/-- A call of another builtin is no collection. -/
theorem ofLiteral?_of_builtin (hb : c.builtin? = some b) (hcls : ∀ f, b.cls ≠ .collection f) :
    BindingType.ofLiteral? [] c = .ok none := by
  have hlookup := CallOf.lookup?_of_builtin? hb
  rw [BindingType.ofLiteral?]
  have hform : BindingType.form? c.name = none := by
    unfold BindingType.form?
    split
    case h_4 => rfl
    all_goals
      rename_i hname
      rw [hname] at hlookup
      cases hlookup
      exact absurd rfl (hcls _)
  rw [hform]

theorem Typed.not_collection (h : Typed locals Γ) (hl : locals.lookup x = some l) :
    l.type.shape.isCollection = false ∧ l.isArguments = false ∧ l.collection? = none := by
  obtain ⟨-, -, hshape, -⟩ := h.lookup hl
  simp [Shape.isCollection, Local.isArguments, Local.collection?, hshape]

theorem IsTerm.not_arguments (h : IsTerm T Γ e a) (hΓ : Typed locals Γ) : isArguments locals e = false := by
  cases h with
  | @name _ _ x =>
    rw [isArguments]
    cases hl : locals.lookup x with
    | none => rfl
    | some l => exact (hΓ.not_collection hl).2.1
  | int32 | int64 | uint64 | bool | call => rfl

theorem IsTerm.not_collection (h : IsTerm T Γ e a) (hΓ : Typed locals Γ) : collection? locals e = .ok none := by
  cases h with
  | @name _ _ x =>
    rw [collection?]
    cases hl : locals.lookup x with
    | none => rfl
    | some l => exact congrArg Except.ok (hΓ.not_collection hl).2.2
  | int32 | int64 | uint64 | bool => rfl
  | call plain builtin h => exact ofLiteral?_of_builtin builtin h.isValue.2

theorem IsTerm.isBinding (h : IsTerm T Γ e a) : e.isBinding = false := by
  cases h with
  | int32 | int64 | uint64 | bool | name => rfl
  | call plain => exact plain

theorem IsTerm.not_return (h : IsTerm T Γ e a) : e.isCallTo "return" = false := by
  cases h with
  | int32 | int64 | uint64 | bool | name => rfl
  | @call _ _ c b _ plain builtin h =>
    have hname : c.name ≠ "return" := fun hname => by
      have hlookup := CallOf.lookup?_of_builtin? builtin
      rw [hname] at hlookup
      cases hlookup
      exact h.isValue.1 rfl
    simp [Expr.isCallTo, hname]

theorem IsReturn.isReturn (h : IsReturn T Γ e a) : e.isBinding = false ∧ e.isCallTo "return" = true := by
  cases h with
  | call plain ret =>
    rw [Expr.isCallTo, plain, ret]
    simp only [CallOf.isPlain, Bool.and_eq_true, Bool.not_eq_true'] at plain
    exact ⟨plain.1, rfl⟩

theorem IsTerm.boundName? (h : IsTerm T Γ e a) : e.boundName? = none := by
  cases h with
  | int32 | int64 | uint64 | bool | name => rfl
  | call plain => simp [Expr.boundName?, plain]

/-- A statement of the fragment either declares nothing, or it is a binding without a declared type. -/
theorem IsStmt.declares {s : Stmt} (h : IsStmt T Γ e s) :
    e.boundName? = none ∧ s.scope Γ = Γ ∨
      ∃ ts c init a, e = .call ts c ∧ s = .bind c.name a ∧ c.isBinding = true ∧
        (∀ t ∈ ts, t.name ∈ BindingType.qualifiers) ∧ c.args.head? = some init ∧ IsTerm T Γ init a := by
  cases h with
  | drop h => exact .inl ⟨h.boundName?, rfl⟩
  | bind binding untyped args he => exact .inr ⟨_, _, _, _, rfl, rfl, binding, untyped, args, he⟩
  | ret h =>
    cases h with
    | call plain =>
      simp only [CallOf.isPlain, Bool.and_eq_true, Bool.not_eq_true'] at plain
      exact .inl ⟨by simp [Expr.boundName?, plain.1], rfl⟩
  | @control _ _ _ b _ plain builtin h =>
    refine .inl ⟨by simp [Expr.boundName?, plain], ?_⟩
    generalize b.cls = cls at h
    cases h <;> rfl

theorem Typed.operand (hΓ : Typed locals Γ) (hl : locals.lookup x = some l) : l.operand = operandOf (Γ.lookup x) := by
  obtain ⟨k, hk, hshape, hkind⟩ := hΓ.lookup hl
  rw [Local.operand, hshape, hkind, hk]
  rfl

end

/-! ### Inference -/

def Inferrer.Sound (T : Scalar) (I : Inferrer) : Prop :=
  ∀ {site : Site} {locals : Locals} {Γ : Kinds} {e : Expr} {a : Term} {cache cache' : ReturnCache} {o : Operand},
    Typed locals Γ → IsTerm T Γ e a → (I.operand site locals e).run cache = some (.ok o, cache') →
      o = operandOf (a.kind? Γ)

section
variable {T : Scalar} {scope : Scope} {I : Inferrer} {site : Site} {locals : Locals} {Γ : Kinds}
  {cache cache' : ReturnCache} {o : Operand} (hI : Inferrer.Sound T I) (hΓ : Typed locals Γ)

include hI hΓ in
/-- The local of a binding without a declared type is of the kind of its initial value. -/
theorem inferLocal_kind {init : Expr}
    (untyped : ∀ t ∈ ts, t.name ∈ BindingType.qualifiers) (he : IsTerm T Γ init a)
    (h : (inferLocal scope I site locals (.call ts c) (some init)).run cache = some (.ok l, cache')) :
    ∃ k, a.kind? Γ = some k ∧ l.type.shape = .value ∧ l.type.kind = k.kind := by
  have hnone : BindingType.declared? scope [] ts = .ok none := by
    have hfind : ts.find? (fun t => !BindingType.qualifiers.contains t.name) = none :=
      List.find?_eq_none.mpr fun t ht => by simpa using untyped t ht
    rw [BindingType.declared?, hfind]
  obtain ⟨type?, c₁, htype, h₁⟩ := run_bind_eq_ok.mp h
  obtain ⟨htype, -⟩ := run_lift_eq_ok.mp htype
  cases hnone.symm.trans htype
  simp only [he.not_arguments hΓ] at h₁
  obtain ⟨collection, c₂, hcollection, h₂⟩ := run_bind_eq_ok.mp h₁
  obtain ⟨hcollection, -⟩ := run_lift_eq_ok.mp hcollection
  cases (he.not_collection hΓ).symm.trans hcollection
  obtain ⟨operand, c₃, hoperand, h₃⟩ := run_bind_eq_ok.mp h₂
  cases hI hΓ he hoperand
  cases hk : a.kind? Γ with
  | none =>
    rw [hk] at h₃
    exact absurd h₃ run_throw_ne_ok
  | some k =>
    rw [hk] at h₃
    refine ⟨k, rfl, ?_⟩
    cases k <;> obtain ⟨rfl, -⟩ := run_pure_eq_ok.mp h₃ <;> exact ⟨rfl, rfl⟩

/-- The locals after the declarations among some statements. -/
theorem inferLocals_typed (hI : Inferrer.Sound T I) {ss : List Stmt} {locals' : Locals} (hs : AreStmts T Γ es ss)
    (hΓ : Typed locals Γ) (h : (inferLocals scope I site locals es).run cache = some (.ok locals', cache')) :
    Typed locals' (Stmt.scopeAll Γ ss) := by
  induction es generalizing locals Γ ss cache with
  | nil =>
    cases hs
    obtain ⟨rfl, -⟩ := run_pure_eq_ok.mp h
    exact hΓ
  | cons e es ih =>
    cases hs with
    | @cons _ _ s _ ss hs hss =>
      rw [inferLocals] at h
      rw [Stmt.scopeAll]
      rcases hs.declares with ⟨hnone, hscope⟩ | ⟨ts, c, init, a, rfl, rfl, binding, untyped, args, he⟩
      · rw [hnone] at h
        rw [hscope] at hss ⊢
        exact ih hss hΓ h
      · have hname : (Expr.call ts c).boundName? = some c.name := by simp [Expr.boundName?, binding]
        have hinit : (Expr.call ts c).initial? = some init := by simp [Expr.initial?, binding, args]
        rw [hname] at h
        obtain ⟨l, c₁, hl, h₁⟩ := run_bind_eq_ok.mp h
        rw [hinit] at hl
        obtain ⟨k, hk, hshape, hkind⟩ := inferLocal_kind hI hΓ untyped he hl
        have hscope : Stmt.scope Γ (.bind c.name a) = (c.name, k) :: Γ := by
          rw [Stmt.scope, hk]
          rfl
        rw [hscope] at hss ⊢
        exact ih hss (.cons hshape hkind hΓ) h₁

include hI hΓ

theorem inferBlock_kind {b : Body} (hb : IsBody T Γ es b)
    (h : (inferBlock scope I site locals es).run cache = some (.ok o, cache')) : o = operandOf (b.kind? Γ) := by
  cases hb with
  | value hs he =>
    rw [inferBlock, List.getLast?_concat, List.dropLast_concat] at h
    obtain ⟨inner, c₁, hinner, h₁⟩ := run_bind_eq_ok.mp h
    simp only [he.isBinding, he.not_return] at h₁
    exact hI (inferLocals_typed hI hs hΓ hinner) he h₁
  | ret hs he =>
    rw [inferBlock, List.getLast?_concat, List.dropLast_concat] at h
    obtain ⟨inner, c₁, hinner, h₁⟩ := run_bind_eq_ok.mp h
    simp only [he.isReturn] at h₁
    obtain ⟨rfl, -⟩ := run_pure_eq_ok.mp h₁
    rfl

theorem inferIf_kind {cond yes no : Expr} {ys ns : List Expr}
    {y n : Body} (args : c.args = [cond, yes, no]) (hyes : yes.body? = some ys) (hno : no.body? = some ns)
    (hy : IsBody T Γ ys y) (hn : IsBody T Γ ns n)
    (h : (inferIf scope I site locals c).run cache = some (.ok o, cache')) :
    o = operandOf (Scalar.merge (y.kind? Γ) (n.kind? Γ)) ∧ Widens (y.kind? Γ) (Scalar.merge (y.kind? Γ) (n.kind? Γ)) ∧
      Widens (n.kind? Γ) (Scalar.merge (y.kind? Γ) (n.kind? Γ)) := by
  obtain ⟨os, c₁, hos, h₁⟩ := run_bind_eq_ok.mp h
  simp only [args, List.drop_succ_cons, List.drop_zero, inferBranches, hyes, hno] at hos
  obtain ⟨o₁, c₂, ho₁, hos₁⟩ := run_bind_eq_ok.mp hos
  obtain ⟨os₂, c₃, hos₂, hos₃⟩ := run_bind_eq_ok.mp hos₁
  obtain ⟨o₂, c₄, ho₂, hos₄⟩ := run_bind_eq_ok.mp hos₂
  obtain ⟨_, c₅, hnil, hos₅⟩ := run_bind_eq_ok.mp hos₄
  obtain ⟨rfl, -⟩ := run_pure_eq_ok.mp hnil
  obtain ⟨rfl, -⟩ := run_pure_eq_ok.mp hos₅
  obtain ⟨rfl, -⟩ := run_pure_eq_ok.mp hos₃
  obtain ⟨hmerge, -⟩ := run_lift_eq_ok.mp h₁
  cases inferBlock_kind hI hΓ hy ho₁
  cases inferBlock_kind hI hΓ hn ho₂
  exact mergeBranches_operands hmerge

theorem inferArgs_kinds {as : List Term} (hs : AreTerms T Γ es as) {os : List Operand}
    (h : (es.mapM (I.operand site locals)).run cache = some (.ok os, cache')) : os = (Term.kinds Γ as).map operandOf := by
  induction es generalizing as cache cache' os with
  | nil =>
    cases hs
    obtain ⟨rfl, -⟩ := run_pure_eq_ok.mp h
    rfl
  | cons e es ih =>
    cases hs with
    | cons he hes =>
      rw [List.mapM_cons] at h
      obtain ⟨o, c₁, ho, h₁⟩ := run_bind_eq_ok.mp h
      obtain ⟨os', c₂, hos, h₂⟩ := run_bind_eq_ok.mp h₁
      obtain ⟨rfl, -⟩ := run_pure_eq_ok.mp h₂
      rw [hI hΓ he ho, ih hes hos]
      rfl

omit hI hΓ in
theorem argument_inv (args : c.args[i]? = some e) {f : Expr → Infer β}
    (h : (do f (← c.argument i) : Infer β).run cache = some (.ok b, cache')) :
    ∃ cache₁, (f e).run cache₁ = some (.ok b, cache') := by
  obtain ⟨e', c₁, harg, h₁⟩ := run_bind_eq_ok.mp h
  obtain ⟨harg, -⟩ := run_lift_eq_ok.mp harg
  rw [CallOf.argument, args] at harg
  cases harg
  exact ⟨c₁, h₁⟩

theorem inferArgument_inv (args : c.args[i]? = some e) (he : IsTerm T Γ e a) {f : Operand → Infer β}
    (h : (do f (← I.operand site locals (← c.argument i)) : Infer β).run cache = some (.ok b, cache')) :
    ∃ cache₁, (f (operandOf (a.kind? Γ))).run cache₁ = some (.ok b, cache') := by
  obtain ⟨c₁, h₁⟩ := argument_inv args h
  obtain ⟨o, c₂, ho, h₂⟩ := run_bind_eq_ok.mp h₁
  cases hI hΓ he ho
  exact ⟨c₂, h₂⟩

/-- The operand of a name that is changed. -/
theorem inferTarget_kind (h : (match reference? locals (.name ts x) with
      | some l => (return .value l.type.kind : Infer Operand)
      | none => I.operand site locals (.name ts x)).run cache = some (.ok o, cache')) : o = operandOf (Γ.lookup x) := by
  have hnone : reference? locals (.name ts x) = none := by
    rw [reference?]
    cases hl : locals.lookup x with
    | none => rfl
    | some l =>
      obtain ⟨-, -, hshape, -⟩ := hΓ.lookup hl
      simp [hshape]
  rw [hnone] at h
  exact hI hΓ (a := .name x) .name h

theorem inferBuiltin_kind {cls : BuiltinClass} (hc : IsCall T Γ c cls a)
    (h : (inferBuiltin scope I site locals c cls).run cache = some (.ok o, cache')) :
    o = operandOf (a.kind? Γ) := by
  cases hc with
  | arithmetic args hl hr =>
    obtain ⟨c₁, h₁⟩ := inferArgument_inv hI hΓ (by rw [args]; rfl) hl h
    obtain ⟨c₂, h₂⟩ := inferArgument_inv hI hΓ (by rw [args]; rfl) hr h₁
    obtain ⟨res, c₃, hres, h₃⟩ := run_bind_eq_ok.mp h₂
    obtain ⟨rfl, -⟩ := run_pure_eq_ok.mp h₃
    obtain ⟨k, hk, rfl⟩ := resolve_operands (run_lift_eq_ok.mp hres).1
    obtain ⟨-, -, -, -, hne, -⟩ := Scalar.join_eq_some hk
    rw [Term.kind?, hk, ArithmeticResolution.result, Scalar.kind_width hne]
    rfl
  | negate args he =>
    obtain ⟨c₁, h₁⟩ := inferArgument_inv hI hΓ (by rw [args]; rfl) he h
    obtain ⟨w, c₂, hw, h₂⟩ := run_bind_eq_ok.mp h₁
    obtain ⟨rfl, -⟩ := run_pure_eq_ok.mp h₂
    obtain ⟨k, hk, hsigned, rfl⟩ := resolveNegate_operand (run_lift_eq_ok.mp hw).1
    rw [Term.kind?, hk, Option.filter_some_pos hsigned, Scalar.kind_width (fun hk => by subst hk; cases hsigned)]
    rfl
  | comparison | conjunction | disjunction | not =>
    obtain ⟨rfl, -⟩ := run_pure_eq_ok.mp h
    rfl
  | selection hs =>
    obtain ⟨os, c₁, hos, h₁⟩ := run_bind_eq_ok.mp h
    obtain ⟨w, c₂, hw, h₂⟩ := run_bind_eq_ok.mp h₁
    obtain ⟨rfl, -⟩ := run_pure_eq_ok.mp h₂
    cases inferArgs_kinds hI hΓ hs hos
    obtain ⟨k, hk, rfl⟩ := resolveMath_operands (run_lift_eq_ok.mp hw).1
    rw [Term.kind?, hk, Scalar.kind_width (Scalar.joinAll_eq_some hk).1]
    rfl
  | convert args target wide he =>
    obtain ⟨k, c₁, hk, h₁⟩ := run_bind_eq_ok.mp h
    obtain ⟨rfl, -⟩ := run_pure_eq_ok.mp h₁
    cases target.symm.trans (run_lift_eq_ok.mp hk).1
    rfl
  | assign args | step args =>
    obtain ⟨c₁, h₁⟩ := argument_inv (by rw [args]; rfl) h
    exact inferTarget_kind hI hΓ h₁
  | ifElse args he hyes hno hy hn => exact (inferIf_kind hI hΓ args hyes hno hy hn h).1
  | block body hb =>
    simp only [inferBuiltin, body] at h
    exact inferBlock_kind hI hΓ hb h

theorem inferOperand_kind (he : IsTerm T Γ e a)
    (h : (inferOperand scope I site locals e).run cache = some (.ok o, cache')) : o = operandOf (a.kind? Γ) := by
  cases he with
  | int32 | int64 | uint64 | bool =>
    obtain ⟨rfl, -⟩ := run_pure_eq_ok.mp h
    rfl
  | name =>
    obtain ⟨l, c₁, hl, h₁⟩ := run_bind_eq_ok.mp h
    obtain ⟨rfl, -⟩ := run_pure_eq_ok.mp h₁
    exact hΓ.operand (lookup_of_readable (run_lift_eq_ok.mp hl).1)
  | call plain builtin hc =>
    simp only [inferOperand, plain, builtin] at h
    exact inferBuiltin_kind hI hΓ hc h

omit hI hΓ in
/-- Inference gives the kinds of terms, to any depth. -/
theorem Inferrer.sound_atDepth (T : Scalar) (scope : Scope) (n : Nat) : Inferrer.Sound T (.atDepth scope n) := by
  induction n with
  | zero => exact fun _ _ h => nomatch h
  | succ n ih => exact fun hΓ he h => inferOperand_kind ih hΓ he h

end
end FlatCode.Source
