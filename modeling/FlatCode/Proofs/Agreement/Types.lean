import FlatCode.Proofs.Agreement.Basic

/-! Types where lowering reads them again. Lowering knows no template parameters, and it tells the types of bindings anew
    wherever a definition is expanded; in a regular program it comes to the types of the check. -/

namespace FlatCode
open Stateful

/-! ### Kinds that are known -/

variable {op : ArithmeticOp} {k : Kind} {operands : List Operand} {n : Nat} {a b o : Operand} {f name : String}

theorem Kind.ne_unknown_of_ofTypeName? (h : ofTypeName? name = some k) : k ≠ .unknown := by
  unfold ofTypeName? at h
  split at h <;> cases h <;> decide

theorem Kind.ofLiteral_ne_unknown (l : Literal) : Kind.ofLiteral l ≠ .unknown := by
  unfold ofLiteral
  split <;> decide

theorem Width.kind_ne_unknown (w : Width) : w.kind ≠ .unknown := by
  cases w <;> decide

theorem Operand.ne_unknown_of_target (h : o.target ≠ .unknown) : o ≠ .unknown := by
  rintro rfl
  exact h rfl

theorem Operand.kind_ne_unknown_of_target (h : o.target ≠ .unknown) : o.kind ≠ .unknown := by
  cases o with
  | value k => exact h
  | pointer k => exact nofun

namespace BindingType

structure Settled (t : BindingType) : Prop where
  kind : t.kind ≠ .unknown
  key : t.shape ≠ .map → t.key = .unknown
  mapKey : t.shape = .map → t.key ≠ .unknown
  struct : t.shape.isCollection = true → t.struct = none

variable {t type u : BindingType} {form : CollectionForm} {k : Kind} {args : List String} {ts : List Transform}
  {o : Operand} {struct : Option String} {name : String}

theorem Settled.ext (ht : t.Settled) (hu : u.Settled) (hcollection : t.shape.isCollection = true)
    (hshape : t.shape = u.shape) (hkind : t.kind = u.kind) (hkey : t.shape = .map → t.key = u.key) : t = u := by
  obtain ⟨shape, kind, key, struct⟩ := t
  obtain ⟨shape', kind', key', struct'⟩ := u
  obtain rfl : shape = shape' := hshape
  obtain rfl : kind = kind' := hkind
  obtain rfl : struct = none := ht.struct hcollection
  obtain rfl : struct' = none := hu.struct hcollection
  by_cases hmap : shape = .map
  · obtain rfl : key = key' := hkey hmap
    rfl
  · obtain rfl : key = .unknown := ht.key hmap
    obtain rfl : key' = .unknown := hu.key hmap
    rfl

theorem settled_ofOperand (h : o.target ≠ .unknown) : (ofOperand o struct).Settled := by
  refine ⟨h, fun _ => rfl, fun hmap => ?_, fun hcollection => ?_⟩
  · simp only [ofOperand] at hmap
    split at hmap <;> exact nomatch hmap
  · simp only [ofOperand] at hcollection
    split at hcollection <;> exact nomatch hcollection

theorem settled_scalar (h : k ≠ .unknown) :
    ({ scalar k with struct } : BindingType).Settled := ⟨h, fun _ => rfl, nofun, nofun⟩

theorem parts_of_fits (hcollection : t.shape.isCollection = true) (h : Check.fits t (some u) o = true) :
    u.shape = t.shape ∧ t.kind.accepts u.kind = true ∧ t.key.accepts u.key = true := by
  unfold Check.fits at h
  split at h
  case h_1 hs | h_2 hs | h_3 hs => rw [hs] at hcollection; exact nomatch hcollection
  all_goals
    simp only [Bool.and_eq_true, beq_iff_eq] at h
    exact ⟨h.1.1, h.1.2, h.2⟩

/-- Two collections of the same layout, one of which may hold the elements of the other, are of one type. -/
theorem Settled.eq_of_sameLayout (ht : t.Settled) (hu : u.Settled) (hcollection : t.shape.isCollection = true)
    (hfits : Check.fits t (some u) o = true) (hlayout : Lower.sameLayout t u = true) : t = u := by
  have hkinds {a b : Kind} (ha : a ≠ .unknown) (hb : b ≠ .unknown) (haccepts : a.accepts b = true)
      (hwidth : a.width? = b.width?) : a = b := by
    revert ha hb haccepts hwidth
    cases a <;> cases b <;> decide
  simp only [Lower.sameLayout, Bool.and_eq_true, Bool.or_eq_true, beq_iff_eq, bne_iff_ne] at hlayout
  obtain ⟨⟨hshape, hwidth⟩, hkey⟩ := hlayout
  obtain ⟨-, hkind, hkeys⟩ := parts_of_fits hcollection hfits
  refine ht.ext hu hcollection hshape (hkinds ht.kind hu.kind hkind hwidth) fun hmap => ?_
  exact hkinds (ht.mapKey hmap) (hu.mapKey (hshape ▸ hmap)) hkeys (hkey.resolve_left fun h => h hmap)

/-! ### Types without template parameters -/

section
variable {templates : List String} {scope : Scope} {e : Error}

theorem known_of_element (h : element [] name = .ok k) : k ≠ .unknown := by
  simp only [element, List.contains_nil, Bool.false_eq_true, if_false] at h
  obtain ⟨-, -, h⟩ := except_bind_eq_ok.mp h
  split at h
  case h_1 k' hk =>
    cases h
    exact Kind.ne_unknown_of_ofTypeName? hk
  case h_2 => exact nomatch h

theorem late_of_checkSoftwareNumeric (h : checkSoftwareNumeric name = .error e) : e.isLate = true := by
  unfold checkSoftwareNumeric at h
  split at h
  · cases h
    rfl
  · exact nomatch h

theorem late_of_element (h : element templates name = .error e) : e.isLate = true := by
  unfold element at h
  split at h
  · exact nomatch h
  · rcases except_bind_eq_error.mp h with h | ⟨-, -, h⟩
    · exact late_of_checkSoftwareNumeric h
    · split at h
      · exact nomatch h
      · cases h
        rfl

theorem settled_collection (h : collection [] form name args = .ok t) : t.Settled ∧ t.shape = form.shape := by
  cases form with
  | map =>
    dsimp only [collection] at h
    split at h
    · obtain ⟨kind, hkind, h⟩ := except_bind_eq_ok.mp h
      obtain ⟨key, hkey, h⟩ := except_bind_eq_ok.mp h
      cases h
      exact ⟨⟨known_of_element hkind, fun h => absurd rfl h, fun _ => known_of_element hkey, fun _ => rfl⟩, rfl⟩
    · exact nomatch h
  | array | vector =>
    obtain ⟨name', -, h⟩ := except_bind_eq_ok.mp h
    obtain ⟨kind, hkind, h⟩ := except_bind_eq_ok.mp h
    cases h
    exact ⟨⟨known_of_element hkind, fun _ => rfl, nofun, fun _ => rfl⟩, rfl⟩

/-- Reading a type without template parameters fails late, if it can be read with some. -/
theorem late_of_firstTemplate {f g : Kind → BindingType}
    (h : (do return f (← element templates (← firstTemplate name args))) = .ok t)
    (he : (do return g (← element [] (← firstTemplate name args))) = .error e) : e.isLate = true := by
  obtain ⟨name', hname, -⟩ := except_bind_eq_ok.mp h
  rcases except_bind_eq_error.mp he with he | ⟨name'', -, he⟩
  · exact nomatch hname.symm.trans he
  · rcases except_bind_eq_error.mp he with he | ⟨kind, -, he⟩
    · exact late_of_element he
    · exact nomatch he

theorem late_of_collection (h : collection templates form name args = .ok t)
    (he : collection [] form name args = .error e) : e.isLate = true := by
  cases form with
  | map =>
    dsimp only [collection] at h he
    split at h
    · rcases except_bind_eq_error.mp he with he | ⟨kind, -, he⟩
      · exact late_of_element he
      · rcases except_bind_eq_error.mp he with he | ⟨key, -, he⟩
        · exact late_of_element he
        · exact nomatch he
    · exact nomatch h
  | array | vector => exact late_of_firstTemplate h he

theorem settled_ofLiteral? {c : Call} (h : ofLiteral? [] c = .ok (some t)) :
    t.Settled ∧ t.shape.isCollection = true := by
  obtain ⟨form, -, -, hcollection⟩ := ofLiteral?_inv h
  obtain ⟨hsettled, hshape⟩ := settled_collection hcollection
  exact ⟨hsettled, by rw [hshape]; cases form <;> rfl⟩

theorem settled_ofTransform {t : Transform} (h : ofTransform scope [] t = .ok type) : type.Settled := by
  obtain ⟨-, -, h⟩ := except_bind_eq_ok.mp h
  split at h
  case h_1 | h_2 =>
    obtain ⟨name, -, h⟩ := except_bind_eq_ok.mp h
    obtain ⟨kind, hkind, h⟩ := except_bind_eq_ok.mp h
    cases h
    exact ⟨known_of_element hkind, fun _ => rfl, nofun, nofun⟩
  case h_3 =>
    split at h
    · exact (settled_collection h).1
    · simp only [List.contains_nil, Bool.false_eq_true, if_false] at h
      split at h
      case h_1 k hk =>
        cases h
        exact settled_scalar (Kind.ne_unknown_of_ofTypeName? hk)
      case h_2 =>
        split at h
        · cases h
          exact settled_scalar nofun
        · exact nomatch h

theorem late_of_ofTransform {t : Transform} (h : ofTransform scope templates t = .ok type)
    (he : ofTransform scope [] t = .error e) : e.isLate = true := by
  obtain ⟨⟨⟩, hnumeric, h⟩ := except_bind_eq_ok.mp h
  rcases except_bind_eq_error.mp he with he | ⟨⟨⟩, -, he⟩
  · exact nomatch hnumeric.symm.trans he
  · split at h
    case h_1 hname | h_2 hname =>
      simp only [hname] at he
      rw [hname] at h
      exact late_of_firstTemplate h he
    case h_3 hpointer hreference =>
      split at he
      case h_1 hname => exact absurd hname hpointer
      case h_2 hname => exact absurd hname hreference
      case h_3 =>
        split at he
        case h_1 form hform =>
          rw [hform] at h
          exact late_of_collection h he
        case h_2 =>
          simp only [List.contains_nil, Bool.false_eq_true, if_false] at he
          split at he
          · exact nomatch he
          · split at he
            · exact nomatch he
            · cases he
              rfl

theorem settled_declared? (h : declared? scope [] ts = .ok (some t)) : t.Settled := by
  unfold declared? at h
  split at h
  case h_2 => exact nomatch h
  case h_1 transform _ =>
    cases htype : ofTransform scope [] transform with
    | error => rw [htype] at h; exact nomatch h
    | ok type =>
      rw [htype] at h
      cases h
      exact settled_ofTransform htype

theorem late_of_declared? {r : Option BindingType} (h : declared? scope templates ts = .ok r)
    (he : declared? scope [] ts = .error e) : e.isLate = true := by
  unfold declared? at h he
  split at h
  case h_2 hnone => rw [hnone] at he; exact nomatch he
  case h_1 transform hsome =>
    rw [hsome] at he
    dsimp only at he
    cases htype : ofTransform scope templates transform with
    | error => rw [htype] at h; exact nomatch h
    | ok type =>
      cases htype' : ofTransform scope [] transform with
      | ok => rw [htype'] at he; exact nomatch he
      | error e' =>
        rw [htype'] at he
        cases he
        exact late_of_ofTransform htype htype'

end
end BindingType

theorem CallOf.known_of_convertTarget {c : Call} (h : c.convertTarget = .ok k) : k ≠ .unknown := by
  obtain ⟨target, -, h⟩ := except_bind_eq_ok.mp h
  obtain ⟨-, -, h⟩ := except_bind_eq_ok.mp h
  split at h
  · exact nomatch h
  · exact nomatch h
  case h_3 hk =>
    cases h
    exact Kind.ne_unknown_of_ofTypeName? hk

/-! ### Operators -/

section
variable {family : OperatorFamily} {e : Error}

theorem late_of_width (h : family.width k = .error e) : e.isLate = true := by
  unfold OperatorFamily.width at h
  dsimp only at h
  split at h
  · split at h
    · exact nomatch h
    · cases h
      rfl
  · cases h
    rfl

theorem late_of_combine {l r : Kind} (h : family.combine l r = .error e) : e.isLate = true := by
  rcases except_bind_eq_error.mp h with h | ⟨wl, -, h⟩
  · exact late_of_width h
  · rcases except_bind_eq_error.mp h with h | ⟨wr, -, h⟩
    · exact late_of_width h
    · dsimp only at h
      split at h
      · cases h
        rfl
      · split at h
        · cases h
          rfl
        · exact nomatch h

theorem late_of_resolve (h : op.resolve a b = .error e) : e.isLate = true := by
  unfold ArithmeticOp.resolve at h
  split at h
  case h_1 | h_2 =>
    cases h
    rfl
  case h_3 =>
    split at h
    · cases h
      rfl
    · split at h
      · exact nomatch h
      · cases h
        rfl
  case h_4 l r =>
    cases hcombine : OperatorFamily.arithmetic.combine l r with
    | ok => rw [hcombine] at h; exact nomatch h
    | error =>
      rw [hcombine] at h
      cases h
      exact late_of_combine hcombine

/-- An operation on known operands has a known result. -/
theorem target_of_resolve {r : ArithmeticResolution} (h : op.resolve a b = .ok r)
    (ha : a.target ≠ .unknown) : r.result.target ≠ .unknown := by
  unfold ArithmeticOp.resolve at h
  split at h
  case h_1 | h_2 => exact nomatch h
  case h_3 =>
    split at h
    · exact nomatch h
    · split at h
      · cases h
        exact ha
      · exact nomatch h
  case h_4 l r =>
    cases hcombine : OperatorFamily.arithmetic.combine l r with
    | error => rw [hcombine] at h; exact nomatch h
    | ok w =>
      rw [hcombine] at h
      cases h
      exact w.kind_ne_unknown

theorem late_of_resolveNegate (h : resolveNegate o = .error e) : e.isLate = true := by
  unfold resolveNegate at h
  split at h
  · cases h
    rfl
  · rcases except_bind_eq_error.mp h with h | ⟨w, -, h⟩
    · exact late_of_width h
    · dsimp only at h
      split at h
      · cases h
        rfl
      · exact nomatch h

theorem negate?_of_resolveNegate {w : Width} (h : resolveNegate o = .ok w) : ∃ op, Opcode.negate? w = some op := by
  unfold resolveNegate at h
  split at h
  · exact nomatch h
  · obtain ⟨w', -, h⟩ := except_bind_eq_ok.mp h
    dsimp only at h
    split at h
    · exact nomatch h
    case isFalse hw =>
      cases h
      cases w with
      | u64 => exact absurd rfl hw
      | i32 | i64 | f32 | f64 => exact ⟨_, rfl⟩

theorem late_of_combineOperands {current : Option Width}
    (h : combineOperands family current operands = .error e) : e.isLate = true := by
  induction operands generalizing current with
  | nil => exact nomatch h
  | cons o operands ih =>
    cases o with
    | pointer =>
      cases h
      rfl
    | value k =>
      cases current with
      | none =>
        rcases except_bind_eq_error.mp h with h | ⟨w, -, h⟩
        · exact late_of_width h
        · exact ih h
      | some w =>
        rcases except_bind_eq_error.mp h with h | ⟨w, -, h⟩
        · exact late_of_combine h
        · exact ih h

theorem late_of_resolveMath (h : resolveMath name operands = .error e) : e.isLate = true := by
  rcases except_bind_eq_error.mp h with h | ⟨w, -, h⟩
  · exact late_of_combineOperands h
  · cases w with
    | none =>
      cases h
      rfl
    | some w =>
      dsimp only at h
      split at h
      · cases h
        rfl
      · exact nomatch h

end

/-! ### Numbers of arguments -/

def BuiltinClass.arity? : BuiltinClass → Option Nat
  | .conjunction | .disjunction => some 2
  | .not => some 1
  | .math f => some f.arity
  | _ => none

theorem Builtin.arity_of_lookup? {b : Builtin} (h : lookup? f = some b)
    (hn : b.cls.arity? = some n) : b = exact b.cls n := by
  unfold lookup? at h
  split at h <;> cases h <;> cases hn <;> rfl

theorem Builtin.eq_of_checkArity {b : Builtin} {count : Nat} (h : lookup? f = some b)
    (hn : b.cls.arity? = some n) (hcount : b.checkArity name count = .ok ()) : count = n := by
  rw [arity_of_lookup? h hn] at hcount
  unfold checkArity Builtin.exact at hcount
  split at hcount
  · exact nomatch hcount
  case isFalse hrange =>
    simp at hrange
    omega

end FlatCode
