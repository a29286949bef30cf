import FlatCode.Lower.Statement

/-! What is looked up in the scope of a program is a definition of the program, and no two of them stand under one
    path. What is looked up among the locals is one of them, and what is found in a call stands in it. -/

namespace FlatCode

def Definition.Distinct (definitions : List Definition) : Prop :=
  ∀ d ∈ definitions, ∀ d' ∈ definitions, d.path = d'.path → d = d'

namespace Scope

section
variable {scope : Scope} {path name home : String} {d : Definition}

theorem mem_of_at? (h : scope.at? path = some d) : d ∈ scope.definitions := List.mem_of_find?_eq_some h

theorem mem_of_get? (h : scope.get? path = some d) : d ∈ scope.definitions := by
  cases hat : scope.at? path with
  | some d' =>
    rw [Scope.get?, hat] at h
    cases h
    exact mem_of_at? hat
  | none =>
    rw [Scope.get?, hat] at h
    obtain ⟨path', -, h⟩ := Option.bind_eq_some_iff.mp h
    exact mem_of_at? h

theorem mem_of_resolve? (h : scope.resolve? name home = some d) : d ∈ scope.definitions := by
  unfold Scope.resolve? at h
  split at h
  · exact mem_of_get? h
  · cases hspace : (Path.enclosing home).findSome? fun space => scope.at? (space ++ "/" ++ name) with
    | some d' =>
      rw [hspace] at h
      cases h
      obtain ⟨space, -, hat⟩ := List.exists_of_findSome?_eq_some hspace
      exact mem_of_at? hat
    | none =>
      rw [hspace] at h
      exact mem_of_get? h

end

variable {p : Program} {scope : Scope}

theorem build_inv (h : build p = .ok scope) :
    scope.definitions = p.definitions ∧ firstRepeated? [] p.definitions = none := by
  unfold Scope.build at h
  split at h
  · exact nomatch h
  case h_2 hrepeated =>
    cases haliases : p.imports.foldlM (addImport p.definitions) [] with
    | error e => rw [haliases] at h; exact nomatch h
    | ok aliases =>
      rw [haliases] at h
      cases h
      exact ⟨rfl, hrepeated⟩

theorem definitions_of_build (h : build p = .ok scope) :
    scope.definitions = p.definitions := (build_inv h).1

theorem distinct_of_firstRepeated? {seen : List String} {definitions : List Definition}
    (h : firstRepeated? seen definitions = none) :
    Definition.Distinct definitions ∧ ∀ d ∈ definitions, d.path ∉ seen := by
  induction definitions generalizing seen with
  | nil => exact ⟨nofun, nofun⟩
  | cons d rest ih =>
    rw [firstRepeated?] at h
    split at h
    · exact nomatch h
    case isFalse hseen =>
      obtain ⟨hdistinct, hfresh⟩ := ih h
      have hne (d') (hd' : d' ∈ rest) : d'.path ≠ d.path := fun heq => hfresh d' hd' (heq ▸ List.mem_cons_self)
      refine ⟨fun a ha b hb hpath => ?_, fun a ha hmem => ?_⟩
      · rcases List.mem_cons.mp ha with rfl | ha' <;> rcases List.mem_cons.mp hb with rfl | hb'
        · rfl
        · exact absurd hpath.symm (hne b hb')
        · exact absurd hpath (hne a ha')
        · exact hdistinct a ha' b hb' hpath
      · rcases List.mem_cons.mp ha with rfl | ha
        · exact hseen (by simpa using hmem)
        · exact hfresh a ha (List.mem_cons_of_mem _ hmem)

/-- No two definitions of a scope stand under one path. -/
theorem distinct_of_build (h : build p = .ok scope) : Definition.Distinct scope.definitions := by
  obtain ⟨hdefinitions, hrepeated⟩ := build_inv h
  exact hdefinitions ▸ (distinct_of_firstRepeated? hrepeated).1

end Scope
namespace BindingType
variable {c : Call} {form : CollectionForm} {type : BindingType}

theorem lookup?_of_form? {f : String} (h : form? f = some form) :
    Builtin.lookup? f = some ⟨.collection form, 0, none⟩ := by
  unfold form? at h
  split at h <;> cases h <;> rfl

theorem ofLiteral?_inv {templates : List String} (h : ofLiteral? templates c = .ok (some type)) :
    ∃ form, form? c.name = some form ∧ c.isPlain = true ∧ collection templates form c.name c.templateArgs = .ok type := by
  unfold ofLiteral? at h
  split at h
  case h_2 => exact nomatch h
  case h_1 form hform =>
    split at h
    case isFalse => exact nomatch h
    case isTrue hplain =>
      cases hcollection : collection templates form c.name c.templateArgs with
      | error => rw [hcollection] at h; exact nomatch h
      | ok type' =>
        rw [hcollection] at h
        cases h
        exact ⟨form, hform, hplain, hcollection⟩

end BindingType

section
variable {c : Call} {b : Builtin} {e : Expr} {body : List Expr}

theorem CallOf.lookup?_of_builtin? (h : c.builtin? = some b) : Builtin.lookup? c.name = some b := by
  unfold CallOf.builtin? at h
  split at h
  · exact nomatch h
  · exact h

theorem Returns.branchBody_inv (h : branchBody e = .ok body) : isEnvelope e = true ∧ e.body? = some body := by
  unfold branchBody at h
  split at h
  case isFalse => exact nomatch h
  case isTrue henvelope =>
    cases h
    cases e with
    | literal | name => exact nomatch henvelope
    | call ts c =>
      refine ⟨henvelope, ?_⟩
      simp only [isEnvelope, Bool.and_eq_true] at henvelope
      obtain ⟨body, hbody⟩ := Option.isSome_iff_exists.mp henvelope.2
      simp [Expr.body?, Expr.call?, hbody]

theorem Lower.blockOf_inv (h : blockOf c = .ok body) : c.body = some body := by
  unfold blockOf at h
  split at h
  · cases h
    assumption
  · exact nomatch h

end

namespace Lower
variable {locals : Locals} {x : String} {l : Local}

theorem mem_of_lookup (h : locals.lookup x = some l) : (x, l) ∈ locals := by
  obtain ⟨l₁, l₂, rfl, -⟩ := List.lookup_eq_some_iff.mp h
  simp

theorem lookup_of_readable (h : readable locals x = .ok l) : locals.lookup x = some l := by
  unfold readable at h
  split at h
  · exact nomatch h
  · split at h
    · exact nomatch h
    · split at h
      · exact nomatch h
      · cases h
        assumption

theorem mutableLocal_inv {builtin : String} (h : mutableLocal locals builtin x = .ok l) :
    locals.lookup x = some l ∧ l.mutable = true := by
  unfold mutableLocal at h
  split at h
  · exact nomatch h
  · split at h
    · cases h
      exact ⟨by assumption, by assumption⟩
    · exact nomatch h

/-- The arguments of the run are bound to what already holds them. -/
theorem bindArguments_inv {init : Option Expr} (h : bindArguments locals init = .ok l) :
    l.isArguments = true ∧ ∃ x, locals.lookup x = some l := by
  unfold bindArguments at h
  split at h
  · split at h
    case h_1 hlookup =>
      split at h
      case isTrue harguments =>
        cases h
        exact ⟨harguments, _, hlookup⟩
      case isFalse => exact nomatch h
    case h_2 => exact nomatch h
  · exact nomatch h

end Lower
end FlatCode
