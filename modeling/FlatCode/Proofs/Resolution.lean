import Mathlib.Logic.Function.Iterate
import FlatCode.Proofs.Independence

/-! What a name means. The aliases of a scope are those of the children of imported namespaces, and none of them stands in
    the way of a definition. A relative name is searched from the namespace of the caller outward, and then among the
    aliases. Main result: a scope and all that is looked up in it are described by the definitions and the imports, in
    whatever order these are written (`names_of_build`). -/

namespace FlatCode
open Stateful

/-! ### Namespaces around a path -/

namespace Path

/-- `space` is the namespace of `path`, or a namespace around that one. The root, which has the empty path, is its own
    namespace. -/
def Encloses (space path : String) : Prop := ∃ n, space = parent^[n + 1] path

theorem parent_empty : parent "" = "" := by decide

theorem length_parent_lt {path : String} (h : path ≠ "") : (parent path).length < path.length := by
  have hchars : path.toList ≠ [] := fun hnil => h (String.toList_inj.mp hnil)
  have hpos : 0 < path.toList.length := List.length_pos_iff.mpr hchars
  have hdrop := (List.dropWhile_suffix (· != '/') (l := path.toList.reverse)).length_le
  rw [List.length_reverse] at hdrop
  rw [parent, String.length_ofList, List.length_reverse, List.length_drop, ← String.length_toList]
  omega

theorem enclosingReversed_eq (cs : List Char) :
    enclosingReversed cs = String.ofList ((cs.dropWhile (· != '/')).drop 1).reverse ::
      if ((cs.dropWhile (· != '/')).drop 1).isEmpty then []
      else enclosingReversed ((cs.dropWhile (· != '/')).drop 1) := by
  induction cs with
  | nil => rfl
  | cons c cs ih =>
    rw [enclosingReversed]
    by_cases h : c = '/'
    · simp [h]
    · simp only [h, if_false, List.dropWhile_cons, bne_iff_ne, ne_eq, not_false_eq_true, if_true]
      exact ih

theorem enclosing_eq (path : String) :
    enclosing path = parent path :: if parent path = "" then [] else enclosing (parent path) := by
  have hempty : ((path.toList.reverse.dropWhile (· != '/')).drop 1).isEmpty = true ↔ parent path = "" := by
    rw [List.isEmpty_iff, parent, ← String.toList_inj, String.toList_ofList]
    simp
  have hinner : enclosingReversed ((path.toList.reverse.dropWhile (· != '/')).drop 1) = enclosing (parent path) := by
    rw [enclosing, parent, String.toList_ofList, List.reverse_reverse]
  rw [enclosing, enclosingReversed_eq, hinner]
  simp only [hempty]
  rfl

theorem iterate_parent_empty (n : Nat) : parent^[n] "" = "" := Function.iterate_fixed parent_empty n

theorem encloses_parent {space path : String} :
    Encloses space path ↔ space = parent path ∨ parent path ≠ "" ∧ Encloses space (parent path) := by
  constructor
  · rintro ⟨n, rfl⟩
    rcases n with _ | n
    · exact .inl rfl
    · rw [Function.iterate_succ_apply]
      by_cases hroot : parent path = ""
      · exact .inl (by rw [hroot, iterate_parent_empty])
      · exact .inr ⟨hroot, n, rfl⟩
  · rintro (rfl | ⟨-, n, rfl⟩)
    · exact ⟨0, rfl⟩
    · exact ⟨n + 1, rfl⟩

theorem mem_enclosing {space path : String} : space ∈ enclosing path ↔ Encloses space path := by
  rw [enclosing_eq, encloses_parent, List.mem_cons]
  by_cases hroot : parent path = ""
  · simp [hroot]
  · have hlt : (parent path).length < path.length := length_parent_lt fun h => hroot (by rw [h, parent_empty])
    rw [if_neg hroot, mem_enclosing, and_iff_right hroot]
termination_by path.length

theorem Encloses.length_lt {space path : String} (h : Encloses space path) (hpath : path ≠ "") :
    space.length < path.length := by
  obtain ⟨n, rfl⟩ := h
  induction n with
  | zero => exact length_parent_lt hpath
  | succ n ih =>
    rw [Function.iterate_succ_apply']
    by_cases hroot : parent^[n + 1] path = ""
    · rwa [hroot, parent_empty, ← hroot]
    · exact Nat.lt_trans (length_parent_lt hroot) ih

/-- Namespaces are listed from the longest to the shortest. -/
theorem pairwise_enclosing (path : String) : (enclosing path).Pairwise fun a b => b.length < a.length := by
  rw [enclosing_eq]
  by_cases hroot : parent path = ""
  · simp [hroot]
  · have hlt : (parent path).length < path.length := length_parent_lt fun h => hroot (by rw [h, parent_empty])
    rw [if_neg hroot, List.pairwise_cons]
    exact ⟨fun space hspace => (mem_enclosing.mp hspace).length_lt hroot, pairwise_enclosing (parent path)⟩
termination_by path.length

theorem encloses_root (path : String) : Encloses "" path := by
  rw [encloses_parent]
  by_cases hroot : parent path = ""
  · exact .inl hroot.symm
  · have hlt : (parent path).length < path.length := length_parent_lt fun h => hroot (by rw [h, parent_empty])
    exact .inr ⟨hroot, encloses_root (parent path)⟩
termination_by path.length

/-- A search from the innermost namespace outward finds what the longest namespace has. -/
theorem findSome?_enclosing {α : Type} {f : String → Option α} {path : String} {a : α} :
    (enclosing path).findSome? f = some a ↔
      ∃ space, Encloses space path ∧ f space = some a ∧
        ∀ other, Encloses other path → (f other).isSome → other.length ≤ space.length := by
  have hsorted := pairwise_enclosing path
  rw [List.findSome?_eq_some_iff]
  constructor
  · rintro ⟨inner, space, outer, hlist, hfound, hinner⟩
    rw [hlist, List.pairwise_append, List.pairwise_cons] at hsorted
    refine ⟨space, mem_enclosing.mp (by simp [hlist]), hfound, fun other hother hsome => ?_⟩
    rw [← mem_enclosing, hlist, List.mem_append, List.mem_cons] at hother
    rcases hother with hmem | rfl | hmem
    · simp [hinner other hmem] at hsome
    · exact Nat.le_refl _
    · exact Nat.le_of_lt (hsorted.2.1.1 other hmem)
  · rintro ⟨space, hspace, hfound, hlongest⟩
    obtain ⟨inner, outer, hlist⟩ := List.append_of_mem (mem_enclosing.mpr hspace)
    rw [hlist, List.pairwise_append] at hsorted
    refine ⟨inner, space, outer, hlist, hfound, fun other hother => ?_⟩
    have hlt : space.length < other.length := hsorted.2.2 other hother space List.mem_cons_self
    have hmem : Encloses other path := mem_enclosing.mp (by simp [hlist, hother])
    rw [← Option.not_isSome_iff_eq_none]
    exact fun hsome => Nat.not_lt.mpr (hlongest other hmem hsome) hlt

end Path

/-! ### Pairs of a scope -/

def Program.Has (p : Program) (path : String) : Prop := ∃ d ∈ p.definitions, d.path = path

namespace Scope

section
variable {definitions : List Definition} {aliases aliases' : List (String × String)}

theorem invariant_of_foldlM {α β : Type} {f : β → α → Except Error β} {P : β → Prop}
    (hf : ∀ b a b', P b → f b a = .ok b' → P b') {l : List α} {b b' : β} (hP : P b) (h : l.foldlM f b = .ok b') : P b' := by
  induction l generalizing b with
  | nil =>
    cases h
    exact hP
  | cons a l ih =>
    obtain ⟨b₁, ha, hl⟩ := except_bind_eq_ok.mp h
    exact ih (hf b a b₁ hP ha) hl

def Unambiguous (aliases : List (String × String)) : Prop := (aliases.map (·.1)).Nodup

theorem unambiguous_addAlias {d : Definition} (h : Unambiguous aliases) (hok : addAlias definitions aliases d = .ok aliases') :
    Unambiguous aliases' := by
  unfold addAlias at hok
  dsimp only at hok
  split at hok
  · exact nomatch hok
  · split at hok
    case h_1 hnone =>
      cases hok
      refine List.nodup_cons.mpr ⟨fun hmem => ?_, h⟩
      obtain ⟨pair, hpair, hroot⟩ := List.mem_map.mp hmem
      exact absurd hroot.symm (by simpa using List.lookup_eq_none_iff.mp hnone pair hpair)
    case h_2 =>
      split at hok
      · cases hok
        exact h
      · exact nomatch hok

theorem unambiguous_addImport {text : String} (h : Unambiguous aliases)
    (hok : addImport definitions aliases text = .ok aliases') : Unambiguous aliases' := by
  unfold addImport at hok
  dsimp only at hok
  split at hok
  · exact nomatch hok
  · exact invariant_of_foldlM (fun _ _ _ => unambiguous_addAlias) h hok

theorem Unambiguous.mem_iff (h : Unambiguous aliases) {root path : String} :
    (root, path) ∈ aliases ↔ aliases.lookup root = some path := by
  induction aliases with
  | nil => simp
  | cons pair rest ih =>
    obtain ⟨hfresh, hrest⟩ := List.nodup_cons.mp h
    rw [List.mem_cons, List.lookup_cons]
    by_cases hroot : root = pair.1
    · have hnot : (root, path) ∉ rest := fun hmem => hfresh (List.mem_map.mpr ⟨_, hmem, hroot⟩)
      simp [hroot, Prod.ext_iff, eq_comm]
      exact fun hmem => absurd (hroot ▸ hmem) hnot
    · simp only [beq_eq_false_iff_ne.mpr hroot, ih hrest, Prod.ext_iff, hroot, false_and, false_or]

end

section
variable {p : Program} {scope : Scope} (h : build p = .ok scope)
include h

theorem unambiguous_of_build : Unambiguous scope.aliases := by
  unfold build at h
  split at h
  · exact nomatch h
  · cases hfold : p.imports.foldlM (addImport p.definitions) [] with
    | error e =>
      rw [hfold] at h
      exact nomatch h
    | ok aliases =>
      rw [hfold] at h
      cases h
      exact invariant_of_foldlM (b := []) (fun _ _ _ => unambiguous_addImport) List.nodup_nil hfold

/-- The aliases are those of the children of imported namespaces. -/
theorem mem_aliases_iff {root path : String} :
    (root, path) ∈ scope.aliases ↔ ∃ d, p.Imports d ∧ root = Path.atRoot (Path.last d.path) ∧ path = d.path := by
  rw [(unambiguous_of_build h).mem_iff]
  exact (buildable_of_build h).2 root path

theorem not_has_of_mem_aliases {root path : String} (hmem : (root, path) ∈ scope.aliases) : ¬p.Has root := by
  rintro ⟨d, hd, hroot⟩
  obtain ⟨e, he, rfl, -⟩ := (mem_aliases_iff h).mp hmem
  exact (buildable_of_build h).1.free e he d hd hroot

theorem at?_eq_some_iff_of_build {path : String} {d : Definition} :
    scope.at? path = some d ↔ d ∈ p.definitions ∧ d.path = path := by
  rw [at?_eq_some_iff (distinct_of_build h), definitions_of_build h]

/-- What stands at a path is the definition there, or what the alias there stands for. -/
theorem get?_eq_some_iff {path : String} {d : Definition} :
    scope.get? path = some d ↔ d ∈ p.definitions ∧ (d.path = path ∨ (path, d.path) ∈ scope.aliases) := by
  have hat {path : String} {d : Definition} : scope.at? path = some d ↔ d ∈ p.definitions ∧ d.path = path :=
    at?_eq_some_iff_of_build h
  have halias {target : String} : (path, target) ∈ scope.aliases ↔ scope.aliases.lookup path = some target :=
    (unambiguous_of_build h).mem_iff
  rw [get?]
  cases hpath : scope.at? path with
  | some e =>
    obtain ⟨he, hepath⟩ := hat.mp hpath
    show some e = some d ↔ _
    rw [← hpath, hat]
    constructor
    · rintro ⟨hd, hdpath⟩
      exact ⟨hd, .inl hdpath⟩
    · rintro ⟨hd, hdpath | hmem⟩
      · exact ⟨hd, hdpath⟩
      · exact absurd ⟨e, he, hepath⟩ (not_has_of_mem_aliases h hmem)
  | none =>
    have hnot (e : Definition) (he : e ∈ p.definitions) : e.path ≠ path := by
      intro hepath
      cases hpath.symm.trans (hat.mpr ⟨he, hepath⟩)
    show (scope.aliases.lookup path).bind scope.at? = some d ↔ _
    simp only [Option.bind_eq_some_iff, hat, ← halias]
    constructor
    · rintro ⟨target, hmem, hd, rfl⟩
      exact ⟨hd, .inr hmem⟩
    · rintro ⟨hd, hdpath | hmem⟩
      · exact absurd hdpath (hnot d hd)
      · exact ⟨_, hmem, hd, rfl⟩

/-- Some definition is found at a path if one stands there. -/
theorem isSome_at?_iff {path : String} : (scope.at? path).isSome ↔ p.Has path := by
  simp only [Option.isSome_iff_exists, at?_eq_some_iff_of_build h, Program.Has]

/-- Where no definition stands at the root, only an alias can. -/
theorem get?_atRoot {name : String} {d : Definition} (hfree : ¬p.Has (Path.atRoot name)) :
    scope.get? (Path.atRoot name) = some d ↔ d ∈ p.definitions ∧ (Path.atRoot name, d.path) ∈ scope.aliases := by
  rw [get?_eq_some_iff h]
  constructor
  · rintro ⟨hd, hpath | hmem⟩
    · exact absurd ⟨d, hd, hpath⟩ hfree
    · exact ⟨hd, hmem⟩
  · rintro ⟨hd, hmem⟩
    exact ⟨hd, .inr hmem⟩

/-- A relative name means the definition in the longest enclosing namespace that has one, else what its alias stands for. -/
theorem resolve?_relative {name home : String} {d : Definition} (hname : Path.isAbsolute name = false) :
    scope.resolve? name home = some d ↔ d ∈ p.definitions ∧
      ((∃ space, Path.Encloses space home ∧ d.path = space ++ "/" ++ name ∧
          ∀ other, Path.Encloses other home → p.Has (other ++ "/" ++ name) → other.length ≤ space.length) ∨
        (∀ space, Path.Encloses space home → ¬p.Has (space ++ "/" ++ name)) ∧
          (Path.atRoot name, d.path) ∈ scope.aliases) := by
  have hsearch {d : Definition} := @Path.findSome?_enclosing _ (fun space => scope.at? (space ++ "/" ++ name)) home d
  simp only [at?_eq_some_iff_of_build h, isSome_at?_iff h] at hsearch
  rw [resolve?, hname, if_neg Bool.false_ne_true]
  cases hfound : (Path.enclosing home).findSome? fun space => scope.at? (space ++ "/" ++ name) with
  | some e =>
    obtain ⟨space, hspace, he, -⟩ := hsearch.mp hfound
    show some e = some d ↔ _
    rw [← hfound, hsearch]
    constructor
    · rintro ⟨space, hspace, ⟨hd, hpath⟩, hlongest⟩
      exact ⟨hd, .inl ⟨space, hspace, hpath, hlongest⟩⟩
    · rintro ⟨hd, ⟨space, hspace, hpath, hlongest⟩ | ⟨hnone, -⟩⟩
      · exact ⟨space, hspace, ⟨hd, hpath⟩, hlongest⟩
      · exact absurd ⟨e, he⟩ (hnone space hspace)
  | none =>
    have hnone (space : String) (hspace : Path.Encloses space home) : ¬p.Has (space ++ "/" ++ name) := by
      rw [← isSome_at?_iff h, List.findSome?_eq_none_iff.mp hfound space (Path.mem_enclosing.mpr hspace)]
      exact Bool.false_ne_true
    show scope.get? (Path.atRoot name) = some d ↔ _
    -- The root is one of the namespaces, so only the alias is left.
    have hroot : ¬p.Has (Path.atRoot name) := by simpa [Path.atRoot] using hnone "" (Path.encloses_root home)
    rw [get?_atRoot h hroot]
    constructor
    · rintro ⟨hd, hmem⟩
      exact ⟨hd, .inr ⟨hnone, hmem⟩⟩
    · rintro ⟨hd, ⟨space, hspace, hpath, -⟩ | ⟨-, hmem⟩⟩
      · exact absurd ⟨d, hd, hpath⟩ (hnone space hspace)
      · exact ⟨hd, hmem⟩

theorem resolve?_absolute {name home : String} {d : Definition} (hname : Path.isAbsolute name = true) :
    scope.resolve? name home = some d ↔
      d ∈ p.definitions ∧ (d.path = name ∨ (name, d.path) ∈ scope.aliases) := by
  rw [resolve?, if_pos hname, get?_eq_some_iff h]

end

/-! ### Scopes of programs -/

/-- Whatever is looked up in one scope is found in the other. -/
theorem Agree.lookups {scope scope' : Scope} (h : Agree (fun _ => True) scope scope') (name home : String) :
    scope.resolve? name home = scope'.resolve? name home ∧ scope.get? name = scope'.get? name ∧
      scope.struct? name = scope'.struct? name := by
  refine ⟨h.resolve_eq trivial home, h.get_eq name trivial, ?_⟩
  rw [struct?, struct?, h.resolve_eq trivial]

/-- Scopes and what is looked up in them. If a program has a scope, no alias is the path of a definition; the aliases are
    those of the children of imported namespaces, and no two definitions share one; an absolute name means the definition
    or the target of the alias at that path; and a relative name means the definition in the longest enclosing
    namespace that has one, or else the target of the alias at the root. With the definitions and the imports in another
    order there is a scope, too, or there is none either, and everything is found in it as before. -/
theorem names_of_build (p : Program) :
    (∀ scope, build p = .ok scope →
      (∀ root path, (root, path) ∈ scope.aliases → ¬p.Has root) ∧
      (∀ root path, (root, path) ∈ scope.aliases ↔ ∃ d ∈ p.definitions,
        Path.parent d.path ∈ p.imports.map Path.ofImport ∧ root = "/" ++ Path.last d.path ∧ path = d.path) ∧
      (∀ d ∈ p.definitions, ∀ e ∈ p.definitions, ∀ root,
        (root, d.path) ∈ scope.aliases → (root, e.path) ∈ scope.aliases → d = e) ∧
      ∀ name home d,
        (Path.isAbsolute name = true → (scope.resolve? name home = some d ↔
          d ∈ p.definitions ∧ (d.path = name ∨ (name, d.path) ∈ scope.aliases))) ∧
        (Path.isAbsolute name = false → (scope.resolve? name home = some d ↔ d ∈ p.definitions ∧
          ((∃ space, Path.Encloses space home ∧ d.path = space ++ "/" ++ name ∧
              ∀ other, Path.Encloses other home → p.Has (other ++ "/" ++ name) → other.length ≤ space.length) ∨
            (∀ space, Path.Encloses space home → ¬p.Has (space ++ "/" ++ name)) ∧
              ("/" ++ name, d.path) ∈ scope.aliases)))) ∧
    ∀ definitions imports, definitions.Perm p.definitions → imports.Perm p.imports →
      ((∃ scope, build p = .ok scope) ↔ ∃ scope', build { p with definitions, imports } = .ok scope') ∧
      ∀ scope scope', build p = .ok scope → build { p with definitions, imports } = .ok scope' → ∀ name home,
        scope.resolve? name home = scope'.resolve? name home ∧ scope.get? name = scope'.get? name ∧
          scope.struct? name = scope'.struct? name := by
  refine ⟨fun scope h => ⟨fun root path => not_has_of_mem_aliases h, fun root path => ?_, ?_, fun name home d =>
    ⟨resolve?_absolute h, resolve?_relative h⟩⟩, fun definitions imports hdefinitions himports => ?_⟩
  · rw [mem_aliases_iff h]
    constructor
    · rintro ⟨d, ⟨text, htext, hd, hparent⟩, hroot, hpath⟩
      exact ⟨d, hd, List.mem_map.mpr ⟨text, htext, hparent.symm⟩, hroot, hpath⟩
    · rintro ⟨d, hd, hparent, hroot, hpath⟩
      obtain ⟨text, htext, hparent⟩ := List.mem_map.mp hparent
      exact ⟨d, ⟨text, htext, hd, hparent.symm⟩, hroot, hpath⟩
  · intro d hd e he root hdalias healias
    have halias := unambiguous_of_build h
    have hpath : d.path = e.path :=
      Option.some.inj ((halias.mem_iff.mp hdalias).symm.trans (halias.mem_iff.mp healias))
    have hdistinct := distinct_of_build h
    rw [definitions_of_build h] at hdistinct
    exact hdistinct d hd e he hpath
  · have hreordered : p.Reordered { p with definitions, imports } := ⟨hdefinitions, himports, rfl⟩
    refine ⟨⟨fun ⟨scope, h⟩ => ?_, fun ⟨scope, h⟩ => ?_⟩, fun scope scope' h h' => ?_⟩
    · obtain ⟨scope', h', -⟩ := hreordered.agree h
      exact ⟨scope', h'⟩
    · obtain ⟨scope', h', -⟩ := hreordered.symm.agree h
      exact ⟨scope', h'⟩
    · obtain ⟨scope'', h'', hagree⟩ := hreordered.agree h
      cases h'.symm.trans h''
      exact hagree.lookups

def twices : Program := {
  imports := [" util/* "]
  definitions := [{ path := "/util/twice" }, { path := "/util/deep/twice" }, { path := "/math/twice" }] }

/-- Within `/math` the name means the definition there, which is in the longest namespace; elsewhere it means the imported
    one, also in the reversed program. -/
theorem twices_names : ∃ scope, build twices = .ok scope ∧ ("/twice", "/util/twice") ∈ scope.aliases ∧
    ¬twices.Has "/twice" ∧
    (∃ space, Path.Encloses space "/math/inner/cube" ∧ "/math/twice" = space ++ "/" ++ "twice" ∧
      ∀ other, Path.Encloses other "/math/inner/cube" → twices.Has (other ++ "/" ++ "twice") →
        other.length ≤ space.length) ∧
    scope.resolve? "twice" "/main" = some { path := "/util/twice" } ∧
    ∃ scope', build { twices with definitions := twices.definitions.reverse } = .ok scope' ∧
      scope.resolve? "twice" "/main" = scope'.resolve? "twice" "/main" := by
  obtain ⟨hdescribed, hreordered⟩ := names_of_build twices
  obtain ⟨scope, h, hmath, hroot⟩ : ∃ scope, build twices = .ok scope ∧
      scope.resolve? "twice" "/math/inner/cube" = some { path := "/math/twice" } ∧
      scope.resolve? "twice" "/main" = some { path := "/util/twice" } := ⟨_, rfl, by decide +kernel, by decide +kernel⟩
  obtain ⟨hfree, haliases, -, hresolve⟩ := hdescribed scope h
  have halias : ("/twice", "/util/twice") ∈ scope.aliases :=
    (haliases _ _).mpr ⟨{ path := "/util/twice" }, by decide +kernel, by decide +kernel, by decide +kernel, rfl⟩
  obtain ⟨hbuilds, hsame⟩ := hreordered twices.definitions.reverse twices.imports (List.reverse_perm _) (.refl _)
  obtain ⟨scope', h'⟩ := hbuilds.mp ⟨scope, h⟩
  refine ⟨scope, h, halias, hfree _ _ halias, ?_, hroot, scope', h', (hsame scope scope' h h' "twice" "/main").1⟩
  obtain ⟨-, hlongest | ⟨hnone, -⟩⟩ :=
    ((hresolve "twice" "/math/inner/cube" { path := "/math/twice" }).2 (by decide +kernel)).mp hmath
  · exact hlongest
  · exact absurd ⟨{ path := "/math/twice" }, by decide +kernel, by decide +kernel⟩ (hnone "/math" ⟨1, by decide +kernel⟩)

end Scope
end FlatCode
