import FlatCode.Binding
import FlatCode.Proofs.Lookup
import FlatCode.Proofs.Monad

/-! What a scope is made of, whatever the order of the definitions and of the imports. A scope can be built if no two
    definitions stand under one path, and no two imported ones under one alias; the aliases then are those of the
    definitions that are imported. -/

namespace FlatCode
open Stateful

namespace Path

theorem takeWhile_append_slash (cs ds : List Char) :
    (cs ++ '/' :: ds).takeWhile (· != '/') = cs.takeWhile (· != '/') := by
  induction cs with
  | nil => rfl
  | cons c cs ih => by_cases h : c = '/' <;> simp [h, ih]

theorem takeWhile_takeWhile (cs : List Char) :
    (cs.takeWhile (· != '/')).takeWhile (· != '/') = cs.takeWhile (· != '/') := by
  induction cs with
  | nil => rfl
  | cons c cs ih => by_cases h : c = '/' <;> simp [h, ih]

theorem last_append (space name : String) : last (space ++ "/" ++ name) = last name := by
  simp [last, takeWhile_append_slash]

theorem last_atRoot (name : String) : last (atRoot name) = last name := by
  simpa [atRoot] using last_append "" name

/-- The alias of a path has the same last segment. -/
theorem last_alias (path : String) : last (atRoot (last path)) = last path := by
  rw [last_atRoot]
  simp [last, takeWhile_takeWhile]

end Path

def Describes (S : Definition → Prop) (aliases : List (String × String)) : Prop :=
  ∀ root path, aliases.lookup root = some path ↔ ∃ d, S d ∧ root = Path.atRoot (Path.last d.path) ∧ path = d.path

section
variable {S S' : Definition → Prop} {aliases aliases' : List (String × String)} {definitions : List Definition}
  {d : Definition}

namespace Describes

theorem nil : Describes (fun _ => False) [] := by simp [Describes]

theorem congr (h : Describes S aliases) (hS : ∀ d, S d ↔ S' d) : Describes S' aliases := by
  intro root path
  rw [h root path]
  simp only [hS]

theorem lookup (h : Describes S aliases) (hd : S d) : aliases.lookup (Path.atRoot (Path.last d.path)) = some d.path :=
  (h _ _).mpr ⟨d, hd, rfl, rfl⟩

/-- Definitions that share an alias share their path. -/
theorem path_eq (h : Describes S aliases) {e : Definition} (hd : S d) (he : S e)
    (hlast : Path.last d.path = Path.last e.path) : d.path = e.path :=
  Option.some.inj ((h.lookup hd).symm.trans (hlast ▸ h.lookup he))

/-- The definitions say what every alias stands for. -/
theorem lookup_eq (h : Describes S aliases) (h' : Describes S aliases') (root : String) :
    aliases.lookup root = aliases'.lookup root :=
  Option.ext fun path => (h root path).trans (h' root path).symm

end Describes

namespace Scope

def Free (definitions : List Definition) (d : Definition) : Prop :=
  ∀ e ∈ definitions, e.path ≠ Path.atRoot (Path.last d.path)

theorem any_eq_false_iff {path : String} : definitions.any (·.path == path) = false ↔ ∀ e ∈ definitions, e.path ≠ path := by
  simp

variable {l : List Definition} {texts : List String} {text : String} (h : Describes S aliases)

def Child (definitions : List Definition) (text : String) (d : Definition) : Prop :=
  d ∈ definitions ∧ Path.parent d.path = Path.ofImport text

def Known (definitions : List Definition) (text : String) : Prop :=
  ∃ d ∈ definitions, Path.parent d.path = Path.ofImport text ∨ d.path = Path.ofImport text

theorem mem_children :
    d ∈ definitions.filter (fun d => Path.parent d.path == Path.ofImport text) ↔ Child definitions text d := by
  simp [Child]

theorem unknown_iff :
    ((definitions.filter fun d => Path.parent d.path == Path.ofImport text).isEmpty &&
      !definitions.any (·.path == Path.ofImport text)) = true ↔ ¬Known definitions text := by
  simp only [Known, Bool.and_eq_true, List.isEmpty_iff, List.filter_eq_nil_iff, beq_iff_eq, Bool.not_eq_true',
    any_eq_false_iff]
  constructor
  · rintro ⟨hchild, hat⟩ ⟨d, hd, hparent | hpath⟩
    · exact hchild d hd hparent
    · exact hat d hd hpath
  · intro h
    exact ⟨fun d hd hparent => h ⟨d, hd, .inl hparent⟩, fun d hd hpath => h ⟨d, hd, .inr hpath⟩⟩

include h

theorem addAlias_inv (hok : addAlias definitions aliases d = .ok aliases') :
    Free definitions d ∧ Describes (fun e => e = d ∨ S e) aliases' := by
  unfold addAlias at hok
  dsimp only at hok
  split at hok
  · exact nomatch hok
  case isFalse hany =>
    refine ⟨any_eq_false_iff.mp (Bool.eq_false_iff.mpr hany), fun root path => ?_⟩
    split at hok
    case h_1 hnone =>
      cases hok
      rw [List.lookup_cons]
      by_cases hroot : root = Path.atRoot (Path.last d.path)
      · subst hroot
        simp only [beq_self_eq_true]
        constructor
        · intro hpath
          exact ⟨d, .inl rfl, rfl, (Option.some.inj hpath).symm⟩
        · rintro ⟨e, rfl | he, hroot, rfl⟩
          · rfl
          · exact nomatch hnone.symm.trans ((h _ _).mpr ⟨e, he, hroot, rfl⟩)
      · simp only [beq_eq_false_iff_ne.mpr hroot]
        rw [h root path]
        constructor
        · rintro ⟨e, he, hpath⟩
          exact ⟨e, .inr he, hpath⟩
        · rintro ⟨e, rfl | he, hpath⟩
          · exact absurd hpath.1 hroot
          · exact ⟨e, he, hpath⟩
    case h_2 existing hsome =>
      split at hok
      case isTrue heq =>
        cases hok
        have hd : aliases.lookup (Path.atRoot (Path.last d.path)) = some d.path := hsome.trans (congrArg _ (eq_of_beq heq))
        constructor
        · intro hpath
          obtain ⟨e, he, hpath⟩ := (h root path).mp hpath
          exact ⟨e, .inr he, hpath⟩
        · rintro ⟨e, rfl | he, rfl, rfl⟩
          · exact hd
          · exact h.lookup he
      case isFalse => exact nomatch hok

theorem addAlias_ok (hfree : Free definitions d)
    (hpaths : ∀ e, S e → Path.last e.path = Path.last d.path → e.path = d.path) :
    ∃ aliases', addAlias definitions aliases d = .ok aliases' := by
  unfold addAlias
  dsimp only
  rw [any_eq_false_iff.mpr hfree, if_neg Bool.false_ne_true]
  split
  · exact ⟨_, rfl⟩
  case h_2 existing hsome =>
    obtain ⟨e, he, hroot, rfl⟩ := (h _ _).mp hsome
    have hlast : Path.last e.path = Path.last d.path := by
      rw [← Path.last_alias e.path, ← Path.last_alias d.path, hroot]
    rw [hpaths e he hlast, beq_self_eq_true]
    exact ⟨_, rfl⟩

/-- The aliases of a list of definitions are added, or one of them stands in the way. -/
theorem addAliases_inv (hok : l.foldlM (addAlias definitions) aliases = .ok aliases') :
    (∀ d ∈ l, Free definitions d) ∧ Describes (fun e => e ∈ l ∨ S e) aliases' := by
  induction l generalizing S aliases with
  | nil =>
    cases hok
    exact ⟨nofun, h.congr fun e => by simp⟩
  | cons d l ih =>
    obtain ⟨aliases₁, hd, hl⟩ := except_bind_eq_ok.mp hok
    obtain ⟨hfree, h₁⟩ := addAlias_inv h hd
    obtain ⟨hfree', h₂⟩ := ih h₁ hl
    refine ⟨List.forall_mem_cons.mpr ⟨hfree, hfree'⟩, h₂.congr fun e => ?_⟩
    rw [List.mem_cons]
    constructor
    · rintro (he | rfl | he) <;> simp [*]
    · rintro ((rfl | he) | he) <;> simp [*]

theorem addAliases_ok (hfree : ∀ d ∈ l, Free definitions d)
    (hpaths : ∀ d e, d ∈ l ∨ S d → e ∈ l ∨ S e → Path.last d.path = Path.last e.path → d.path = e.path) :
    ∃ aliases', l.foldlM (addAlias definitions) aliases = .ok aliases' := by
  induction l generalizing S aliases with
  | nil => exact ⟨aliases, rfl⟩
  | cons d l ih =>
    obtain ⟨aliases₁, hd⟩ := addAlias_ok h (hfree d List.mem_cons_self) fun e he =>
      hpaths e d (.inr he) (.inl List.mem_cons_self)
    have h₁ := (addAlias_inv h hd).2
    obtain ⟨aliases₂, hl⟩ := ih h₁ (fun e he => hfree e (List.mem_cons_of_mem _ he)) fun a b ha hb =>
      hpaths a b (by rcases ha with ha | rfl | ha <;> simp [*]) (by rcases hb with hb | rfl | hb <;> simp [*])
    exact ⟨aliases₂, except_bind_eq_ok.mpr ⟨aliases₁, hd, hl⟩⟩

theorem addImport_inv (hok : addImport definitions aliases text = .ok aliases') :
    Known definitions text ∧ (∀ d, Child definitions text d → Free definitions d) ∧
      Describes (fun e => Child definitions text e ∨ S e) aliases' := by
  unfold addImport at hok
  dsimp only at hok
  split at hok
  · exact nomatch hok
  case isFalse hknown =>
    obtain ⟨hfree, h₁⟩ := addAliases_inv h hok
    refine ⟨Classical.not_not.mp fun h => hknown (unknown_iff.mpr h), fun d hd => hfree d (mem_children.mpr hd),
      h₁.congr fun e => ?_⟩
    rw [mem_children]

theorem addImport_ok (hknown : Known definitions text)
    (hfree : ∀ d, Child definitions text d → Free definitions d)
    (hpaths : ∀ d e, Child definitions text d ∨ S d → Child definitions text e ∨ S e →
      Path.last d.path = Path.last e.path → d.path = e.path) :
    ∃ aliases', addImport definitions aliases text = .ok aliases' := by
  unfold addImport
  dsimp only
  rw [if_neg fun h => unknown_iff.mp h hknown]
  refine addAliases_ok h (fun d hd => hfree d (mem_children.mp hd)) fun d e hd he => ?_
  rw [mem_children] at hd he
  exact hpaths d e hd he

theorem addImports_inv (hok : texts.foldlM (addImport definitions) aliases = .ok aliases') :
    (∀ text ∈ texts, Known definitions text ∧ ∀ d, Child definitions text d → Free definitions d) ∧
      Describes (fun e => (∃ text ∈ texts, Child definitions text e) ∨ S e) aliases' := by
  induction texts generalizing S aliases with
  | nil =>
    cases hok
    exact ⟨nofun, h.congr fun e => by simp⟩
  | cons text texts ih =>
    obtain ⟨aliases₁, htext, htexts⟩ := except_bind_eq_ok.mp hok
    obtain ⟨hknown, hfree, h₁⟩ := addImport_inv h htext
    obtain ⟨hrest, h₂⟩ := ih h₁ htexts
    refine ⟨List.forall_mem_cons.mpr ⟨⟨hknown, hfree⟩, hrest⟩, h₂.congr fun e => ?_⟩
    simp only [List.mem_cons, exists_eq_or_imp]
    constructor
    · rintro (he | he | he) <;> simp [*]
    · rintro ((he | he) | he) <;> simp [*]

theorem addImports_ok (hknown : ∀ text ∈ texts, Known definitions text)
    (hfree : ∀ text ∈ texts, ∀ d, Child definitions text d → Free definitions d)
    (hpaths : ∀ d e, (∃ text ∈ texts, Child definitions text d) ∨ S d → (∃ text ∈ texts, Child definitions text e) ∨ S e →
      Path.last d.path = Path.last e.path → d.path = e.path) :
    ∃ aliases', texts.foldlM (addImport definitions) aliases = .ok aliases' := by
  induction texts generalizing S aliases with
  | nil => exact ⟨aliases, rfl⟩
  | cons text texts ih =>
    simp only [List.mem_cons, exists_eq_or_imp] at hpaths
    obtain ⟨aliases₁, htext⟩ := addImport_ok h (hknown text List.mem_cons_self) (hfree text List.mem_cons_self)
      fun d e hd he => hpaths d e (by rcases hd with hd | hd <;> simp [*]) (by rcases he with he | he <;> simp [*])
    have h₁ := (addImport_inv h htext).2.2
    obtain ⟨aliases₂, htexts⟩ := ih h₁ (fun t ht => hknown t (List.mem_cons_of_mem _ ht))
      (fun t ht => hfree t (List.mem_cons_of_mem _ ht)) fun d e hd he =>
      hpaths d e (by rcases hd with hd | hd | hd <;> simp [*]) (by rcases he with he | he | he <;> simp [*])
    exact ⟨aliases₂, except_bind_eq_ok.mpr ⟨aliases₁, htext, htexts⟩⟩

end Scope
end

def Program.Imports (p : Program) (d : Definition) : Prop := ∃ text ∈ p.imports, Scope.Child p.definitions text d

namespace Scope

structure Buildable (p : Program) : Prop where
  nodup : (p.definitions.map (·.path)).Nodup
  known : ∀ text ∈ p.imports, Known p.definitions text
  free : ∀ d, p.Imports d → Free p.definitions d
  paths : ∀ d e, p.Imports d → p.Imports e → Path.last d.path = Path.last e.path → d.path = e.path

theorem firstRepeated?_eq_none {seen : List String} {l : List Definition} :
    firstRepeated? seen l = none ↔ (l.map (·.path)).Nodup ∧ ∀ d ∈ l, d.path ∉ seen := by
  induction l generalizing seen with
  | nil => simp [firstRepeated?]
  | cons d l ih =>
    rw [firstRepeated?]
    by_cases hseen : d.path ∈ seen
    · simp [hseen]
    · rw [if_neg (by simpa using hseen), ih, List.map_cons, List.nodup_cons, List.forall_mem_cons]
      constructor
      · rintro ⟨hnodup, hfresh⟩
        refine ⟨⟨fun hmem => ?_, hnodup⟩, hseen, fun e he hmem => hfresh e he (List.mem_cons_of_mem _ hmem)⟩
        obtain ⟨e, he, hpath⟩ := List.mem_map.mp hmem
        exact hfresh e he (hpath ▸ List.mem_cons_self)
      · rintro ⟨⟨hd, hnodup⟩, -, hfresh⟩
        refine ⟨hnodup, fun e he hmem => ?_⟩
        rcases List.mem_cons.mp hmem with hpath | hmem
        · exact hd (List.mem_map.mpr ⟨e, he, hpath⟩)
        · exact hfresh e he hmem

variable {d : Definition} {path : String} {N : String → Prop}

section
variable {p p' : Program} {scope scope' : Scope}

/-- What a program with a scope is like, and what the aliases are. -/
theorem buildable_of_build (h : build p = .ok scope) : Buildable p ∧ Describes p.Imports scope.aliases := by
  unfold build at h
  split at h
  · exact nomatch h
  case h_2 hrepeated =>
    cases hfold : p.imports.foldlM (addImport p.definitions) [] with
    | error e =>
      rw [hfold] at h
      exact nomatch h
    | ok aliases =>
      rw [hfold] at h
      cases h
      obtain ⟨himports, haliases⟩ := addImports_inv .nil hfold
      have hdescribes : Describes p.Imports aliases := haliases.congr fun e => by simp [Program.Imports]
      refine ⟨⟨(firstRepeated?_eq_none.mp hrepeated).1, fun text ht => (himports text ht).1, ?_, ?_⟩, hdescribes⟩
      · rintro d ⟨text, ht, hd⟩
        exact (himports text ht).2 d hd
      · exact fun d e hd he => hdescribes.path_eq hd he

theorem build_of_buildable (h : Buildable p) : ∃ scope, build p = .ok scope := by
  have hrepeated : firstRepeated? [] p.definitions = none :=
    firstRepeated?_eq_none.mpr ⟨h.nodup, fun _ _ => List.not_mem_nil⟩
  obtain ⟨aliases, hfold⟩ := addImports_ok .nil h.known (fun text ht d hd => h.free d ⟨text, ht, hd⟩) fun d e hd he =>
    h.paths d e (hd.resolve_right id) (he.resolve_right id)
  unfold build
  rw [hrepeated, hfold]
  exact ⟨_, rfl⟩

theorem path_of_at? (h : scope.at? path = some d) : d.path = path := by
  unfold at? at h
  simpa using List.find?_some h

theorem at?_eq_some_iff (h : Definition.Distinct scope.definitions) :
    scope.at? path = some d ↔ d ∈ scope.definitions ∧ d.path = path := by
  constructor
  · intro hat
    exact ⟨mem_of_at? hat, path_of_at? hat⟩
  · rintro ⟨hd, rfl⟩
    cases hat : scope.at? d.path with
    | none => exact absurd (List.find?_eq_none.mp hat d hd) (by simp)
    | some e => rw [h e (mem_of_at? hat) d hd (path_of_at? hat)]

/-- The scopes look up alike every path whose last segment has the property `N`. -/
structure Agree (N : String → Prop) (scope scope' : Scope) : Prop where
  at_eq : ∀ path, N (Path.last path) → scope.at? path = scope'.at? path
  get_eq : ∀ path, N (Path.last path) → scope.get? path = scope'.get? path

theorem Agree.refl : Agree N scope scope := ⟨fun _ _ => rfl, fun _ _ => rfl⟩

theorem Agree.symm (h : Agree N scope scope') : Agree N scope' scope :=
  ⟨fun path hpath => (h.at_eq path hpath).symm, fun path hpath => (h.get_eq path hpath).symm⟩

/-- Scopes with the same aliases agree if they do without them. -/
theorem agree_of_build (h : build p = .ok scope) (h' : build p' = .ok scope')
    (himports : ∀ d, p.Imports d ↔ p'.Imports d) (hN : ∀ d ∈ p.definitions, N (Path.last d.path))
    (hat : ∀ path, N (Path.last path) → scope.at? path = scope'.at? path) : Agree N scope scope' := by
  refine ⟨hat, fun path hpath => ?_⟩
  have hdescribes := (buildable_of_build h).2
  have hlookup := hdescribes.lookup_eq ((buildable_of_build h').2.congr fun d => (himports d).symm) path
  unfold get?
  rw [hat path hpath, ← hlookup]
  cases htarget : scope.aliases.lookup path with
  | none => rfl
  | some target =>
    obtain ⟨d, ⟨_, _, hd, _⟩, -, rfl⟩ := (hdescribes path target).mp htarget
    show (_ <|> scope.at? d.path) = (_ <|> scope'.at? d.path)
    rw [hat d.path (hN d hd)]

end

section
variable {N : String → Prop} {scope scope' : Scope} (h : Agree N scope scope')
include h

theorem Agree.resolve_eq {name : String} (hname : N (Path.last name)) (home : String) :
    scope.resolve? name home = scope'.resolve? name home := by
  have hspace (space : String) : scope.at? (space ++ "/" ++ name) = scope'.at? (space ++ "/" ++ name) :=
    h.at_eq _ (by rwa [Path.last_append])
  have hroot : scope.get? (Path.atRoot name) = scope'.get? (Path.atRoot name) := h.get_eq _ (by rwa [Path.last_atRoot])
  unfold resolve?
  simp only [hspace, hroot, h.get_eq name hname]

theorem Agree.declared_eq {templates : List String} {transforms : List Transform}
    (hnames : ∀ t ∈ transforms, N (Path.last t.name)) :
    BindingType.declared? scope templates transforms = BindingType.declared? scope' templates transforms := by
  unfold BindingType.declared?
  split
  case h_1 t ht =>
    have hstruct : scope.struct? t.name = scope'.struct? t.name := by
      unfold struct?
      rw [h.resolve_eq (hnames t (List.mem_of_find?_eq_some ht))]
    have htype : BindingType.ofTransform scope templates t = BindingType.ofTransform scope' templates t := by
      unfold BindingType.ofTransform
      refine bind_congr fun _ => ?_
      split
      · rfl
      · rfl
      · rw [hstruct]
    rw [htype]
  case h_2 => rfl

end
end Scope
end FlatCode
