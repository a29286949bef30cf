import FlatCode.Program.Build
import FlatCode.Proofs.Imports
import FlatCode.Proofs.Lockstep.Entry

/-! Lowering depends only on what is looked up: not on the order of the definitions or of the imports, and not on a
    definition that no name in the program can mean. -/

namespace FlatCode

/-! ### Scopes of two programs -/

section
variable {p p' : Program} {scope : Scope}

namespace Program

/-- The programs differ in the order of their definitions and imports. -/
structure Reordered (p p' : Program) : Prop where
  definitions : p'.definitions.Perm p.definitions
  imports : p'.imports.Perm p.imports
  executions : p'.executions = p.executions

namespace Reordered

theorem refl : Reordered p p := ⟨.refl _, .refl _, rfl⟩

theorem symm (h : Reordered p p') : Reordered p' p := ⟨h.definitions.symm, h.imports.symm, h.executions.symm⟩

theorem child_iff (h : Reordered p p') (text : String) (d : Definition) :
    Scope.Child p'.definitions text d ↔ Scope.Child p.definitions text d := by
  unfold Scope.Child
  rw [h.definitions.mem_iff]

theorem imports_iff (h : Reordered p p') (d : Definition) : p.Imports d ↔ p'.Imports d := by
  simp only [Imports, h.imports.mem_iff, h.child_iff]

theorem buildable (h : Reordered p p') (hp : Scope.Buildable p) : Scope.Buildable p' where
  nodup := ((h.definitions.map _).nodup_iff).mpr hp.nodup
  known text ht := by
    obtain ⟨d, hd, hpath⟩ := hp.known text (h.imports.mem_iff.mp ht)
    exact ⟨d, h.definitions.mem_iff.mpr hd, hpath⟩
  free d hd e he := hp.free d ((h.imports_iff d).mpr hd) e (h.definitions.mem_iff.mp he)
  paths d e hd he := hp.paths d e ((h.imports_iff d).mpr hd) ((h.imports_iff e).mpr he)

/-- Both programs have a scope, and whatever is looked up in one is found in the other. -/
theorem agree (h : Reordered p p') (hscope : Scope.build p = .ok scope) :
    ∃ scope', Scope.build p' = .ok scope' ∧ Scope.Agree (fun _ => True) scope scope' := by
  obtain ⟨scope', hscope'⟩ := Scope.build_of_buildable (h.buildable (Scope.buildable_of_build hscope).1)
  refine ⟨scope', hscope', Scope.agree_of_build hscope hscope' h.imports_iff (fun _ _ => trivial) fun path _ => ?_⟩
  refine Option.ext fun d => ?_
  rw [Scope.at?_eq_some_iff (Scope.distinct_of_build hscope), Scope.at?_eq_some_iff (Scope.distinct_of_build hscope'),
    Scope.definitions_of_build hscope, Scope.definitions_of_build hscope', h.definitions.mem_iff]

theorem depth (h : Reordered p p') : p'.depth = p.depth := by
  unfold Program.depth Program.size
  rw [h.definitions.length_eq, (h.definitions.map _).sum_nat, h.executions]

end Reordered

/-- The second program has a definition more, which no alias stands for and whose last segment no other one has. -/
structure Extended (p p' : Program) (d : Definition) : Prop where
  definitions : ∃ before after, p.definitions = before ++ after ∧ p'.definitions = before ++ d :: after
  imports : p'.imports = p.imports
  executions : p'.executions = p.executions
  last : ∀ e ∈ p.definitions, Path.last e.path ≠ Path.last d.path
  parent : ∀ text ∈ p.imports, Path.parent d.path ≠ Path.ofImport text

namespace Extended
variable {d : Definition}

theorem perm (h : Extended p p' d) : p'.definitions.Perm (d :: p.definitions) := by
  obtain ⟨before, after, hp, hp'⟩ := h.definitions
  rw [hp, hp']
  exact List.perm_middle

theorem mem_iff (h : Extended p p' d) {e : Definition} : e ∈ p'.definitions ↔ e = d ∨ e ∈ p.definitions := by
  rw [h.perm.mem_iff, List.mem_cons]

theorem imports_iff (h : Extended p p' d) (e : Definition) : p.Imports e ↔ p'.Imports e := by
  unfold Imports Scope.Child
  rw [h.imports]
  constructor
  · rintro ⟨text, ht, he, hparent⟩
    exact ⟨text, ht, h.mem_iff.mpr (.inr he), hparent⟩
  · rintro ⟨text, ht, he, hparent⟩
    rcases h.mem_iff.mp he with rfl | he
    · exact absurd hparent (h.parent text ht)
    · exact ⟨text, ht, he, hparent⟩

theorem buildable (h : Extended p p' d) (hp : Scope.Buildable p) : Scope.Buildable p' where
  nodup := by
    rw [(h.perm.map _).nodup_iff, List.map_cons, List.nodup_cons]
    refine ⟨fun hmem => ?_, hp.nodup⟩
    obtain ⟨e, he, hpath⟩ := List.mem_map.mp hmem
    exact h.last e he (congrArg _ hpath)
  known text ht := by
    obtain ⟨e, he, hpath⟩ := hp.known text (h.imports ▸ ht)
    exact ⟨e, h.mem_iff.mpr (.inr he), hpath⟩
  free e he a ha hpath := by
    have he' := (h.imports_iff e).mpr he
    rcases h.mem_iff.mp ha with rfl | ha
    · obtain ⟨_, _, hmem, -⟩ := he'
      refine h.last e hmem ?_
      rw [hpath, Path.last_alias]
    · exact hp.free e he' a ha hpath
  paths a b ha hb := hp.paths a b ((h.imports_iff a).mpr ha) ((h.imports_iff b).mpr hb)

/-- Both programs have a scope, and a path that does not end like the new definition is looked up alike. -/
theorem agree (h : Extended p p' d) (hscope : Scope.build p = .ok scope) :
    ∃ scope', Scope.build p' = .ok scope' ∧ Scope.Agree (· ≠ Path.last d.path) scope scope' := by
  obtain ⟨scope', hscope'⟩ := Scope.build_of_buildable (h.buildable (Scope.buildable_of_build hscope).1)
  refine ⟨scope', hscope', Scope.agree_of_build hscope hscope' h.imports_iff h.last fun path hpath => ?_⟩
  refine Option.ext fun e => ?_
  rw [Scope.at?_eq_some_iff (Scope.distinct_of_build hscope), Scope.at?_eq_some_iff (Scope.distinct_of_build hscope'),
    Scope.definitions_of_build hscope, Scope.definitions_of_build hscope', h.mem_iff]
  constructor
  · rintro ⟨he, hat⟩
    exact ⟨.inr he, hat⟩
  · rintro ⟨rfl | he, hat⟩
    · exact absurd (congrArg _ hat.symm) hpath
    · exact ⟨he, hat⟩

end Extended
end Program
end

/-! ### Names -/

def Program.names (p : Program) : List String :=
  p.definitions.map (·.path) ++ p.executions.map (·.path) ++ p.callNames ++ p.transformNames

/-- The names that an expression looks up end in segments with the property `N`. -/
structure Expr.Names (N : String → Prop) (e : Expr) : Prop where
  transforms : ∀ t ∈ e.transforms, N (Path.last t.name)
  call : ∀ ts c, e = .call ts c → c.isBinding = false → c.builtin? = none → N (Path.last c.name)

namespace Program
variable {p : Program}

theorem path_mem_names {d : Definition} (h : d ∈ p.definitions) : d.path ∈ p.names := by
  have := List.mem_map_of_mem (f := (·.path)) h
  simp [names, this]

theorem target_mem_names {x : Execution} (h : x ∈ p.executions) : x.path ∈ p.names := by
  have := List.mem_map_of_mem (f := (·.path)) h
  simp [names, this]

theorem names_of_within {N : String → Prop} (h : ∀ name ∈ p.names, N (Path.last name)) {e : Expr} (he : e ∈ p.within) :
    e.Names N where
  transforms t ht := h t.name (by
    have : t ∈ p.within.flatMap Expr.transforms := List.mem_flatMap.mpr ⟨e, he, ht⟩
    have : t.name ∈ p.transformNames := List.mem_map_of_mem (List.mem_append_left _ (List.mem_append_left _ this))
    simp [names, this])
  call ts c hc hbinding _ := h c.name (by
    have : c.name ∈ p.callNames := List.mem_filterMap.mpr ⟨e, he, by simp [hc, Expr.callName?, hbinding]⟩
    simp [names, this])

end Program

theorem Scope.Agree.alike {N : String → Prop} {scope scope' : Scope} {e : Expr} (h : Scope.Agree N scope scope')
    (he : e.Names N) : scope.Alike scope' e where
  declared := h.declared_eq he.transforms
  resolve ts c hc hbinding hb home := h.resolve_eq (he.call ts c hc hbinding hb) home
  method ts c hc hbinding hb owner := h.get_eq _ (by rw [Path.last_append]; exact he.call ts c hc hbinding hb)

namespace Lower

section
variable {N : String → Prop} {scope scope' : Scope} {p p' : Program} {depth n : Nat} {entry : String}
  {defaults entryDefaults : List String} {l : Lowered} (hagree : Scope.Agree N scope scope')
include hagree

theorem checkExecutions_eq {effects : EffectSet} {xs : List Execution} (hxs : ∀ x ∈ xs, N (Path.last x.path)) :
    checkExecutions scope effects xs = checkExecutions scope' effects xs := by
  induction xs with
  | nil => rfl
  | cons x xs ih =>
    obtain ⟨hx, hxs⟩ := List.forall_mem_cons.mp hxs
    unfold checkExecutions
    rw [hagree.resolve_eq hx, ih hxs]

theorem uniform_of_agree {g : Pace} (hstops : g.stops .tooDeep) (hloop : g.mayLoop)
    (hdefinitions : scope.definitions = p.definitions) (hnames : ∀ e ∈ p.within, e.Names N) :
    Uniform g scope scope' (Expr.Names N) where
  stops := hstops
  alike he := hagree.alike he
  loops _ _ _ := hloop
  definitions d hd := Program.all_of_within hnames (hdefinitions ▸ hd) fun r _ => by
    refine ⟨nofun, fun ts c hc _ hb => ?_⟩
    cases hc
    exact nomatch hb

/-- A program that is lowered in one scope is lowered to the same in another one that agrees on its names. -/
theorem lowered_of_agree (hscope : Scope.build p = .ok scope) (hscope' : Scope.build p' = .ok scope')
    (hnames : ∀ e ∈ p.within, e.Names N) (hentry : N (Path.last entry))
    (hexecutions : ∀ x ∈ p.executions, N (Path.last x.path)) (hsame : p'.executions = p.executions)
    (hdepth : depth ≤ n) (h : p.loweredTo depth entry defaults entryDefaults = .ok l) :
    p'.loweredTo n entry defaults entryDefaults = .ok l := by
  let g : Pace := { stops := (· = .tooDeep), mayLoop := True }
  have huniform : Uniform g scope scope' (Expr.Names N) :=
    uniform_of_agree hagree rfl trivial (Scope.definitions_of_build hscope) hnames
  obtain ⟨k, rfl⟩ := Nat.exists_eq_add_of_le hdepth
  have hbeside : Beside g (p.loweredTo depth entry defaults entryDefaults)
      (p'.loweredTo (depth + k) entry defaults entryDefaults) := by
    refine beside_lowered trivial hscope hscope' (huniform.coverage depth k) (Nat.le_add_right ..)
      (hagree.get_eq entry hentry) (fun effects => by rw [hsame, checkExecutions_eq hagree hexecutions]) fun d hd => ?_
    have hd := Scope.mem_of_get? hd
    obtain ⟨hparameters, hbody⟩ := huniform.definitions d hd
    exact ⟨huniform.returns hd depth k, fun e he => huniform.alike (hparameters e he).self,
      fun ctx hctx hI _ e he => ⟨hctx, hI, hbody e he⟩⟩
  rcases hbeside with ⟨e, he, -⟩ | ⟨l', hl, hl'⟩
  · exact nomatch h.symm.trans he
  · cases h.symm.trans hl
    exact hl'

end

/-- Lowering depends only on what is looked up. A program that is lowered, to any depth, is lowered to the same module, to
    that depth and beyond, with its definitions and its imports in another order; and with one more definition, wherever
    it is put, if no path or name in the program ends like its path and it does not stand in a namespace that is
    imported. -/
theorem lower_of_lookups {p : Program} {depth n : Nat} {entry : String} {defaults entryDefaults : List String}
    {l : Lowered} (h : p.loweredTo depth entry defaults entryDefaults = .ok l) (hn : depth ≤ n) :
    (∀ p' : Program, p'.definitions.Perm p.definitions → p'.imports.Perm p.imports → p'.executions = p.executions →
        p'.loweredTo n entry defaults entryDefaults = .ok l) ∧
      ∀ before after d, p.definitions = before ++ after → Path.last d.path ∉ (entry :: p.names).map Path.last →
        Path.parent d.path ∉ p.imports.map Path.ofImport →
        ({ p with definitions := before ++ d :: after } : Program).loweredTo n entry defaults entryDefaults = .ok l := by
  obtain ⟨scope, -, -, hscope, -⟩ := lowered_inv h
  refine ⟨fun p' hdefinitions himports hexecutions => ?_, fun before after d hp hlast hparent => ?_⟩
  · have hreordered : p.Reordered p' := ⟨hdefinitions, himports, hexecutions⟩
    obtain ⟨scope', hscope', hagree⟩ := hreordered.agree hscope
    exact lowered_of_agree hagree hscope hscope' (fun _ _ => ⟨fun _ _ => trivial, fun _ _ _ _ _ => trivial⟩) trivial
      (fun _ _ => trivial) hexecutions hn h
  · have hne {name : String} (hname : name ∈ entry :: p.names) : Path.last name ≠ Path.last d.path := fun heq =>
      hlast (List.mem_map.mpr ⟨name, hname, heq⟩)
    have hextended : p.Extended { p with definitions := before ++ d :: after } d := {
      definitions := ⟨before, after, hp, rfl⟩
      imports := rfl
      executions := rfl
      last := fun e he => hne (List.mem_cons_of_mem _ (p.path_mem_names he))
      parent := fun text ht heq => hparent (List.mem_map.mpr ⟨text, ht, heq.symm⟩) }
    obtain ⟨scope', hscope', hagree⟩ := hextended.agree hscope
    have hnames (e : Expr) (he : e ∈ p.within) : e.Names (· ≠ Path.last d.path) :=
      p.names_of_within (fun name hname => hne (List.mem_cons_of_mem _ hname)) he
    exact lowered_of_agree hagree hscope hscope' hnames (hne List.mem_cons_self)
      (fun x hx => hne (List.mem_cons_of_mem _ (p.target_mem_names hx))) rfl hn h

def unary (path : String) (result : Expr) : Definition := {
  path
  transforms := [{ name := "return", templateArgs := ["i32"] }]
  parameters := [.parameter "x" ["i32"]]
  result := some result }

def grouped : Program := {
  imports := ["/numbers/*", "/more"]
  definitions := [
    unary "/numbers/next" (.plainCall "plus" [.ident "x", .int32 1]),
    { path := "/more/twice"
      parameters := [.parameter "x" ["i32"]]
      result := some (.plainCall "next" [.plainCall "/numbers/next" [.ident "x"]]) },
    { path := "/main"
      transforms := [{ name := "return", templateArgs := ["i32"] }]
      result := some (.plainCall "twice" [.int32 5]) }] }

theorem grouped_lowers : (grouped.lowered "/main" [] []).toBool = true := by decide +kernel

/-- It is lowered to the same when all is turned around, and with another definition of the second namespace, deeper in;
    the latter to twice the depth, too. -/
theorem grouped_lowers_alike : ∃ l, grouped.lowered "/main" [] [] = .ok l ∧
    ({ grouped with imports := grouped.imports.reverse, definitions := grouped.definitions.reverse } : Program).loweredTo
      grouped.depth "/main" [] [] = .ok l ∧
    ({ grouped with definitions := unary "/more/still/other" (.ident "x") :: grouped.definitions } : Program).loweredTo
      (2 * grouped.depth) "/main" [] [] = .ok l := by
  have hok := grouped_lowers
  cases h : grouped.lowered "/main" [] [] with
  | error e =>
    rw [h] at hok
    exact nomatch hok
  | ok l =>
    obtain ⟨hreordered, -⟩ := lower_of_lookups h (Nat.le_refl _)
    obtain ⟨-, hextended⟩ := lower_of_lookups h (Nat.le_mul_of_pos_left grouped.depth Nat.two_pos)
    refine ⟨l, rfl, hreordered _ (List.reverse_perm _) (List.reverse_perm _) rfl, ?_⟩
    exact hextended [] grouped.definitions (unary "/more/still/other" (.ident "x")) rfl (by decide +kernel)
      (by decide +kernel)

end Lower
end FlatCode
