import FlatCode.Program.Basic

/-! All that stands in an expression, a definition or a program: its parts, their parts, and so on. Properties of everything
    that stands somewhere, and sizes. -/

namespace FlatCode

def Expr.Parts (Z : Expr → Prop) : Expr → Prop
  | .call _ c => (∀ a ∈ c.args, Z a) ∧ ∀ l, c.body = some l → ∀ s ∈ l, Z s
  | _ => True

namespace Expr
variable {Z : Expr → Prop} {e : Expr}

theorem Parts.initial (h : e.Parts Z) {i : Expr} (hi : e.initial? = some i) : Z i := by
  unfold initial? at hi
  split at hi
  · split at hi
    · exact h.1 i (List.mem_of_head? hi)
    · exact nomatch hi
  · exact nomatch hi

theorem Parts.body (h : e.Parts Z) {l : List Expr} (hl : e.body? = some l) : ∀ s ∈ l, Z s := by
  cases e with
  | call ts c => exact h.2 l hl
  | literal | name => exact nomatch hl

end Expr

mutual

def Expr.within : Expr → List Expr
  | .literal ts l => [.literal ts l]
  | .name ts x => [.name ts x]
  | .call ts ⟨f, args, labels, none, templateArgs, isBinding, isMethod⟩ =>
    .call ts ⟨f, args, labels, none, templateArgs, isBinding, isMethod⟩ :: withinList args
  | .call ts ⟨f, args, labels, some body, templateArgs, isBinding, isMethod⟩ =>
    .call ts ⟨f, args, labels, some body, templateArgs, isBinding, isMethod⟩ :: (withinList args ++ withinList body)

def Expr.withinList : List Expr → List Expr
  | [] => []
  | e :: l => e.within ++ withinList l

end

namespace Expr
variable {e s : Expr} {l : List Expr} {P : Expr → Prop}

theorem mem_withinList : s ∈ withinList l ↔ ∃ e ∈ l, s ∈ e.within := by
  induction l with
  | nil => simp [withinList]
  | cons e l ih => simp [withinList, ih]

theorem mem_within_self : e ∈ e.within := by
  cases e with
  | literal | name => exact List.mem_cons_self
  | call ts c =>
    obtain ⟨f, args, labels, body, templateArgs, isBinding, isMethod⟩ := c
    cases body <;> exact List.mem_cons_self

def All (P : Expr → Prop) (e : Expr) : Prop := ∀ s ∈ e.within, P s

theorem All.self (h : e.All P) : P e := h e mem_within_self

theorem All.parts (h : e.All P) : e.Parts (All P) := by
  cases e with
  | literal | name => trivial
  | call ts c =>
    obtain ⟨f, args, labels, body, templateArgs, isBinding, isMethod⟩ := c
    cases body with
    | none =>
      refine ⟨fun a ha s hs => h s (List.mem_cons_of_mem _ (mem_withinList.mpr ⟨a, ha, hs⟩)), ?_⟩
      exact fun _ hl => nomatch hl
    | some body =>
      constructor
      · intro a ha s hs
        exact h s (List.mem_cons_of_mem _ (List.mem_append_left _ (mem_withinList.mpr ⟨a, ha, hs⟩)))
      · rintro l hl b hb s hs
        cases hl
        exact h s (List.mem_cons_of_mem _ (List.mem_append_right _ (mem_withinList.mpr ⟨b, hb, hs⟩)))

def callName? : Expr → Option String
  | .call _ c => if c.isBinding then none else some c.name
  | _ => none

theorem size_pos : 0 < e.size := by
  cases e with
  | literal | name => exact Nat.one_pos
  | call ts c =>
    obtain ⟨f, args, labels, body, templateArgs, isBinding, isMethod⟩ := c
    cases body <;> exact Nat.succ_pos _

theorem size_le_sizeList (h : e ∈ l) : e.size ≤ sizeList l := by
  induction l with
  | nil => exact absurd h List.not_mem_nil
  | cons e' l ih =>
    rw [sizeList]
    rcases List.mem_cons.mp h with rfl | h
    · exact Nat.le_add_right ..
    · exact Nat.le_trans (ih h) (Nat.le_add_left ..)

theorem parts_size : e.Parts (·.size < e.size) := by
  cases e with
  | literal | name => trivial
  | call ts c =>
    obtain ⟨f, args, labels, body, templateArgs, isBinding, isMethod⟩ := c
    cases body with
    | none =>
      refine ⟨fun a ha => ?_, fun _ hl => nomatch hl⟩
      have ha : a.size ≤ sizeList args := size_le_sizeList ha
      rw [size]
      omega
    | some body =>
      constructor
      · intro a ha
        have ha : a.size ≤ sizeList args := size_le_sizeList ha
        rw [size]
        omega
      · rintro l hl b hb
        cases hl
        have hb : b.size ≤ sizeList body := size_le_sizeList hb
        rw [size]
        omega

theorem parts_size_le {n : Nat} (h : e.size ≤ n) : e.Parts (·.size ≤ n) := by
  have hparts := e.parts_size
  cases e with
  | literal | name => trivial
  | call ts c =>
    refine ⟨fun a ha => ?_, fun l hl b hb => ?_⟩
    · have := hparts.1 a ha
      omega
    · have := hparts.2 l hl b hb
      omega

end Expr

/-- What is in the blocks of a call has the property `Z`, if what is in the blocks of its arguments and in its own has. -/
theorem CallOf.parts_blocks {Z : Expr → Prop} {c : Call} (hargs : ∀ a ∈ c.args, a.Parts Z)
    (hbody : ∀ l, c.body = some l → ∀ s ∈ l, Z s) : ∀ body ∈ c.blocks, ∀ s ∈ body, Z s := by
  intro body hmem
  rcases List.mem_append.mp hmem with hmem | hmem
  · obtain ⟨a, ha, hbody⟩ := List.mem_filterMap.mp hmem
    exact (hargs a ha).body hbody
  · exact hbody body (Option.mem_toList.mp hmem)

def Definition.expressions (d : Definition) : List Expr := d.parameters ++ d.statements ++ d.result.toList

def Execution.expressions (x : Execution) : List Expr := x.arguments ++ x.body

def Program.within (p : Program) : List Expr :=
  Expr.withinList (p.definitions.flatMap Definition.expressions ++ p.executions.flatMap Execution.expressions)

def Program.callNames (p : Program) : List String := p.within.filterMap Expr.callName?

def Program.transformNames (p : Program) : List String :=
  (p.within.flatMap Expr.transforms ++ p.definitions.flatMap (·.transforms) ++ p.executions.flatMap (·.transforms)).map (·.name)

section
variable {p : Program} {d : Definition} {e : Expr} {P : Expr → Prop}

theorem Definition.mem_body : e ∈ d.body ↔ e ∈ d.statements ∨ ∃ r, d.result = some r ∧ e = .plainCall "return" [r] := by
  unfold Definition.body
  cases d.result <;> simp

/-- What holds of everything in a program, and of a `return` of such, holds of everything in the body of a definition. -/
theorem Program.all_of_within (h : ∀ s ∈ p.within, P s) (hd : d ∈ p.definitions)
    (hreturn : ∀ r, r.All P → P (.plainCall "return" [r])) :
    (∀ e ∈ d.parameters, e.All P) ∧ ∀ e ∈ d.body, e.All P := by
  have hall {e : Expr} (he : e ∈ d.expressions) : e.All P := fun s hs =>
    h s (Expr.mem_withinList.mpr ⟨e, List.mem_append_left _ (List.mem_flatMap.mpr ⟨d, hd, he⟩), hs⟩)
  refine ⟨fun e he => hall (by simp [Definition.expressions, he]), fun e he => ?_⟩
  rcases Definition.mem_body.mp he with he | ⟨r, hr, rfl⟩
  · exact hall (by simp [Definition.expressions, he])
  · have hr : r.All P := hall (by simp [Definition.expressions, hr])
    intro s hs
    rcases List.mem_cons.mp hs with rfl | hs
    · exact hreturn r hr
    · obtain ⟨e, he, hs⟩ := Expr.mem_withinList.mp hs
      exact hr s (List.mem_singleton.mp he ▸ hs)

theorem Program.size_definition (hd : d ∈ p.definitions) : d.size < p.size := by
  obtain ⟨before, after, h⟩ := List.append_of_mem hd
  simp only [Program.size, h, List.map_append, List.map_cons, List.sum_append, List.sum_cons]
  omega

/-- What a definition is made of is smaller than the definition, except for the `return` of its result. -/
theorem Definition.size_parts : (∀ e ∈ d.parameters, e.size < d.size) ∧ ∀ e ∈ d.body, e.size ≤ d.size := by
  unfold Definition.size
  constructor
  · intro e he
    have := Expr.size_le_sizeList he
    omega
  · intro e he
    rcases Definition.mem_body.mp he with he | ⟨r, hr, rfl⟩
    · have := Expr.size_le_sizeList he
      omega
    · simp [hr, Expr.plainCall, Expr.size, Expr.sizeList]

end
end FlatCode
