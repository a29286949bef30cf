import FlatCode.Program.Build
import FlatCode.Proofs.Questions

/-! Lowering comes to an end: the depth to which a program is lowered is never used up, and a greater one gives the same.
    An expression is lowered in fewer steps than its size, except where a call is expanded, and there is one definition
    less that can be. -/

namespace FlatCode

def Expr.isExpanded : Expr → Bool
  | .call _ c => !c.isBinding && c.builtin?.isNone
  | _ => false

namespace Scope
variable {scope : Scope} {d : Definition} {l : List String}

def unlisted (scope : Scope) (l : List String) : Nat := scope.definitions.countP fun d => decide (d.path ∉ l)

theorem unlisted_le : scope.unlisted l ≤ scope.definitions.length := List.countP_le_length

theorem unlisted_cons (hd : d ∈ scope.definitions) (hfree : d.path ∉ l) :
    scope.unlisted (d.path :: l) < scope.unlisted l := by
  obtain ⟨before, after, hsplit⟩ := List.append_of_mem hd
  have hmono (ds : List Definition) : ds.countP (fun e => decide (e.path ∉ d.path :: l)) ≤
      ds.countP fun e => decide (e.path ∉ l) :=
    List.countP_mono_left fun e _ h => by simp_all
  have hlisted : decide (d.path ∉ d.path :: l) = false := by simp
  have hbefore := hmono before
  have hafter := hmono after
  simp only [unlisted, hsplit, List.countP_append, List.countP_cons, hlisted, decide_eq_true hfree]
  simp only [Bool.false_eq_true, if_false, if_true]
  omega

end Scope

namespace Lower

section
variable (p : Program) (scope : Scope)

/-- The steps that are enough to lower any body, or to infer its result. -/
def bodyCost : Nat := 2 * p.size + 8

def bodyCosts (l : List String) : Nat := scope.unlisted l * bodyCost p

def InferredIn (n : Nat) (site : Site) (e : Expr) : Prop := bodyCosts p scope site.busy + e.size + 1 ≤ n

/-- An expression that is lowered in `n` steps: nothing in it is expanded, or there is room for what is. -/
def LoweredIn (n : Nat) (ctx : Context) (e : Expr) : Prop :=
  ctx.scope = scope ∧ ctx.inferrer = .atDepth scope p.depth ∧ e.size ≤ p.size ∧
    (e.All (·.isExpanded = false) ∧ e.size ≤ n ∨ bodyCosts p scope ctx.expanding + e.size ≤ n)

end

section
variable {p : Program} {scope : Scope} {d : Definition} {l : List String} {n : Nat}

theorem bodyCosts_cons (hd : d ∈ scope.definitions) (hfree : d.path ∉ l) :
    bodyCosts p scope (d.path :: l) + bodyCost p ≤ bodyCosts p scope l := by
  have := Nat.mul_le_mul_right (bodyCost p) (Scope.unlisted_cons hd hfree)
  rwa [Nat.succ_mul] at this

variable (hdefinitions : scope.definitions = p.definitions)
include hdefinitions

theorem bodyCosts_le : bodyCosts p scope l + bodyCost p ≤ p.depth := by
  have hcount : scope.unlisted l ≤ p.definitions.length := hdefinitions ▸ Scope.unlisted_le
  have := Nat.mul_le_mul_right (bodyCost p) (Nat.succ_le_succ hcount)
  rwa [Nat.succ_mul] at this

theorem size_of_definition (hd : d ∈ scope.definitions) :
    (∀ e ∈ d.parameters, e.size < p.size) ∧ ∀ e ∈ d.body, e.size ≤ p.size := by
  have hsize := Program.size_definition (hdefinitions ▸ hd)
  obtain ⟨hparameters, hbody⟩ := d.size_parts
  exact ⟨fun e he => Nat.lt_trans (hparameters e he) hsize, fun e he => Nat.le_trans (hbody e he) (Nat.le_of_lt hsize)⟩

/-- Whatever is inferred needs fewer steps inside, and fewer for what a call means. -/
theorem coverage_inferredIn : Inferrer.Coverage (fun _ => True) False scope scope (InferredIn p scope) fun n _ => 0 < n where
  stable := ReturnCache.stable_true
  zero h := absurd h (Nat.not_succ_le_zero _)
  weaken h := Nat.le_succ_of_le h
  parts {n site e} h := by
    have hparts := e.parts_size
    unfold InferredIn at h
    cases e with
    | literal | name => trivial
    | call ts c =>
      refine ⟨fun a ha => ?_, fun l hl s hs => ?_⟩
      · have := hparts.1 a ha
        unfold InferredIn
        omega
      · have := hparts.2 l hl s hs
        unfold InferredIn
        omega
  alike _ := .refl
  zeroBlock := Nat.lt_irrefl 0
  block {n site e} h := by
    have := e.size_pos
    unfold InferredIn at h
    omega
  callee {n site ts c d} h _ _ hd _ hfree := by
    obtain ⟨hparameters, hbody⟩ := size_of_definition hdefinitions hd
    have hcosts := bodyCosts_cons (p := p) hd hfree
    have hcall := (Expr.call ts c).size_pos
    unfold InferredIn at h ⊢
    unfold bodyCost at hcosts
    refine ⟨by omega, fun e he => ?_, fun e he => ?_⟩
    · have := hparameters e he
      show bodyCosts p scope (d.path :: site.busy) + _ + 1 ≤ _
      omega
    · have := hbody e he
      show bodyCosts p scope (d.path :: site.busy) + _ + 1 ≤ _
      omega

/-- What a definition returns is found at the depth of the program. -/
theorem tracks_result (hd : d ∈ scope.definitions) (k : Nat) :
    Infer.InStep (fun _ => True) False (returnInfo scope (.atDepth scope p.depth) [] d)
      (returnInfo scope (.atDepth scope (p.depth + k)) [] d) := by
  have hY := coverage_inferredIn hdefinitions
  have hdepth := bodyCosts_le hdefinitions (l := [d.path])
  unfold bodyCost at hdepth
  obtain ⟨hparameters, hbody⟩ := size_of_definition hdefinitions hd
  refine tracks_returnInfo hY (Inferrer.tracks_atDepth hY p.depth k) fun _ _ =>
    ⟨by omega, fun e he => ?_, fun e he => ?_⟩
  · have := hparameters e he
    show bodyCosts p scope [d.path] + _ + 1 ≤ _
    omega
  · have := hbody e he
    show bodyCosts p scope [d.path] + _ + 1 ≤ _
    omega

/-- Whatever is lowered needs fewer steps inside, and fewer for the body of what a call means. Its defaults are lowered
    where the call stands, but nothing in them is expanded. -/
theorem coverage_loweredIn
    (hdefaults : ∀ d ∈ p.definitions, ∀ e ∈ d.parameters, ∀ i ∈ e.initial?, i.All (·.isExpanded = false))
    (k : Nat) : Coverage { stops := fun _ => False, mayLoop := True } scope (.atDepth scope (p.depth + k))
      (LoweredIn p scope) where
  zero {ctx e} h := by
    have := e.size_pos
    obtain ⟨-, -, -, ⟨-, h⟩ | h⟩ := h <;> omega
  weaken {n ctx e} h := by
    obtain ⟨hscope, hI, hsize, hroom⟩ := h
    exact ⟨hscope, hI, hsize, hroom.imp (fun h => ⟨h.1, Nat.le_succ_of_le h.2⟩) Nat.le_succ_of_le⟩
  parts {n ctx e} h := by
    obtain ⟨hscope, hI, hsize, hroom⟩ := h
    have hparts := e.parts_size
    have hpart {a : Expr} (ha : a.size < e.size) (hall : e.All (·.isExpanded = false) → a.All (·.isExpanded = false)) :
        LoweredIn p scope n ctx a :=
      ⟨hscope, hI, by omega, hroom.imp (fun h => ⟨hall h.1, by omega⟩) fun h => by omega⟩
    cases e with
    | literal | name => trivial
    | call ts c =>
      exact ⟨fun a ha => hpart (hparts.1 a ha) fun h => h.parts.1 a ha,
        fun l hl s hs => hpart (hparts.2 l hl s hs) fun h => h.parts.2 l hl s hs⟩
  effects _ h := h
  behind h := h
  alike {n ctx e} h := by
    obtain ⟨rfl, -⟩ := h
    exact .refl
  operand {n ctx e home locals} h := by
    obtain ⟨-, hI, hsize, -⟩ := h
    rw [hI]
    refine (Inferrer.tracks_atDepth (coverage_inferredIn hdefinitions) p.depth k).operand ?_
    have hdepth := bodyCosts_le hdefinitions (l := [])
    unfold bodyCost at hdepth
    show bodyCosts p scope [] + _ + 1 ≤ _
    omega
  loops _ _ _ := trivial
  returns {n ctx ts c d} h _ _ hd := by
    obtain ⟨rfl, hI, -⟩ := h
    rw [hI]
    exact tracks_result hdefinitions hd k
  callee {n ctx ts c d} h hbinding hb hd _ hfree := by
    obtain ⟨rfl, hI, -, hroom⟩ := h
    have hexpanded : (Expr.call ts c).isExpanded = true := by simp [Expr.isExpanded, hbinding, hb]
    replace hroom := hroom.resolve_left fun h => nomatch hexpanded.symm.trans h.1.self
    have hcall := (Expr.call ts c).size_pos
    have hcosts := bodyCosts_cons (p := p) hd hfree
    unfold bodyCost at hcosts
    obtain ⟨hparameters, hbody⟩ := size_of_definition hdefinitions hd
    refine ⟨fun e he => ⟨.refl, fun i hi => ⟨rfl, hI, ?_, .inl ⟨hdefaults d (hdefinitions ▸ hd) e he i hi, ?_⟩⟩⟩,
      fun _ _ _ e he => ⟨rfl, hI, hbody e he, .inr ?_⟩⟩
    · have := e.parts_size.initial hi
      have := hparameters e he
      omega
    · have := e.parts_size.initial hi
      have := hparameters e he
      omega
    · have := hbody e he
      show bodyCosts p ctx.scope (d.path :: ctx.expanding) + _ ≤ _
      omega

end

section
variable {p : Program} {entry : String} {defaults entryDefaults : List String}
  (hdefaults : ∀ d ∈ p.definitions, ∀ e ∈ d.parameters, ∀ i ∈ e.initial?, i.All (·.isExpanded = false))
include hdefaults

/-- A program is lowered at its depth, and a greater one makes no difference. -/
theorem beside_depth (k : Nat) : Beside { stops := fun _ => False, mayLoop := True }
    (p.lowered entry defaults entryDefaults) (p.loweredTo (p.depth + k) entry defaults entryDefaults) := by
  cases hscope : Scope.build p with
  | error e =>
    have hlowered (n : Nat) : p.loweredTo n entry defaults entryDefaults = .error e := by
      unfold Program.loweredTo Program.loweredWith
      rw [hscope]
      rfl
    rw [Program.lowered, hlowered, hlowered]
    exact .refl fun h => Scope.shallow_build (hscope.trans (congrArg _ (Except.error.inj h)))
  | ok scope =>
    have hdefinitions := Scope.definitions_of_build hscope
    refine beside_lowered trivial hscope hscope (coverage_loweredIn hdefinitions hdefaults k) (Nat.le_add_right ..) rfl
      (fun _ => rfl) fun d hd => ?_
    have hd := Scope.mem_of_get? hd
    refine ⟨tracks_result hdefinitions hd k, fun _ _ => .refl, fun ctx hctx hI hexpanding e he => ?_⟩
    have hsize := (size_of_definition hdefinitions hd).2 e he
    have hdepth := bodyCosts_le hdefinitions (l := [d.path])
    unfold bodyCost at hdepth
    exact ⟨hctx, hI, hsize, .inr (by rw [hexpanding]; omega)⟩

theorem lowered_ne_tooDeep : p.lowered entry defaults entryDefaults ≠ .error .tooDeep := by
  rcases beside_depth hdefaults 0 with ⟨e, he, hstop | ⟨hdeep, -⟩⟩ | ⟨l, hl, -⟩
  · exact hstop.elim
  · exact he ▸ fun h => hdeep (Except.error.inj h)
  · exact hl ▸ nofun

theorem loweredTo_eq_lowered {n : Nat} (hn : p.depth ≤ n) :
    p.loweredTo n entry defaults entryDefaults = p.lowered entry defaults entryDefaults := by
  obtain ⟨k, rfl⟩ := Nat.exists_eq_add_of_le hn
  rcases beside_depth hdefaults k with ⟨e, he, hstop | ⟨-, he'⟩⟩ | ⟨l, hl, hl'⟩
  · exact hstop.elim
  · exact he'.trans he.symm
  · exact hl'.trans hl.symm

end

/-- Lowering terminates, if no default of a parameter calls a definition or a method. It does not give up, to whatever
    greater depth it is taken, and neither does any part of it. The definitions that are being expanded within one another
    are pairwise different, and so are those whose results are being inferred. A call that is lowered while its definition
    is being expanded is an error, unless the effects around it are one before. -/
theorem lowering_terminates {p : Program} {entry : String} {defaults entryDefaults : List String}
    (hdefaults : ∀ d ∈ p.definitions, ∀ e ∈ d.parameters, ∀ i ∈ e.initial?, i.All (·.isExpanded = false)) :
    p.lower entry defaults entryDefaults ≠ .error .tooDeep ∧
      (∀ n, p.depth ≤ n → p.loweredTo n entry defaults entryDefaults = p.lowered entry defaults entryDefaults) ∧
      (∀ depth n q, Asks p depth entry defaults entryDefaults n q →
        (p.depth ≤ depth → ¬q.Fails (.atDepth n) .tooDeep) ∧
          q.ctx.expanding.Nodup ∧ ∀ path ∈ q.ctx.expanding, ∃ d ∈ p.definitions, d.path = path) ∧
      (∀ depth n q, AsksInference p depth entry defaults entryDefaults n q →
        q.site.busy.Nodup ∧ ∀ path ∈ q.site.busy, ∃ d ∈ p.definitions, d.path = path) ∧
      ∀ depth n q ts c d t, p.depth ≤ depth → Asks p depth entry defaults entryDefaults n q → q.subject = .call ts c →
        c.isBinding = false → c.builtin? = none → q.ctx.callee q.locals c q.state = .ok (d, t) →
        d.path ∈ q.ctx.expanding →
        p.lower entry defaults entryDefaults = .error (.lowering (.recursiveCall d.path)) ∨
          ∃ e, q.ctx.inside q.subject = .error e ∧ p.lower entry defaults entryDefaults = .error e := by
  have hdepth : p.lowered entry defaults entryDefaults ≠ .error .tooDeep := lowered_ne_tooDeep hdefaults
  have hlower {e : Error} (h : p.lowered entry defaults entryDefaults = .error e) :
      p.lower entry defaults entryDefaults = .error e := by
    unfold Program.lower
    rw [h]
    split
    case h_1 heq => exact absurd (h.trans heq) hdepth
    case h_2 => rfl
  have hfails {depth n : Nat} {q : Question} {f : Error} (hle : p.depth ≤ depth)
      (h : Asks p depth entry defaults entryDefaults n q) (hf : q.Fails (.atDepth n) f) :
      p.lowered entry defaults entryDefaults = .error f := by
    obtain ⟨e, he, hcause⟩ := h.fails hf
    rw [loweredTo_eq_lowered hdefaults hle] at he
    rcases hcause with rfl | rfl
    · exact absurd he hdepth
    · exact he
  refine ⟨?_, fun n hn => loweredTo_eq_lowered hdefaults hn,
    fun depth n q h => ⟨fun hle hf => hdepth (hfails hle h hf), h.expanding⟩, fun depth n q h => h.busy,
    fun depth n q ts c d t hle h hq hbinding hb hcallee hexpanding => ?_⟩
  · cases hl : p.lowered entry defaults entryDefaults with
    | error e => exact fun h => hdepth (hl.trans (congrArg _ (Except.error.inj ((hlower hl).symm.trans h))))
    | ok l =>
      unfold Program.lower
      rw [hl]
      nofun
  · obtain ⟨f, hf, rfl | rfl | hinside⟩ := Question.fails_of_expanding hq hbinding hb hcallee hexpanding n
    · exact absurd (hfails hle h hf) hdepth
    · exact .inl (hlower (hfails hle h hf))
    · exact .inr ⟨f, hinside, hlower (hfails hle h hf)⟩

/-! ### A program that calls itself -/

def recursingEntry : Definition := {
  path := "/main"
  transforms := [{ name := "return", templateArgs := ["i32"] }]
  result := some (.plainCall "main" []) }

def recursing : Program := {
  definitions := [recursingEntry,
    { path := "/next"
      transforms := [{ name := "return", templateArgs := ["i32"] }]
      parameters := [.call [{ name := "i32" }]
        { name := "x", args := [.plainCall "plus" [.int32 1, .int32 2]], labels := [none], isBinding := true }]
      result := some (.ident "x") }] }

def recursingContext (returns : ReturnInfo) : Context := {
  scope := { definitions := recursing.definitions, aliases := [] }
  inferrer := .atDepth { definitions := recursing.definitions, aliases := [] } recursing.depth
  defaults := .empty, home := "/main", effects := .empty, expanding := ["/main"], target := .run returns }

def recursingState : State := { cache := [("/main", .value .int32)] }

/-- The only statement of the entry is the first that is lowered. -/
theorem recursing_body {E : Emitter} {f : Error}
    (h : E.statement (recursingContext (.value .int32)) [] (.plainCall "return" [.plainCall "main" []]) recursingState =
      .error f) :
    recursing.loweredWith (Inferrer.atDepth · recursing.depth) E "/main" [] [] = .error f := by
  have hentry : lowerEntry E (recursingContext .void) recursingEntry {} = .error f :=
    lowerEntry_of_statement rfl rfl rfl rfl h
  unfold Program.loweredWith
  rw [show Scope.build recursing = .ok { definitions := recursing.definitions, aliases := [] } from rfl]
  show (lowerEntry E (recursingContext .void) recursingEntry {} >>= fun r => _) = _
  rw [hentry]
  rfl

theorem recursing_asks : ∃ n, Asks recursing recursing.depth "/main" [] [] n
    (.expr (recursingContext (.value .int32)) [] (.plainCall "main" []) recursingState) := by
  obtain ⟨n, hn⟩ : ∃ n, recursing.depth = n + 1 := ⟨_, rfl⟩
  have hbody {m : Nat} (hm : recursing.depth = m) : Asks recursing recursing.depth "/main" [] [] m
      (.statement (recursingContext (.value .int32)) [] (.plainCall "return" [.plainCall "main" []]) recursingState) := by
    subst hm
    exact .start (dependsOn_of_strict fun _ _ _ hf => recursing_body hf)
  exact ⟨n, .statement (hbody hn) (dependsOn_of_strict fun _ _ _ hf => lowerStatement_of_returned rfl hf)⟩

/-- The call is lowered while its definition is being expanded, so the program is refused. -/
theorem recursing_terminates :
    (∀ d ∈ recursing.definitions, ∀ e ∈ d.parameters, ∀ i ∈ e.initial?, i.All (·.isExpanded = false)) ∧
      recursing.lower "/main" [] [] = .error (.lowering (.recursiveCall "/main")) := by
  have hdefaults : ∀ d ∈ recursing.definitions, ∀ e ∈ d.parameters, ∀ i ∈ e.initial?, i.All (·.isExpanded = false) := by
    unfold Expr.All
    decide
  obtain ⟨n, hasks⟩ := recursing_asks
  obtain ⟨-, -, -, -, hrecursive⟩ := @lowering_terminates recursing "/main" [] [] hdefaults
  have hcall := hrecursive _ n _ _ _ recursingEntry recursingState (Nat.le_refl _) hasks rfl rfl rfl rfl List.mem_cons_self
  refine ⟨hdefaults, hcall.resolve_right ?_⟩
  rintro ⟨e, he, -⟩
  exact nomatch he

end Lower
end FlatCode
