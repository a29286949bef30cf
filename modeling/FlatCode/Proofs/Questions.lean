import FlatCode.Proofs.Lockstep.Entry

/-! The questions that lowering asks itself on its way. A step of lowering is written for any emitter and any inference, so
    what it asks of them is what its outcome depends on. The questions that are asked from a program on stand where each
    definition is being expanded, or inferred, at most once; and a question that fails makes the lowering fail. -/

namespace FlatCode

/-- The value of `f` depends on `o` beyond what the relation keeps. -/
def DependsOn {α β : Type} (R : α → α → Prop) (f : α → β) (o : α) : Prop := ∃ o', R o o' ∧ f o' ≠ f o

structure Scope.Distinct (scope : Scope) (l : List String) : Prop where
  nodup : l.Nodup
  definitions : ∀ path ∈ l, ∃ d ∈ scope.definitions, d.path = path

namespace Scope.Distinct
variable {scope : Scope} {l : List String} {d : Definition}

theorem nil : scope.Distinct [] := ⟨.nil, nofun⟩

theorem cons (h : scope.Distinct l) (hd : d ∈ scope.definitions) (hfree : d.path ∉ l) : scope.Distinct (d.path :: l) :=
  ⟨List.nodup_cons.mpr ⟨hfree, h.nodup⟩, List.forall_mem_cons.mpr ⟨⟨d, hd, rfl⟩, h.definitions⟩⟩

end Scope.Distinct

namespace Lower

/-- What goes together both ways is the same, if it is only with depth that it may stop. -/
theorem Beside.eq {α : Type} {g : Pace} {x y : Except Error α} (hg : ∀ e, g.stops e → e = .tooDeep) (h : Beside g x y)
    (h' : Beside g y x) : x = y := by
  rcases h with ⟨e, hx, hstop | ⟨-, hy⟩⟩ | ⟨a, hx, hy⟩
  · rcases h' with ⟨e', hy, hstop' | ⟨hdeep, hx'⟩⟩ | ⟨a, -, hx'⟩
    · rw [hx, hy, hg e hstop, hg e' hstop']
    · cases hx.symm.trans hx'
      exact absurd (hg e hstop) hdeep
    · exact nomatch hx.symm.trans hx'
  · exact hx.trans hy.symm
  · exact hx.trans hy.symm

/-! ### Questions to an emitter -/

/-- What an emitter is asked: to lower an expression or a statement, in a context and a scope, from some state. -/
inductive Question where
  | expr (ctx : Context) (locals : Locals) (e : Expr) (s : State)
  | statement (ctx : Context) (locals : Locals) (e : Expr) (s : State)

namespace Question

def ctx : Question → Context
  | expr ctx _ _ _ | statement ctx _ _ _ => ctx

def locals : Question → Locals
  | expr _ locals _ _ | statement _ locals _ _ => locals

def subject : Question → Expr
  | expr _ _ e _ | statement _ _ e _ => e

def state : Question → State
  | expr _ _ _ s | statement _ _ _ s => s

def Fails (E : Emitter) (f : Error) : Question → Prop
  | expr ctx locals e s => E.expr ctx locals e s = .error f
  | statement ctx locals e s => E.statement ctx locals e s = .error f

end Question

structure Emitter.AgreeOff (q : Question) (E E' : Emitter) : Prop where
  expr : ∀ ctx locals e s, q ≠ .expr ctx locals e s → E.expr ctx locals e s = E'.expr ctx locals e s
  statement : ∀ ctx locals e s, q ≠ .statement ctx locals e s → E.statement ctx locals e s = E'.statement ctx locals e s

variable {d : Definition} {E E' : Emitter} {defaults entryDefaults : List String} {p : Program}
  {I I' : Scope → Inferrer} {entry : String}

theorem Emitter.AgreeOff.symm {q : Question} (h : E.AgreeOff q E') : E'.AgreeOff q E :=
  ⟨fun _ _ _ _ hq => (h.expr _ _ _ _ hq).symm, fun _ _ _ _ hq => (h.statement _ _ _ _ hq).symm⟩

open Classical in
noncomputable def Emitter.failingAt (E : Emitter) (q : Question) (f : Error) : Emitter where
  expr ctx locals e s := if q = .expr ctx locals e s then .error f else E.expr ctx locals e s
  statement ctx locals e s := if q = .statement ctx locals e s then .error f else E.statement ctx locals e s

theorem Emitter.agreeOff_failingAt (E : Emitter) (q : Question) (f : Error) : E.AgreeOff q (E.failingAt q f) :=
  ⟨fun _ _ _ _ hq => (if_neg hq).symm, fun _ _ _ _ hq => (if_neg hq).symm⟩

theorem Emitter.fails_failingAt (E : Emitter) (q : Question) (f : Error) : q.Fails (E.failingAt q f) f := by
  cases q <;> exact if_pos rfl

/-- A question whose faults all come through is asked. -/
theorem dependsOn_of_strict {β : Type} {φ : Emitter → Except Error β} {q : Question}
    (h : ∀ E' f, E.AgreeOff q E' → q.Fails E' f → φ E' = .error f) : DependsOn (Emitter.AgreeOff q) φ E := by
  have hfails (f : Error) : φ (E.failingAt q f) = .error f := h _ f (E.agreeOff_failingAt q f) (E.fails_failingAt q f)
  -- One of two faults is not the outcome as it is.
  by_cases hdeep : φ E = .error .tooDeep
  · refine ⟨_, E.agreeOff_failingAt q (.lowering .capacity), ?_⟩
    rw [hfails, hdeep]
    nofun
  · refine ⟨_, E.agreeOff_failingAt q .tooDeep, ?_⟩
    rw [hfails]
    exact fun h => hdeep h.symm

/-- An entry is refused with the error of its first statement. -/
theorem lowerEntry_of_statement {ctx : Context} {locals : Locals} {s t u : State}
    {returns : ReturnInfo} {e : Expr} {rest : List Expr} {f : Error} (hinfo : ctx.returnInfo d s = .ok (returns, t))
    (hlocals : entryLocals ctx.scope d t = .ok (locals, u)) (hreturns : (!returns.isVoid && !Returns.contains d.body) = false)
    (hbody : d.body = e :: rest) (h : E.statement { ctx with target := .run returns } locals e u = .error f) :
    lowerEntry E ctx d s = .error f := by
  have hblock : E.block { ctx with target := .run returns } locals d.body u = .error f := by
    rw [hbody]
    show ((E.statement { ctx with target := .run returns } locals e u >>= fun r => _) >>= fun r => _) = _
    rw [h]
    rfl
  unfold lowerEntry
  show (ctx.returnInfo d s >>= fun r => _) = _
  rw [hinfo]
  show (entryLocals ctx.scope d t >>= fun r => _) = _
  rw [hlocals]
  simp only [hreturns]
  show (E.block { ctx with target := .run returns } locals d.body u >>= fun r => _) = _
  rw [hblock]
  rfl

theorem lowerStatement_return {ctx : Context} {locals : Locals} {s : State} {e : Expr} {f : Error}
    (h : lowerReturn E ctx locals (some e) s = .error f) :
    lowerStatement E ctx locals (.plainCall "return" [e]) s = .error f := by
  show (lowerReturn E ctx locals (some e) s >>= fun r => _) = _
  rw [h]
  rfl

/-- A `return` is refused with the error of its value. -/
theorem lowerStatement_of_returned {ctx : Context} {locals : Locals} {s : State} {kind : Kind} {e : Expr}
    {f : Error} (htarget : ctx.target = .run (.value kind)) (h : E.expr ctx locals e s = .error f) :
    lowerStatement E ctx locals (.plainCall "return" [e]) s = .error f := by
  refine lowerStatement_return ?_
  unfold lowerReturn
  rw [htarget]
  show (E.expr ctx locals e s >>= fun r => _) = _
  rw [h]
  rfl

/-- The questions that are asked in the course of lowering a program to some depth, with the depth of the emitter that they
    are put to. -/
inductive Asks (p : Program) (depth : Nat) (entry : String) (defaults entryDefaults : List String) :
    Nat → Question → Prop
  | start {q} : DependsOn (Emitter.AgreeOff q)
      (fun E => p.loweredWith (Inferrer.atDepth · depth) E entry defaults entryDefaults) (.atDepth depth) →
      Asks p depth entry defaults entryDefaults depth q
  | expr {n ctx locals e s q} : Asks p depth entry defaults entryDefaults (n + 1) (.expr ctx locals e s) →
      DependsOn (Emitter.AgreeOff q) (fun E => emitExpr E ctx locals e s) (.atDepth n) →
      Asks p depth entry defaults entryDefaults n q
  | statement {n ctx locals e s q} : Asks p depth entry defaults entryDefaults (n + 1) (.statement ctx locals e s) →
      DependsOn (Emitter.AgreeOff q) (fun E => lowerStatement E ctx locals e s) (.atDepth n) →
      Asks p depth entry defaults entryDefaults n q

/-- A context in which no definition is being expanded twice. -/
structure Place (scope : Scope) (depth : Nat) (ctx : Context) : Prop where
  scope_eq : ctx.scope = scope
  inferrer_eq : ctx.inferrer = .atDepth scope depth
  expanding : scope.Distinct ctx.expanding

section
variable {scope : Scope} {depth : Nat} {g : Pace}

/-- Contexts in a scope that lowering does not leave: they are closed under the effects around an expression, under
    operands that wait, and under the bodies of what is not being expanded. -/
structure Region (scope : Scope) (depth : Nat) (Z : Context → Prop) : Prop where
  scope_eq : ∀ {ctx}, Z ctx → ctx.scope = scope
  inferrer_eq : ∀ {ctx}, Z ctx → ctx.inferrer = .atDepth scope depth
  effects : ∀ {ctx} effects, Z ctx → Z { ctx with effects }
  behind : ∀ {ctx}, Z ctx → Z ctx.behind
  body : ∀ {ctx d effects returns slot}, Z ctx → d ∈ scope.definitions → d.path ∉ ctx.expanding →
    Z (bodyContext ctx d effects returns slot)

theorem region_place : Region scope depth (Place scope depth) where
  scope_eq := Place.scope_eq
  inferrer_eq := Place.inferrer_eq
  effects _ h := ⟨h.scope_eq, h.inferrer_eq, h.expanding⟩
  behind h := ⟨h.scope_eq, h.inferrer_eq, h.expanding⟩
  body h hd hfree := ⟨h.scope_eq, h.inferrer_eq, h.expanding.cons hd hfree⟩

variable {Z : Context → Prop}

theorem Region.over (hZ : Region scope depth Z) {ctx : Context} (h : Z ctx) :
    ctx.over scope (.atDepth scope depth) = ctx := by
  rw [← hZ.inferrer_eq h, ← hZ.scope_eq h]
  rfl

/-- From a context in a region on, lowering stays in it. -/
theorem Region.coverage (hZ : Region scope depth Z) (hstops : g.stops .tooDeep) (hloop : g.mayLoop) :
    Coverage g scope (.atDepth scope depth) fun _ ctx _ => Z ctx where
  zero _ := hstops
  weaken := id
  parts {n ctx e} h := by
    cases e with
    | literal | name => trivial
    | call ts c => exact ⟨fun _ _ => h, fun _ _ _ _ => h⟩
  effects := hZ.effects
  behind := hZ.behind
  alike h := hZ.scope_eq h ▸ .refl
  operand h := hZ.inferrer_eq h ▸
    (Inferrer.tracks_atDepth (Uniform.refl hstops hloop).inferrer depth 0).operand fun _ _ => trivial
  loops _ _ _ := hloop
  returns {n ctx ts c d} h _ _ hd := by
    obtain rfl := hZ.scope_eq h
    exact hZ.inferrer_eq h ▸ (Uniform.refl hstops hloop).returns hd depth 0
  callee h _ _ hd _ hfree :=
    ⟨fun _ _ => ⟨hZ.scope_eq h ▸ .refl, fun _ _ => h⟩,
      fun _ _ _ _ _ => hZ.body h (hZ.scope_eq h ▸ hd) hfree⟩

theorem beside_of_eq {α : Type} {x y : Except Error α} (hstops : g.stops .tooDeep) (h : x = y) : Beside g x y := by
  subst h
  cases x with
  | ok a => exact .inr ⟨a, rfl, rfl⟩
  | error e =>
    by_cases he : e = .tooDeep
    · exact .inl ⟨e, rfl, .inl (he ▸ hstops)⟩
    · exact .inl ⟨e, rfl, .inr ⟨he, rfl⟩⟩

/-- Emitters that differ on one question go in lockstep where it is not asked, and where it is but the first one stops. -/
theorem Emitter.AgreeOff.handles {q : Question} (h : E.AgreeOff q E') {stops : Error → Prop} (hstops : stops .tooDeep)
    (hZ : Region scope depth Z) (hq : Z q.ctx → ∃ f, q.Fails E f ∧ stops f) :
    E.Handles (.along stops) scope (.atDepth scope depth) (fun ctx _ => Z ctx) E' where
  expr {ctx locals e} hctx _ := by
    refine ⟨fun s _ => ?_, fun hstraight => absurd trivial hstraight.1⟩
    rw [hZ.over hctx]
    by_cases hs : q = .expr ctx locals e s
    · subst hs
      obtain ⟨f, hf, hstop⟩ := hq hctx
      exact .inl ⟨f, hf, .inl hstop⟩
    · rcases beside_of_eq (g := .along stops) hstops (h.expr ctx locals e s hs) with hfail | ⟨⟨a, t⟩, hx, hy⟩
      · exact .inl hfail
      · exact .inr ⟨a, t, hx, hy, trivial, trivial⟩
  statement {ctx locals e} hctx _ := by
    refine ⟨fun s _ => ?_, fun hstraight => absurd trivial hstraight.1⟩
    rw [hZ.over hctx]
    by_cases hs : q = .statement ctx locals e s
    · subst hs
      obtain ⟨f, hf, hstop⟩ := hq hctx
      exact .inl ⟨f, hf, .inl hstop⟩
    · rcases beside_of_eq (g := .along stops) hstops (h.statement ctx locals e s hs) with hfail | ⟨⟨a, t⟩, hx, hy⟩
      · exact .inl hfail
      · exact .inr ⟨a, t, hx, hy, trivial, fun _ _ _ => trivial⟩

/-- What is computed with an emitter that is only asked in the contexts of a region. -/
def Orderly {β : Type} (scope : Scope) (depth : Nat) (Z : Context → Prop) (f : Emitter → Except Error β) : Prop :=
  ∀ (stops : Error → Prop) (E E' : Emitter), stops .tooDeep →
    E.Handles (.along stops) scope (.atDepth scope depth) (fun ctx _ => Z ctx) E' → Beside (.along stops) (f E) (f E')

namespace Orderly

theorem lowering {p : Program} {entry : String} {defaults entryDefaults : List String}
    (hscope : Scope.build p = .ok scope) :
    Orderly scope depth (Place scope depth) fun E =>
      p.loweredWith (Inferrer.atDepth · depth) E entry defaults entryDefaults := by
  refine fun stops E E' hstops hE => beside_loweredWith trivial hscope hscope hE rfl (fun _ => rfl) fun d hd => ?_
  have hd := Scope.mem_of_get? hd
  refine ⟨(Uniform.refl hstops trivial).returns hd depth 0, fun _ _ => .refl, fun ctx hctx hI hexpanding _ _ => ?_⟩
  exact ⟨hctx, hI, hexpanding ▸ Scope.Distinct.nil.cons hd List.not_mem_nil⟩

variable {ctx : Context} {locals : Locals} {e : Expr} {s : State} (hZ : Region scope depth Z) (h : Z ctx)
include hZ h

theorem expr : Orderly scope depth Z fun E => emitExpr E ctx locals e s := by
  intro stops E E' hstops hE
  have hlockstep : Lockstep (.along stops) (emitExpr E ctx locals e)
      (emitExpr E' (ctx.over scope (.atDepth scope depth)) locals e) fun _ => True :=
    lockstep_expr (n := 0) (hZ.coverage hstops trivial) hE (fun _ _ _ => trivial) h
  rw [hZ.over h] at hlockstep
  exact hlockstep.sync.beside s trivial

theorem statement : Orderly scope depth Z fun E => lowerStatement E ctx locals e s := by
  intro stops E E' hstops hE
  have hlockstep : Lockstep (.along stops) (lowerStatement E ctx locals e)
      (lowerStatement E' (ctx.over scope (.atDepth scope depth)) locals e) (Fit (.along stops)) :=
    lockstep_statement (n := 0) (hZ.coverage hstops trivial) hE (fun _ _ _ => trivial) h
  rw [hZ.over h] at hlockstep
  exact hlockstep.sync.beside s trivial

end Orderly

section
variable {β : Type} {f : Emitter → Except Error β} {q : Question} {E : Emitter} (hZ : Region scope depth Z)
  (hf : Orderly scope depth Z f) (hq : DependsOn (Emitter.AgreeOff q) f E)
include hZ hf hq

/-- What is asked stands in the region. -/
theorem region_of_dependsOn : Z q.ctx := by
  obtain ⟨E', hoff, hne⟩ := hq
  -- If the question stood elsewhere, a change of its answer would make no difference.
  refine Classical.byContradiction fun hplace => hne ?_
  have hbeside := hf (· = .tooDeep) E E' rfl (hoff.handles rfl hZ fun h => absurd h hplace)
  have hbeside' := hf (· = .tooDeep) E' E rfl (hoff.symm.handles rfl hZ fun h => absurd h hplace)
  exact hbeside'.eq (fun _ => id) hbeside

theorem fails_of_dependsOn {fault : Error} (hfails : q.Fails E fault) :
    ∃ e, f E = .error e ∧ (e = .tooDeep ∨ e = fault) := by
  obtain ⟨E', hoff, hne⟩ := hq
  have hbeside := hf (fun e => e = .tooDeep ∨ e = fault) E E' (.inl rfl)
    (hoff.handles (.inl rfl) hZ fun _ => ⟨fault, hfails, .inr rfl⟩)
  rcases hbeside with ⟨e, he, hstop | ⟨-, he'⟩⟩ | ⟨a, ha, ha'⟩
  · exact ⟨e, he, hstop⟩
  · exact absurd (he'.trans he.symm) hne
  · exact absurd (ha'.trans ha.symm) hne

end
end

section
variable {p : Program} {depth : Nat} {entry : String} {defaults entryDefaults : List String} {n : Nat} {q : Question}

/-- A program whose scope cannot be built is refused before anything is asked. -/
theorem loweredWith_of_build {e : Error} (h : Scope.build p = .error e) :
    p.loweredWith I E entry defaults entryDefaults = p.loweredWith I' E' entry defaults entryDefaults := by
  unfold Program.loweredWith
  rw [h]
  rfl

namespace Asks
variable (h : Asks p depth entry defaults entryDefaults n q)
include h

theorem build : ∃ scope, Scope.build p = .ok scope := by
  induction h with
  | start hq =>
    obtain ⟨E', -, hne⟩ := hq
    cases hscope : Scope.build p with
    | ok scope => exact ⟨scope, rfl⟩
    | error e => exact absurd (loweredWith_of_build hscope) hne
  | expr _ _ ih | statement _ _ ih => exact ih

theorem place {scope : Scope} (hscope : Scope.build p = .ok scope) : Place scope depth q.ctx := by
  induction h with
  | start hq => exact region_of_dependsOn region_place (.lowering hscope) hq
  | expr _ hq ih => exact region_of_dependsOn region_place (.expr region_place ih) hq
  | statement _ hq ih => exact region_of_dependsOn region_place (.statement region_place ih) hq

/-- The definitions that are being expanded where a question is asked are pairwise different. -/
theorem expanding :
    q.ctx.expanding.Nodup ∧ ∀ path ∈ q.ctx.expanding, ∃ d ∈ p.definitions, d.path = path := by
  obtain ⟨scope, hscope⟩ := h.build
  obtain ⟨-, -, hdistinct⟩ := h.place hscope
  exact ⟨hdistinct.nodup, Scope.definitions_of_build hscope ▸ hdistinct.definitions⟩

/-- A question that is asked and fails makes the lowering fail alike, or for want of depth. -/
theorem fails {f : Error} (hf : q.Fails (.atDepth n) f) :
    ∃ e, p.loweredTo depth entry defaults entryDefaults = .error e ∧ (e = .tooDeep ∨ e = f) := by
  obtain ⟨scope, hscope⟩ := h.build
  induction h generalizing f with
  | start hq => exact fails_of_dependsOn region_place (.lowering hscope) hq hf
  | expr ho hq ih =>
    obtain ⟨g, hg, hcause⟩ := fails_of_dependsOn region_place (.expr region_place (ho.place hscope)) hq hf
    obtain ⟨e, he, hdeep | rfl⟩ := ih hg
    · exact ⟨e, he, .inl hdeep⟩
    · exact ⟨e, he, hcause⟩
  | statement ho hq ih =>
    obtain ⟨g, hg, hcause⟩ := fails_of_dependsOn region_place (.statement region_place (ho.place hscope)) hq hf
    obtain ⟨e, he, hdeep | rfl⟩ := ih hg
    · exact ⟨e, he, .inl hdeep⟩
    · exact ⟨e, he, hcause⟩

end Asks

/-- A definition that is being expanded is not expanded again. -/
theorem expand_recursive {α : Type} (ctx : Context) {locals : Locals} {c : Call}
    {s t : State} {valueNeeded : Bool} {rest : Definition → Option Kind → Lowering α}
    (hcallee : ctx.callee locals c s = .ok (d, t)) (hexpanding : d.path ∈ ctx.expanding) :
    (do let callee ← ctx.callee locals c
        let kind ← expand E ctx locals c callee valueNeeded
        rest callee kind) s = .error (.lowering (.recursiveCall d.path)) := by
  show (ctx.callee locals c s >>= fun r => _) = _
  rw [hcallee]
  show (expand E ctx locals c d valueNeeded t >>= fun r => _) = _
  unfold expand
  rw [if_pos (List.contains_iff_mem.mpr hexpanding)]
  rfl

/-- A call of a definition that is being expanded fails, if not for the depth or the effects around it. -/
theorem Question.fails_of_expanding {ts : List Transform} {c : Call} {t : State}
    (hq : q.subject = .call ts c) (hbinding : c.isBinding = false) (hb : c.builtin? = none)
    (hcallee : q.ctx.callee q.locals c q.state = .ok (d, t)) (hexpanding : d.path ∈ q.ctx.expanding) (n : Nat) :
    ∃ f, q.Fails (.atDepth n) f ∧
      (f = .tooDeep ∨ f = .lowering (.recursiveCall d.path) ∨ q.ctx.inside q.subject = .error f) := by
  cases n with
  | zero => cases q <;> exact ⟨_, rfl, .inl rfl⟩
  | succ n =>
    cases hinside : q.ctx.inside q.subject with
    | error f =>
      refine ⟨f, ?_, .inr (.inr rfl)⟩
      cases q with
      | expr ctx locals e s =>
        show emitExpr (.atDepth n) ctx locals e s = .error f
        unfold emitExpr
        rw [show ctx.inside e = .error f from hinside]
        rfl
      | statement ctx locals e s =>
        show lowerStatement (.atDepth n) ctx locals e s = .error f
        unfold lowerStatement
        rw [show ctx.inside e = .error f from hinside]
        rfl
    | ok ctx' =>
      -- Inside the call only the effects differ, and they decide neither what it means nor what is being expanded.
      obtain ⟨effects, -, rfl⟩ := Context.inside_inv hinside
      refine ⟨_, ?_, .inr (.inl rfl)⟩
      cases q with
      | expr ctx locals e s =>
        cases hq
        show emitExpr (.atDepth n) ctx locals (.call ts c) s = _
        unfold emitExpr
        rw [show ctx.inside (.call ts c) = _ from hinside]
        show (if c.isBinding = true then _ else _ : Lowering Operand) s = _
        rw [hbinding, hb]
        exact expand_recursive { ctx with effects } hcallee hexpanding
      | statement ctx locals e s =>
        cases hq
        show lowerStatement (.atDepth n) ctx locals (.call ts c) s = _
        unfold lowerStatement
        rw [show ctx.inside (.call ts c) = _ from hinside]
        show (if c.isBinding = true then _ else _ : Lowering Locals) s = _
        rw [hbinding, hb]
        exact expand_recursive { ctx with effects } hcallee hexpanding

end

/-! ### Questions to an inference -/

/-- What an inference is asked: for an operand, or for the first value that a block returns, from some memory. -/
inductive Inferrer.Question where
  | operand (site : Site) (locals : Locals) (e : Expr) (cache : ReturnCache)
  | firstReturn (site : Site) (locals : Locals) (l : List Expr) (cache : ReturnCache)

def Inferrer.Question.site : Inferrer.Question → Site
  | operand site _ _ _ | firstReturn site _ _ _ => site

structure Inferrer.AgreeOff (q : Inferrer.Question) (I I' : Inferrer) : Prop where
  operand : ∀ site locals e c, q ≠ .operand site locals e c →
    (I.operand site locals e).run c = (I'.operand site locals e).run c
  firstReturn : ∀ site locals l c, q ≠ .firstReturn site locals l c →
    I.firstReturn site locals l c = I'.firstReturn site locals l c

/-- The questions about types that are asked in the course of lowering a program to some depth, with the depth of the
    inference that they are put to. -/
inductive AsksInference (p : Program) (depth : Nat) (entry : String) (defaults entryDefaults : List String) :
    Nat → Inferrer.Question → Prop
  | start {q} : DependsOn (fun I I' : Scope → Inferrer => ∀ scope, (I scope).AgreeOff q (I' scope))
      (fun I => p.loweredWith I (.atDepth depth) entry defaults entryDefaults) (Inferrer.atDepth · depth) →
      AsksInference p depth entry defaults entryDefaults depth q
  | operand {n scope site locals e c q} : AsksInference p depth entry defaults entryDefaults (n + 1) (.operand site locals e c) →
      Scope.build p = .ok scope →
      DependsOn (Inferrer.AgreeOff q) (fun I => (inferOperand scope I site locals e).run c) (.atDepth scope n) →
      AsksInference p depth entry defaults entryDefaults n q
  | firstReturn {n scope site locals l c q} :
      AsksInference p depth entry defaults entryDefaults (n + 1) (.firstReturn site locals l c) → Scope.build p = .ok scope →
      DependsOn (Inferrer.AgreeOff q) (fun I => inferFirstReturn scope I site locals l c) (.atDepth scope n) →
      AsksInference p depth entry defaults entryDefaults n q

section
variable {mayStop : Prop} {scope : Scope}

/-- From a place where no result is being inferred twice, inference stays in such places. -/
theorem coverage_distinct (hstop : mayStop) : Inferrer.Coverage (fun _ => True) mayStop scope scope
    (fun _ site _ => scope.Distinct site.busy) fun _ site => scope.Distinct site.busy where
  stable := ReturnCache.stable_true
  zero _ := hstop
  weaken := id
  parts {n site e} h := by
    cases e with
    | literal | name => trivial
    | call ts c => exact ⟨fun _ _ => h, fun _ _ _ _ => h⟩
  alike _ := .refl
  zeroBlock _ := hstop
  block := id
  callee h _ _ hd _ hfree := ⟨h.cons hd hfree, fun _ _ => h.cons hd hfree, fun _ _ => h.cons hd hfree⟩

/-- Inferences that differ on a question that stands elsewhere track one another in such places. -/
theorem Inferrer.AgreeOff.tracks {q : Inferrer.Question} {I : Inferrer} {n : Nat} (hstop : mayStop)
    (h : (Inferrer.atDepth scope n).AgreeOff q I) (hq : ¬scope.Distinct q.site.busy) :
    Inferrer.Tracks (fun _ => True) mayStop (fun site _ => scope.Distinct site.busy) (fun site => scope.Distinct site.busy)
        (.atDepth scope n) I ∧
      Inferrer.Tracks (fun _ => True) mayStop (fun site _ => scope.Distinct site.busy) (fun site => scope.Distinct site.busy) I
        (.atDepth scope n) := by
  have hcoverage : Inferrer.Coverage (fun _ => True) mayStop scope scope (fun _ site _ => scope.Distinct site.busy)
      fun _ site => scope.Distinct site.busy := coverage_distinct hstop
  have hself := Inferrer.tracks_atDepth hcoverage n 0
  have hoperand {site : Site} (hsite : scope.Distinct site.busy) (locals : Locals) (e : Expr) :
      (Inferrer.atDepth scope n).operand site locals e = I.operand site locals e :=
    funext fun c => h.operand site locals e c fun hs => hq (hs ▸ hsite)
  have hfirst {site : Site} (hsite : scope.Distinct site.busy) (locals : Locals) (l : List Expr) :
      (Inferrer.atDepth scope n).firstReturn site locals l = I.firstReturn site locals l :=
    funext fun c => h.firstReturn site locals l c fun hs => hq (hs ▸ hsite)
  refine ⟨⟨fun hsite => ?_, fun hsite hl => ?_⟩, ⟨fun hsite => ?_, fun hsite hl => ?_⟩⟩
  · exact hoperand hsite _ _ ▸ hself.operand hsite
  · exact hfirst hsite _ _ ▸ hself.firstReturn hsite hl
  · exact hoperand hsite _ _ ▸ hself.operand hsite
  · exact hfirst hsite _ _ ▸ hself.firstReturn hsite hl

/-- Lowering asks an inference only where no result is being inferred. -/
theorem beside_of_tracks {stops : Error → Prop} {n : Nat} (hstops : stops .tooDeep)
    (hscope : Scope.build p = .ok scope)
    (hI : Inferrer.Tracks (fun _ => True) (stops .tooDeep) (fun site _ => scope.Distinct site.busy)
      (fun site => scope.Distinct site.busy) (I scope) (I' scope)) :
    Beside (.along stops) (p.loweredWith I (.atDepth n) entry defaults entryDefaults)
      (p.loweredWith I' (.atDepth n) entry defaults entryDefaults) := by
  have hreturns {d : Definition} (hd : d ∈ scope.definitions) :
      Infer.InStep (fun _ => True) (stops .tooDeep) (returnInfo scope (I scope) [] d) (returnInfo scope (I' scope) [] d) := by
    have hdistinct : scope.Distinct [d.path] := Scope.Distinct.nil.cons hd List.not_mem_nil
    exact tracks_returnInfo (n := 0) (coverage_distinct hstops) hI fun _ _ =>
      ⟨hdistinct, fun _ _ => hdistinct, fun _ _ => hdistinct⟩
  have hX : Coverage (.along stops) scope (I' scope) fun _ ctx _ => ctx.scope = scope ∧ ctx.inferrer = I scope := {
    zero := fun _ => hstops
    weaken := id
    parts := fun {n ctx e} h => by
      cases e with
      | literal | name => trivial
      | call ts c => exact ⟨fun _ _ => h, fun _ _ _ _ => h⟩
    effects := fun _ h => h
    behind := id
    alike := fun h => h.1 ▸ .refl
    operand := fun h => h.2 ▸ hI.operand .nil
    loops := fun _ _ _ => trivial
    returns := fun h _ _ hd => by
      rw [h.1] at hd ⊢
      exact h.2 ▸ hreturns hd
    callee := fun h _ _ _ _ _ => ⟨fun _ _ => ⟨h.1 ▸ .refl, fun _ _ => h⟩, fun _ _ _ _ _ => h⟩ }
  refine beside_loweredWith trivial hscope hscope (Emitter.handles_atDepth hX n 0) rfl (fun _ => rfl) fun d hd => ?_
  exact ⟨hreturns (Scope.mem_of_get? hd), fun _ _ => .refl, fun ctx hctx hI _ _ _ => ⟨hctx, hI⟩⟩

end

/-- The definitions whose results are being inferred where a question about types is asked are pairwise different. -/
theorem AsksInference.busy {depth n : Nat} {q : Inferrer.Question}
    (h : AsksInference p depth entry defaults entryDefaults n q) :
    q.site.busy.Nodup ∧ ∀ path ∈ q.site.busy, ∃ d ∈ p.definitions, d.path = path := by
  cases hscope : Scope.build p with
  | error e =>
    -- Nothing is asked.
    exfalso
    induction h with
    | start hq =>
      obtain ⟨I, -, hne⟩ := hq
      exact hne (loweredWith_of_build hscope)
    | operand _ _ _ ih | firstReturn _ _ _ ih => exact ih
  | ok scope =>
    suffices hdistinct : scope.Distinct q.site.busy from
      ⟨hdistinct.nodup, Scope.definitions_of_build hscope ▸ hdistinct.definitions⟩
    let stops (e : Error) : Prop := e = .tooDeep
    have hstops : stops .tooDeep := rfl
    induction h with
    | start hq =>
      obtain ⟨I, hoff, hne⟩ := hq
      refine Classical.byContradiction fun hplace => hne ?_
      obtain ⟨htracks, htracks'⟩ := (hoff scope).tracks hstops hplace
      exact (beside_of_tracks hstops hscope htracks').eq (fun _ => id)
        (beside_of_tracks hstops hscope htracks)
    | operand _ hscope' hq ih =>
      cases hscope.symm.trans hscope'
      obtain ⟨I, hoff, hne⟩ := hq
      refine Classical.byContradiction fun hplace => hne ?_
      obtain ⟨htracks, htracks'⟩ := hoff.tracks hstops hplace
      exact Recall.Tracks.eq (tracks_inferOperand (n := 0) (coverage_distinct hstops) htracks' ih)
        (tracks_inferOperand (n := 0) (coverage_distinct hstops) htracks ih) _
    | firstReturn _ hscope' hq ih =>
      cases hscope.symm.trans hscope'
      obtain ⟨I, hoff, hne⟩ := hq
      refine Classical.byContradiction fun hplace => hne ?_
      obtain ⟨htracks, htracks'⟩ := hoff.tracks hstops hplace
      exact Recall.Tracks.eq (tracks_inferFirstReturn (n := 0) (coverage_distinct hstops) htracks' fun _ _ => ih)
        (tracks_inferFirstReturn (n := 0) (coverage_distinct hstops) htracks fun _ _ => ih) _
end Lower
end FlatCode
