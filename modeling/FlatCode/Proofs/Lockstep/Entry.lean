import FlatCode.Proofs.Layout.Entry
import FlatCode.Proofs.Lockstep.Statement

/-! Two programs side by side: if their scopes look up alike what matters, both are lowered to the same, or fail alike
    (`beside_lowered`). The simplest way to say what matters is a property of every expression in the program
    (`Uniform`). -/

namespace FlatCode
open Stateful

theorem Scope.shallow_addAlias {definitions : List Definition} {aliases : List (String × String)} {d : Definition} :
    Shallow (addAlias definitions aliases d) := by
  unfold addAlias
  dsimp only
  split
  · nofun
  · split
    · nofun
    · split <;> nofun

theorem Shallow.foldlM {α β : Type} {f : β → α → Except Error β} (hf : ∀ b a, Shallow (f b a)) {l : List α} {b : β} :
    Shallow (l.foldlM f b) := by
  induction l generalizing b with
  | nil => exact .ok
  | cons a l ih => exact (hf b a).bind fun _ => ih

theorem Scope.shallow_build {p : Program} : Shallow (Scope.build p) := by
  unfold Scope.build
  split
  · nofun
  · refine Shallow.map (Shallow.foldlM fun aliases text => ?_)
    unfold addImport
    dsimp only
    split
    · nofun
    · exact Shallow.foldlM fun _ _ => shallow_addAlias

namespace Lower

theorem shallow_checkExecutions {scope : Scope} {defaults : EffectSet} {l : List Execution} :
    Shallow (checkExecutions scope defaults l) := by
  induction l with
  | nil => exact .ok
  | cons x l ih =>
    unfold checkExecutions
    refine .check nofun ?_
    exact EffectSet.shallow_active.bind fun _ => ih

section
variable {g : Pace}

theorem lockstep_entryLocals {scope scope' : Scope} {d : Definition} (h : ∀ e ∈ d.parameters, scope.Alike scope' e) :
    Lockstep g (entryLocals scope d) (entryLocals scope' d) (Fit g) := by
  unfold entryLocals
  split
  case h_1 => exact .pure .nil
  case h_2 param hparam =>
    have hdeclared := (h param (hparam ▸ List.mem_cons_self)).declared
    rw [hdeclared]
    refine .liftBind BindingType.shallow_declared? fun type? _ => ?_
    split
    · refine .ite (fun _ => lockstep_newSlot.bind fun _ _ => .pure ?_) fun _ => .throw nofun
      exact Fit.nil.cons nofun
    · exact .throw nofun
  case h_3 => exact .throw nofun

theorem lockstep_lowerEntry {scope' : Scope} {I' : Inferrer} {Z : Context → Expr → Prop} {E E' : Emitter} {ctx : Context}
    {d : Definition} (hE : E.Handles g scope' I' Z E')
    (hreturns : Infer.InStep g.known (g.stops .tooDeep) (returnInfo ctx.scope ctx.inferrer [] d) (returnInfo scope' I' [] d))
    (hparameters : ∀ e ∈ d.parameters, ctx.scope.Alike scope' e)
    (hbody : ∀ returns, ∀ e ∈ d.body, Z { ctx with target := .run returns } e) :
    Lockstep g (lowerEntry E ctx d) (lowerEntry E' (ctx.over scope' I') d) fun _ => True := by
  refine (Lockstep.infer hreturns).bind fun returns _ => (lockstep_entryLocals hparameters).bind fun locals hl => ?_
  refine .check nofun fun _ => (hE.block (hbody returns) hl).bind fun _ _ => ?_
  refine Lockstep.bind (Q := fun _ => True) (.of_nop fun s => ⟨s, s, rfl, rfl, .nop s⟩) fun s _ => ?_
  exact .ite (fun _ => (Lockstep.emitWith rfl).andThen <| .pure trivial) fun _ => .pure trivial

end

section
variable {g : Pace} {α β : Type}

def Beside (g : Pace) (x y : Except Error α) : Prop :=
  (∃ e, x = .error e ∧ (g.stops e ∨ e ≠ .tooDeep ∧ y = .error e)) ∨ ∃ a, x = .ok a ∧ y = .ok a

theorem Beside.refl {x : Except Error α} (h : Shallow x) : Beside g x x := by
  cases x with
  | ok a => exact .inr ⟨a, rfl, rfl⟩
  | error e => exact .inl ⟨e, rfl, .inr ⟨fun he => h (congrArg _ he), rfl⟩⟩

theorem Beside.bind {x y : Except Error α} {f f' : α → Except Error β} (h : Beside g x y)
    (hf : ∀ a, x = .ok a → Beside g (f a) (f' a)) : Beside g (x >>= f) (y >>= f') := by
  rcases h with ⟨e, rfl, he⟩ | ⟨a, rfl, rfl⟩
  · exact .inl ⟨e, rfl, he.imp_right fun ⟨hdeep, hy⟩ => ⟨hdeep, by rw [hy]; rfl⟩⟩
  · exact hf a rfl

theorem Sync.beside {x y : Lowering α} {Q : α → Prop} (h : Sync g x y Q) (s : State) (hs : g.known s.cache) :
    Beside g (x s) (y s) :=
  (h s hs).imp_right fun ⟨a, t, hx, hy, _⟩ => ⟨(a, t), hx, hy⟩

variable {p p' : Program} {n m : Nat} {scope scope' : Scope} {entry : String} {defaults entryDefaults : List String}

/-- Two programs are lowered alike if their scopes, the inferences in them and the emitters are alike, on all that the
    lowering of the entry looks at. -/
theorem beside_loweredWith {I I' : Scope → Inferrer} {E E' : Emitter} {Z : Context → Expr → Prop}
    (hknown : g.known []) (hscope : Scope.build p = .ok scope) (hscope' : Scope.build p' = .ok scope')
    (hE : E.Handles g scope' (I' scope') Z E') (hget : scope.get? entry = scope'.get? entry)
    (hexecutions : ∀ defaults, checkExecutions scope defaults p.executions = checkExecutions scope' defaults p'.executions)
    (hentry : ∀ d, scope.get? entry = some d →
      Infer.InStep g.known (g.stops .tooDeep) (returnInfo scope (I scope) [] d) (returnInfo scope' (I' scope') [] d) ∧
      (∀ e ∈ d.parameters, scope.Alike scope' e) ∧
      ∀ ctx : Context, ctx.scope = scope → ctx.inferrer = I scope → ctx.expanding = [d.path] → ∀ e ∈ d.body, Z ctx e) :
    Beside g (p.loweredWith I E entry defaults entryDefaults) (p'.loweredWith I' E' entry defaults entryDefaults) := by
  unfold Program.loweredWith
  rw [hscope, hscope']
  refine (Beside.refl EffectSet.shallow_parse).bind fun defaults' _ => ?_
  refine (Beside.refl EffectSet.shallow_parse).bind fun entryDefaults' _ => ?_
  rw [← hget]
  cases hd : scope.get? entry with
  | none => exact .refl nofun
  | some d =>
    obtain ⟨hreturns, hparameters, hbody⟩ := hentry d hd
    dsimp only
    rw [hexecutions]
    refine (Beside.refl shallow_checkExecutions).bind fun _ _ => ?_
    by_cases htemplates : (!d.templateArgs.isEmpty) = true
    · rw [if_pos htemplates, if_pos htemplates]
      exact .refl nofun
    · rw [if_neg htemplates, if_neg htemplates]
      refine (Beside.refl EffectSet.shallow_active).bind fun effects _ => ?_
      let ctx : Context := { scope, inferrer := I scope, defaults := defaults', home := entry, effects,
                             expanding := [d.path], target := .run .void }
      have hrun : Lockstep g (lowerEntry E ctx d) (lowerEntry E' (ctx.over scope' (I' scope')) d) fun _ => True :=
        lockstep_lowerEntry hE hreturns hparameters fun _ => hbody _ rfl rfl rfl
      refine Beside.bind (hrun.sync.beside {} hknown) fun ⟨returns, state⟩ _ => ?_
      split <;> exact .refl nofun

/-- The same of lowering to some depth, beside lowering to the same or a greater depth. -/
theorem beside_lowered {X : Nat → Context → Expr → Prop} (hknown : g.known []) (hscope : Scope.build p = .ok scope)
    (hscope' : Scope.build p' = .ok scope') (hX : Coverage g scope' (.atDepth scope' m) X) (hdepth : n ≤ m)
    (hget : scope.get? entry = scope'.get? entry)
    (hexecutions : ∀ defaults, checkExecutions scope defaults p.executions = checkExecutions scope' defaults p'.executions)
    (hentry : ∀ d, scope.get? entry = some d →
      Infer.InStep g.known (g.stops .tooDeep) (returnInfo scope (.atDepth scope n) [] d)
        (returnInfo scope' (.atDepth scope' m) [] d) ∧
      (∀ e ∈ d.parameters, scope.Alike scope' e) ∧
      ∀ ctx : Context, ctx.scope = scope → ctx.inferrer = .atDepth scope n → ctx.expanding = [d.path] →
        ∀ e ∈ d.body, X n ctx e) :
    Beside g (p.loweredTo n entry defaults entryDefaults) (p'.loweredTo m entry defaults entryDefaults) := by
  have hE := Emitter.handles_atDepth hX n (m - n)
  rw [Nat.add_sub_cancel' hdepth] at hE
  exact beside_loweredWith hknown hscope hscope' hE hget hexecutions hentry

end

/-- Every definition in scope is made of expressions with the property `P`, which says that the other scope looks up alike
    what they name, and that there may be loops if they name one. -/
structure Uniform (g : Pace) (scope scope' : Scope) (P : Expr → Prop) : Prop where
  stops : g.stops .tooDeep
  alike : ∀ {e}, P e → scope.Alike scope' e
  loops : ∀ {ts c}, P (.call ts c) → c.isBinding = false → c.name ∈ loopNames → g.mayLoop
  definitions : ∀ d ∈ scope.definitions, (∀ e ∈ d.parameters, e.All P) ∧ ∀ e ∈ d.body, e.All P

namespace Uniform
variable {g : Pace} {scope scope' : Scope} {P : Expr → Prop}

/-- A scope beside itself. -/
theorem refl (hstops : g.stops .tooDeep) (hloop : g.mayLoop) : Uniform g scope scope fun _ => True where
  stops := hstops
  alike _ := .refl
  loops _ _ _ := hloop
  definitions _ _ := ⟨fun _ _ _ _ => trivial, fun _ _ _ _ => trivial⟩

theorem resulting (h : Uniform g scope scope' P) {d : Definition} (hd : d ∈ scope.definitions) {n : Nat}
    {busy : List String} : Resulting (fun _ _ e => e.All P) (fun _ _ => True) n d busy :=
  ⟨trivial, (h.definitions d hd).1, (h.definitions d hd).2⟩

theorem inferrer (h : Uniform g scope scope' P) :
    Inferrer.Coverage g.known (g.stops .tooDeep) scope scope' (fun _ _ e => e.All P) fun _ _ => True where
  zero _ := h.stops
  weaken := id
  parts := Expr.All.parts
  stable := g.stable
  alike he := h.alike he.self
  zeroBlock _ := h.stops
  block _ := trivial
  callee _ _ _ hd _ _ := h.resulting hd

theorem returns (h : Uniform g scope scope' P) {d : Definition} (hd : d ∈ scope.definitions) (n k : Nat) :
    Infer.InStep g.known (g.stops .tooDeep) (returnInfo scope (.atDepth scope n) [] d)
      (returnInfo scope' (.atDepth scope' (n + k)) [] d) :=
  tracks_returnInfo (n := n) h.inferrer (Inferrer.tracks_atDepth h.inferrer n k) fun _ _ => h.resulting hd

theorem coverage (h : Uniform g scope scope' P) (n k : Nat) :
    Coverage g scope' (.atDepth scope' (n + k)) fun _ ctx e =>
      ctx.scope = scope ∧ ctx.inferrer = .atDepth scope n ∧ e.All P where
  zero _ := h.stops
  weaken := id
  parts := by
    rintro _ ctx e ⟨hscope, hI, he⟩
    cases e with
    | call ts c =>
      exact ⟨fun a ha => ⟨hscope, hI, he.parts.1 a ha⟩, fun l hl s hs => ⟨hscope, hI, he.parts.2 l hl s hs⟩⟩
    | literal | name => trivial
  effects _ := id
  behind := id
  alike := by
    rintro _ ctx e ⟨rfl, -, he⟩
    exact h.alike he.self
  operand := by
    rintro _ ctx e home locals ⟨-, hI, he⟩
    rw [hI]
    exact (Inferrer.tracks_atDepth h.inferrer n k).operand he
  loops := by
    rintro _ ctx ts c ⟨-, -, he⟩
    exact h.loops he.self
  returns := by
    rintro _ ctx ts c d ⟨rfl, hI, -⟩ - - hd
    rw [hI]
    exact h.returns hd n k
  callee := by
    rintro _ ctx ts c d ⟨rfl, hI, -⟩ - - hd - -
    obtain ⟨hparameters, hbody⟩ := h.definitions d hd
    refine ⟨fun e he => ⟨h.alike (hparameters e he).self, fun i hi => ⟨rfl, hI, ?_⟩⟩,
      fun _ _ _ e he => ⟨rfl, hI, hbody e he⟩⟩
    exact (hparameters e he).parts.initial hi

end Uniform
end Lower
end FlatCode
