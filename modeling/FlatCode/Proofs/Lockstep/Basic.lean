import FlatCode.Lower.Statement
import FlatCode.Proofs.Layout.Statement
import FlatCode.Proofs.Lockstep.Inference

/-! Two lowerings side by side. They go in lockstep if from any state both lead to the same result and the same state, or
    to the same fault, except that the first may stop with certain faults, after which nothing is said of the second.
    If the first may not loop, the code that it emits is straight. -/

namespace FlatCode

/-! ### Straight code -/

def Piece.isStraight : Piece → Bool
  | nop | op .. | exit _ => true
  | seq a b => a.isStraight && b.isStraight
  | branch yes no => yes.isStraight && no.isStraight
  | guard body => body.isStraight
  | loop .. => false
  | scope body => body.isStraight
  | expansion _ args body => args.isStraight && body.isStraight

namespace Lower
open Stateful

def Straight {α : Type} (x : Lowering α) : Prop := ∀ S, Lays S (·.isStraight = true) x

variable {I' : Inferrer} {locals : Locals} {d d' : Nat} {g : Pace} {L : Prop} {scope' : Scope}

section
variable {α β : Type} {x : Lowering α} {f : α → Lowering β}

namespace Straight

theorem of_extends (h : ∀ s a t, x s = .ok (a, t) → ∃ p, Extends s p t ∧ p.isStraight = true) : Straight x :=
  fun _ s a t hx _ => h s a t hx

theorem run (h : Straight x) {s : State} {a : α} {t : State} (hx : x s = .ok (a, t)) :
    ∃ p, Extends s p t ∧ p.isStraight = true := h t.strings.toList s a t hx List.prefix_rfl

theorem of_nop (h : ∀ s a t, x s = .ok (a, t) → Extends s .nop t) : Straight x :=
  of_extends fun s a t hx => ⟨.nop, h s a t hx, rfl⟩

theorem pure {a : α} : Straight (pure a) := of_nop fun s b t h => by
  obtain ⟨-, rfl⟩ := pure_eq_ok.mp h
  exact .nop s

theorem throw {e : Error} : Straight (throw e : Lowering α) := fun _ _ _ _ h => absurd h throw_ne_ok

theorem emitWith {op : Opcode} {imm : UInt64} (h : op.isJump = false) : Straight (emitWith op imm) :=
  of_extends fun _ _ _ hx => ⟨_, (emitWith_inv hx h).1, rfl⟩

theorem fail {message : String} : Straight (fail message) := of_extends fun _ _ _ hx => by
  obtain ⟨index, -, hp⟩ := fail_inv hx
  exact ⟨_, hp, rfl⟩

theorem branch {y : Lowering β} (hx : Straight x) (hy : Straight y) : Straight (branch x y) :=
  fun S => .branch (hx S) (hy S) fun _ _ hp hq => by rw [Piece.isStraight, hp, hq, Bool.and_self]

theorem whenNonzero (hx : Straight x) : Straight (whenNonzero x) := fun S => .whenNonzero (hx S) fun _ hp => hp

end Straight

/-- Routine code without loops is straight. -/
theorem Routine.straight {A : Error → Prop} (h : Routine A L d d' x) (hL : ¬L) : Straight x := by
  induction h with
  | pure => exact .pure
  | throw => exact .throw
  | bind _ _ ihx ihf =>
    exact fun S => .bind (ihx S) (fun a => ihf a S) fun _ _ hp hq => by rw [Piece.isStraight, hp, hq, Bool.and_self]
  | quiet h => exact .emitWith (Opcode.isJump_of_isQuiet h.1)
  | newSlots => exact .of_nop fun _ _ _ hx => (newSlots_inv hx).1
  | fail => exact .fail
  | branch _ _ ihy ihn => exact .branch ihy ihn
  | whenNonzero _ ih => exact .whenNonzero ih
  | loop h => exact absurd h hL
  | loopUntil h => exact absurd h hL

end

/-! ### Two runs -/

/-- How far two lowerings go together: the faults with which the first may stop alone, whether it may loop, and what is
    kept of the results known. -/
structure Pace where
  stops : Error → Prop
  mayLoop : Prop
  known : ReturnCache → Prop := fun _ => True
  stable : ReturnCache.Stable known := by exact ReturnCache.stable_true

/-- Two lowerings that go together until the first stops. -/
def Pace.along (stops : Error → Prop) : Pace := { stops, mayLoop := True }

/-- Whatever is known, there is no loop. -/
def Pace.NoLoop (g : Pace) : Prop := ¬g.mayLoop ∧ ∀ c, g.known c

section
variable {g : Pace} {α β : Type} {x y : Lowering α} {f f' : α → Lowering β} {Q Q' : α → Prop} {R : β → Prop}

/-- Both lead to the same result, with the property `Q`, or to the same fault, or the first stops. -/
def Sync (g : Pace) (x y : Lowering α) (Q : α → Prop) : Prop :=
  ∀ s, g.known s.cache → (∃ e, x s = .error e ∧ (g.stops e ∨ e ≠ .tooDeep ∧ y s = .error e)) ∨
    ∃ a t, x s = .ok (a, t) ∧ y s = .ok (a, t) ∧ g.known t.cache ∧ Q a

namespace Sync

theorem pure {a : α} (h : Q a) : Sync g (Pure.pure a) (Pure.pure a) Q :=
  fun s hs => .inr ⟨a, s, rfl, rfl, hs, h⟩

theorem throw {e : Error} (h : e ≠ .tooDeep) : Sync g (MonadExcept.throw e : Lowering α) (MonadExcept.throw e) Q :=
  fun _ _ => .inl ⟨e, rfl, .inr ⟨h, rfl⟩⟩

theorem result {s t : State} {a : α} (h : Sync g x y Q) (hs : g.known s.cache) (hx : x s = .ok (a, t)) :
    g.known t.cache ∧ Q a := by
  rcases h s hs with ⟨e, hx', -⟩ | ⟨b, u, hx', -, hb⟩
  · cases hx.symm.trans hx'
  · cases hx.symm.trans hx'
    exact hb

theorem bind (h : Sync g x y Q) (hf : ∀ a, Q a → Sync g (f a) (f' a) R) : Sync g (x >>= f) (y >>= f') R := by
  intro s hs
  show (∃ e, (x s >>= fun r => f r.1 r.2) = .error e ∧ (_ ∨ _ ∧ (y s >>= fun r => f' r.1 r.2) = .error e)) ∨
    ∃ b t, (x s >>= fun r => f r.1 r.2) = .ok (b, t) ∧ (y s >>= fun r => f' r.1 r.2) = .ok (b, t) ∧ _ ∧ R b
  rcases h s hs with ⟨e, hx, he⟩ | ⟨a, t, hx, hy, ht, ha⟩
  · refine .inl ⟨e, by rw [hx]; rfl, he.imp_right fun ⟨hdeep, hy⟩ => ⟨hdeep, by rw [hy]; rfl⟩⟩
  · rw [hx, hy]
    exact hf a ha t ht

theorem total (h : ∀ s, ∃ a t, x s = .ok (a, t) ∧ t.cache = s.cache) : Sync g x x fun _ => True := by
  intro s hs
  obtain ⟨a, t, hx, ht⟩ := h s
  exact .inr ⟨a, t, hx, hx, ht ▸ hs, trivial⟩

theorem openJump {op : Opcode} : Sync g (openJump op) (openJump op) fun _ => True := .total fun _ => ⟨_, _, rfl, rfl⟩

theorem closeJump {position : Nat} : Sync g (closeJump position) (closeJump position) fun _ => True :=
  .total fun _ => ⟨_, _, rfl, rfl⟩

theorem branch {x' y' : Lowering β} (h : Sync g x y Q) (h' : Sync g x' y' R) :
    Sync g (branch x x') (branch y y') fun _ => True :=
  openJump.bind fun _ _ => h.bind fun _ _ => openJump.bind fun _ _ => closeJump.bind fun _ _ => h'.bind fun _ _ =>
    closeJump.bind fun _ _ => .pure trivial

theorem whenNonzero (h : Sync g x y Q) : Sync g (whenNonzero x) (whenNonzero y) Q :=
  openJump.bind fun _ _ => h.bind fun _ ha => closeJump.bind fun _ _ => .pure ha

theorem loop (h : Sync g x y Q) (hf : ∀ a, Q a → Sync g (f a) (f' a) R) : Sync g (loop x f) (loop y f') R := by
  refine Sync.bind (Q := fun _ => True) (.total fun _ => ⟨_, _, rfl, rfl⟩) fun _ _ => h.bind fun a ha => ?_
  refine openJump.bind fun _ _ => (hf a ha).bind fun _ hb => ?_
  exact Sync.bind (Q := fun _ => True) (.total fun _ => ⟨_, _, rfl, rfl⟩) fun _ _ => closeJump.bind fun _ _ => .pure hb

end Sync

theorem Routine.sync (h : Routine (· ≠ .tooDeep) L d d' x) : Sync g x x fun _ => True := by
  induction h with
  | pure => exact .pure trivial
  | throw he => exact .throw he
  | bind _ _ ihx ihf => exact ihx.bind fun a _ => ihf a
  | quiet | newSlots | fail => exact .total fun _ => ⟨_, _, rfl, rfl⟩
  | branch _ _ ihy ihn => exact .branch ihy ihn
  | whenNonzero _ ih => exact .whenNonzero ih
  | loop _ _ _ ihc ihb => exact ihc.loop fun a _ => ihb a
  | loopUntil _ _ _ _ _ ihc iht ihn iha =>
    refine (ihc.loop (R := fun _ => True) fun _ _ => iht.bind fun _ _ => ?_).bind fun _ _ => iha.bind fun _ _ => .closeJump
    exact (Sync.whenNonzero .openJump).bind fun _ _ => ihn.bind fun _ _ => .pure trivial

/-- Both runs go together, and what the first emits is straight unless it may loop. -/
structure Lockstep (g : Pace) (x y : Lowering α) (Q : α → Prop) : Prop where
  sync : Sync g x y Q
  straight : g.NoLoop → Straight x

theorem Routine.lockstep {k : Nat} (h : Routine (· ≠ .tooDeep) g.mayLoop d k x) : Lockstep g x x fun _ => True :=
  ⟨h.sync, fun hloop => h.straight hloop.1⟩

namespace Lockstep

theorem pure {a : α} (h : Q a) : Lockstep g (Pure.pure a) (Pure.pure a) Q := ⟨.pure h, fun _ => .pure⟩

variable {e : Error} {r : Except Error α} {x' y' : Lowering β}

theorem throw (h : e ≠ .tooDeep) : Lockstep g (MonadExcept.throw e : Lowering α) (MonadExcept.throw e) Q :=
  ⟨.throw h, fun _ => .throw⟩

theorem stop (h : g.stops e) : Lockstep g (MonadExcept.throw e) y Q :=
  ⟨fun _ _ => .inl ⟨e, rfl, .inl h⟩, fun _ => .throw⟩

theorem bind (h : Lockstep g x y Q) (hf : ∀ a, Q a → Lockstep g (f a) (f' a) R) : Lockstep g (x >>= f) (y >>= f') R where
  sync := h.sync.bind fun a ha => (hf a ha).sync
  straight hloop := .of_extends fun s b u hrun => by
    obtain ⟨a, t, hx, hf'⟩ := bind_eq_ok.mp hrun
    obtain ⟨p, hp, hps⟩ := (h.straight hloop).run hx
    obtain ⟨q, hq, hqs⟩ := ((hf a (h.sync.result (hloop.2 _) hx).2).straight hloop).run hf'
    exact ⟨p.seq q, hp.seq hq, by rw [Piece.isStraight, hps, hqs, Bool.and_self]⟩

theorem andThen (h : Lockstep g x y Q) (h' : Lockstep g x' y' R) :
    Lockstep g (x >>= fun _ => x') (y >>= fun _ => y') R :=
  h.bind fun _ _ => h'

theorem of_nop (h : ∀ s, ∃ a t, x s = .ok (a, t) ∧ t.cache = s.cache ∧ Extends s .nop t) :
    Lockstep g x x fun _ => True where
  sync := .total fun s => by
    obtain ⟨a, t, hx, ht, -⟩ := h s
    exact ⟨a, t, hx, ht⟩
  straight _ := .of_nop fun s a t hx => by
    obtain ⟨b, u, hx', -, hext⟩ := h s
    cases hx.symm.trans hx'
    exact hext

theorem liftBind (hr : Shallow r) (hf : ∀ a, r = .ok a → Lockstep g (f a) (f' a) R) :
    Lockstep g (liftM r >>= f) (liftM r >>= f') R := by
  cases r with
  | ok a => exact hf a rfl
  | error e => exact throw fun h => hr (congrArg _ h)

theorem lift (hr : Shallow r) (hQ : ∀ a, r = .ok a → Q a) : Lockstep g (liftM r) (liftM r) Q := by
  cases r with
  | ok a => exact pure (hQ a rfl)
  | error e => exact throw fun h => hr (congrArg _ h)

theorem infer {m m' : Infer α} (h : Infer.Tracks (ReturnCache.Same g.known) (g.stops .tooDeep) m m' Q) :
    Lockstep g (infer m) (infer m') Q where
  sync s hs := by
    unfold Lower.infer
    rcases h s.cache s.cache ⟨rfl, hs⟩ with ⟨hstop, hm⟩ | ⟨r, t, _, hm, hm', ⟨rfl, ht⟩, hr⟩
    · rw [hm]
      exact .inl ⟨_, rfl, .inl hstop⟩
    · rw [hm, hm']
      cases r with
      | ok a => exact .inr ⟨a, _, rfl, rfl, ht, hr⟩
      | error e => exact .inl ⟨e, rfl, .inr ⟨hr, rfl⟩⟩
  straight _ := .of_nop fun s a t hx => by
    obtain ⟨cache, -, rfl⟩ := infer_inv hx
    exact extends_cache.mp (.nop { s with cache })

theorem ite {c : Prop} [Decidable c] {x' y' : Lowering α} (h : c → Lockstep g x y Q) (h' : ¬c → Lockstep g x' y' Q) :
    Lockstep g (if c then x else x') (if c then y else y') Q := by
  split
  case isTrue hc => exact h hc
  case isFalse hc => exact h' hc

theorem check {failed : Prop} [Decidable failed] {k k' : Unit → Lowering α} (he : e ≠ .tooDeep)
    (hk : ¬failed → Lockstep g (k ()) (k' ()) Q) :
    Lockstep g (if failed then MonadExcept.throw e >>= k else k ())
      (if failed then MonadExcept.throw e >>= k' else k' ()) Q :=
  ite (fun _ => throw he) hk

theorem emitWith {op : Opcode} {imm : UInt64} (h : op.isJump = false) :
    Lockstep g (emitWith op imm) (emitWith op imm) fun _ => True :=
  ⟨.total fun _ => ⟨_, _, rfl, rfl⟩, fun _ => .emitWith h⟩

theorem branch (h : Lockstep g x y Q) (h' : Lockstep g x' y' R) :
    Lockstep g (branch x x') (branch y y') fun _ => True :=
  ⟨.branch h.sync h'.sync, fun hloop => .branch (h.straight hloop) (h'.straight hloop)⟩

theorem loop (hloop : g.mayLoop) (h : Lockstep g x y Q) (hf : ∀ a, Q a → Lockstep g (f a) (f' a) R) :
    Lockstep g (loop x f) (loop y f') R :=
  ⟨.loop h.sync fun a ha => (hf a ha).sync, fun hstraight => absurd hloop hstraight.1⟩

theorem mapM {γ : Type} {k k' : γ → Lowering α} {l : List γ} (hk : ∀ z ∈ l, Lockstep g (k z) (k' z) fun _ => True) :
    Lockstep g (l.mapM k) (l.mapM k') fun _ => True := by
  induction l with
  | nil => exact .pure trivial
  | cons z l ih =>
    rw [List.mapM_cons, List.mapM_cons]
    refine (hk z List.mem_cons_self).bind fun _ _ => ?_
    exact (ih fun z hz => hk z (List.mem_cons_of_mem _ hz)).bind fun _ _ => .pure trivial

end Lockstep

theorem lockstep_internText {text : String} : Lockstep g (internText text) (internText text) fun _ => True :=
  .of_nop fun _ => ⟨_, _, rfl, rfl, (internText_inv rfl).1⟩

theorem lockstep_newSlots {n : Nat} : Lockstep g (newSlots n) (newSlots n) fun _ => True :=
  .of_nop fun _ => ⟨_, _, rfl, rfl, (newSlots_inv rfl).1⟩

theorem lockstep_newSlot : Lockstep g newSlot newSlot fun _ => True := lockstep_newSlots (n := 1)

theorem lockstep_exit {waiting : Nat} : Lockstep g (do
      let position ← openJump .jump
      modify fun s => { s with exits := { position, waiting } :: s.exits })
    (do
      let position ← openJump .jump
      modify fun s => { s with exits := { position, waiting } :: s.exits }) fun _ => True :=
  ⟨.total fun _ => ⟨_, _, rfl, rfl⟩, fun _ => .of_extends fun _ _ _ hx => ⟨_, exit_inv hx, rfl⟩⟩

section
variable {slot : Nat} {w : Width}

theorem lockstep_load : Lockstep g (load slot) (load slot) fun _ => True := .emitWith rfl

theorem lockstep_store : Lockstep g (store slot) (store slot) fun _ => True := .emitWith rfl

theorem lockstep_pushInt {k : Int64} : Lockstep g (pushInt w k) (pushInt w k) fun _ => True :=
  (routine_pushInt (d := 0)).lockstep

theorem lockstep_coerce {source target : Kind} : Lockstep g (coerce source target) (coerce source target) fun _ => True :=
  (routine_coerce (d := 0)).lockstep

theorem lockstep_arithmetic {op : ArithmeticOp} : Lockstep g (arithmetic op w) (arithmetic op w) fun _ => True :=
  (routine_arithmetic (d := 0)).lockstep

theorem lockstep_compare {op : ComparisonOp} : Lockstep g (compare op w) (compare op w) fun _ => True :=
  (routine_compare (d := 0)).lockstep

end
end

/-! ### Contexts -/

def Context.over (ctx : Context) (scope : Scope) (I : Inferrer) : Context := { ctx with scope, inferrer := I }

/-- A map in scope has come from a literal, which takes a loop to be searched. -/
def Fit (g : Pace) (locals : Locals) : Prop := ∀ l ∈ locals, l.2.type.shape = .map → g.mayLoop

theorem Fit.nil : Fit g [] := fun _ h => absurd h List.not_mem_nil

theorem Fit.cons {l : String × Local} (hl : l.2.type.shape = .map → g.mayLoop) (h : Fit g locals) :
    Fit g (l :: locals) := List.forall_mem_cons.mpr ⟨hl, h⟩

theorem Fit.lookup {x : String} {l : Local} (h : Fit g locals)
    (hl : locals.lookup x = some l) (hmap : l.type.shape = .map) : g.mayLoop := by
  obtain ⟨l₁, l₂, rfl, -⟩ := List.lookup_eq_some_iff.mp hl
  exact h (x, l) (by simp) hmap

def loopNames : List String := ["repeat", "loop", "while", "for", "pow", "map"]

/-- Expressions that are lowered at each depth, and beside them in another scope: what a call means is among them, unless
    it is being expanded already. -/
structure Coverage (g : Pace) (scope' : Scope) (I' : Inferrer) (X : Nat → Context → Expr → Prop) : Prop
    extends Covers (g.stops .tooDeep) X where
  effects : ∀ {n ctx e} effects, X n ctx e → X n { ctx with effects } e
  behind : ∀ {n ctx e}, X n ctx e → X n ctx.behind e
  alike : ∀ {n ctx e}, X n ctx e → ctx.scope.Alike scope' e
  operand : ∀ {n ctx e home locals}, X n ctx e →
    Infer.InStep g.known (g.stops .tooDeep) (ctx.inferrer.operand { home } locals e) (I'.operand { home } locals e)
  loops : ∀ {n ctx ts c}, X n ctx (.call ts c) → c.isBinding = false → c.name ∈ loopNames → g.mayLoop
  returns : ∀ {n ctx ts c d}, X n ctx (.call ts c) → c.isBinding = false → c.builtin? = none → d ∈ ctx.scope.definitions →
    Infer.InStep g.known (g.stops .tooDeep) (returnInfo ctx.scope ctx.inferrer [] d) (returnInfo scope' I' [] d)
  callee : ∀ {n ctx ts c d}, X (n + 1) ctx (.call ts c) → c.isBinding = false → c.builtin? = none →
    d ∈ ctx.scope.definitions → d.isStruct = false → d.path ∉ ctx.expanding →
    (∀ e ∈ d.parameters, ctx.scope.Alike scope' e ∧ ∀ i, e.initial? = some i → X n ctx i) ∧
      ∀ effects returns slot, ∀ e ∈ d.body, X n (bodyContext ctx d effects returns slot) e

theorem Coverage.closed {X : Nat → Context → Expr → Prop}
    (hX : Coverage g scope' I' X) (n : Nat) (ctx : Context) : ctx.scope.Closed scope' (X n ctx) :=
  ⟨fun h => hX.parts (hX.weaken h), hX.alike⟩

structure Emitter.Handles (g : Pace) (scope' : Scope) (I' : Inferrer) (Z : Context → Expr → Prop) (E E' : Emitter) :
    Prop where
  expr : ∀ {ctx locals e}, Z ctx e → Fit g locals →
    Lockstep g (E.expr ctx locals e) (E'.expr (ctx.over scope' I') locals e) fun _ => True
  statement : ∀ {ctx locals e}, Z ctx e → Fit g locals →
    Lockstep g (E.statement ctx locals e) (E'.statement (ctx.over scope' I') locals e) (Fit g)

namespace Emitter.Handles
variable {g : Pace} {scope' : Scope} {I' : Inferrer} {Z : Context → Expr → Prop} {E E' : Emitter} {ctx : Context}
  {locals : Locals} {e : Expr} {body : List Expr} (hE : E.Handles g scope' I' Z E')
include hE

theorem statements (hbody : ∀ e ∈ body, Z ctx e) (hl : Fit g locals) :
    Lockstep g (E.statements ctx locals body) (E'.statements (ctx.over scope' I') locals body) (Fit g) := by
  induction body generalizing locals with
  | nil => exact .pure hl
  | cons e rest ih =>
    exact (hE.statement (hbody e List.mem_cons_self) hl).bind fun _ hl' =>
      ih (fun e he => hbody e (List.mem_cons_of_mem _ he)) hl'

theorem block (hbody : ∀ e ∈ body, Z ctx e) (hl : Fit g locals) :
    Lockstep g (E.block ctx locals body) (E'.block (ctx.over scope' I') locals body) fun _ => True :=
  (hE.statements hbody hl).bind fun _ _ => .pure trivial

theorem exprAt {w : Width} (he : Z ctx e) (hl : Fit g locals) :
    Lockstep g (E.exprAt ctx locals e w) (E'.exprAt (ctx.over scope' I') locals e w) fun _ => True :=
  (hE.expr he hl).bind fun _ _ => lockstep_coerce

theorem condition {fault : TypeError} (he : Z ctx e) (hl : Fit g locals) :
    Lockstep g (E.condition ctx locals fault e) (E'.condition (ctx.over scope' I') locals fault e) fun _ => True :=
  (hE.expr he hl).bind fun _ _ => .ite (fun _ => .throw nofun) fun _ => .pure trivial

theorem blockValue (hbody : ∀ e ∈ body, Z ctx e) (hl : Fit g locals) :
    Lockstep g (E.blockValue ctx locals body) (E'.blockValue (ctx.over scope' I') locals body) fun _ => True := by
  unfold Emitter.blockValue
  split
  case h_1 => exact .throw nofun
  case h_2 last hlast =>
    have hZ : Z ctx last := hbody last (List.mem_of_getLast? hlast)
    have hfirst : ∀ e ∈ body.dropLast, Z ctx e := fun e he => hbody e ((List.dropLast_sublist _).subset he)
    refine (hE.statements hfirst hl).bind fun inner hinner => .check nofun fun _ => .ite (fun _ => ?_) fun _ => ?_
    · exact (hE.statement hZ hinner).bind fun _ _ => (Lockstep.emitWith rfl).andThen (.pure trivial)
    · exact hE.expr hZ hinner

end Emitter.Handles

theorem Lockstep.inside {α : Type} {ctx : Context} {e : Expr} {f f' : Context → Lowering α} {Q : α → Prop}
    (h : ∀ effects, Lockstep g (f { ctx with effects }) (f' (Context.over { ctx with effects } scope' I')) Q) :
    Lockstep g (liftM (ctx.inside e) >>= f) (liftM ((ctx.over scope' I').inside e) >>= f') Q := by
  have heffects : Shallow (ctx.effects.inside ctx.home e) := EffectSet.shallow_inside
  unfold Context.inside
  show Lockstep g (liftM (ctx.effects.inside ctx.home e >>= _) >>= f) (liftM (ctx.effects.inside ctx.home e >>= _) >>= f') Q
  cases hinside : ctx.effects.inside ctx.home e with
  | ok effects => exact h effects
  | error e => exact .throw fun he => heffects (hinside.trans (congrArg _ he))

end Lower
end FlatCode
