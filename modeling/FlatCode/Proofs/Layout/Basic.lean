import FlatCode.Lower.Emitter
import FlatCode.Proofs.Departure
import FlatCode.Proofs.Effects
import FlatCode.Proofs.Routine

/-! What lowering lays out: a piece of structured code whose expansions are those of definitions of the program, and
    which prints only where an effect allows it. Here are the judgement that a part of lowering lays out such a piece,
    and the rules by which the parts come together. -/

namespace FlatCode

def PrintMode.effect (mode : PrintMode) : Effect := if mode.stderr then .ioErr else .ioOut

/-- What code is laid out from: the definitions of a program, the effects that may be in force in it, among them all
    that a definition declares, and the strings at the end. -/
structure Lower.Realm where
  definitions : List Definition
  allows : Effect → Prop
  strings : List String
  declared : ∀ d ∈ definitions, ∀ effects, EffectSet.explicit? d.transforms d.path = .ok (some effects) →
    ∀ e, effects.contains e = true → allows e

namespace Piece
open Lower (Realm)
variable {u : Realm}

/-- Code that is laid out from a program: it takes `d` words and leaves `d'`, and its open exits lead out of a scope
    that starts `below` words below. The body of a definition that is sure to leave has no way to its end. -/
inductive Laid (u : Realm) : Option Nat → Piece → Nat → Nat → Prop
  | plain {below p d d'} (h : p.Plain u.strings d d') : Laid u below p d d'
  | print {below i plain} (prints : i.PrintsBelow u.strings.length)
    (allowed : u.allows (PrintMode.ofImm i.imm).effect) : Laid u below (.op i plain) i.op.operation.takes i.op.operation.leaves
  | seq {below a b d m d'} (ha : Laid u below a d m) (hb : Laid u below b m d') : Laid u below (a.seq b) d d'
  | branch {below yes no d d'} (hy : Laid u below yes d d') (hn : Laid u below no d d') :
    Laid u below (.branch yes no) (d + 1) d'
  | loop {below cond body d} (hc : Laid u below cond d (d + 1)) (hb : Laid u below body d d) :
    Laid u below (.loop cond body) d d
  | exit {waiting} : Laid u (some waiting) (.exit waiting) 0 0
  | expansion {below callee args body} (hcallee : callee ∈ u.definitions) (ha : Laid u below args 0 0)
    (hb : Laid u (some 0) body 0 0) (leaves : Returns.listSurely callee.body = true → body.Departs) :
    Laid u below (.expansion callee.path args body) 0 0
  | frame {below p d d'} (k : Nat) (h : Laid u (below.map (· + k)) p d d') : Laid u below p (d + k) (d' + k)

theorem Laid.skip {below : Option Nat} (d : Nat) : Laid u below .nop d d := .plain (.nop d)

/-- Code that is laid out keeps the discipline of the stack. -/
theorem Laid.balanced {below : Option Nat} {p : Piece} {d d' : Nat} (h : p.Laid u below d d') :
    p.Balanced u.strings.length below d d' := by
  induction h with
  | plain h => exact h.balanced.closed
  | print prints => exact .op prints
  | seq _ _ iha ihb => exact .seq iha ihb
  | branch _ _ ihy ihn => exact .branch ihy ihn
  | loop _ _ ihc ihb => exact .loop ihc ihb
  | exit => exact .exit
  | expansion _ _ _ _ iha ihb => exact .expansion iha ihb
  | frame k _ ih => exact .frame k ih

end Piece

namespace Lower
open Stateful

/-- `x` extends the code. If `P` holds and the strings in the end are among those of `u`, what it lays out takes `d`
    words and leaves `d'`, does not come to its end if `R` holds, and its result has the property `Q`. -/
def Emits {α : Type} (u : Realm) (below : Option Nat) (P R : Prop) (d d' : Nat) (x : Lowering α) (Q : α → Prop) :
    Prop :=
  ∀ s a t, x s = .ok (a, t) →
    ∃ p, Extends s p t ∧ (P → t.strings.toList <+: u.strings → p.Laid u below d d' ∧ (R → p.Departs) ∧ Q a)

abbrev Moves {α : Type} (u : Realm) (below : Option Nat) (P : Prop) (d d' : Nat) (x : Lowering α) : Prop :=
  Emits u below P False d d' x fun _ => True

def TextSource.Below (n : Nat) (text : TextSource) : Prop := ∀ i, text = .table i → i < n

def TextsBelow (n : Nat) (locals : Locals) : Prop := ∀ l ∈ locals, l.2.text.Below n

variable {ctx : Context} {e : Expr} {l : Local} {locals : Locals} {n : Nat} {x : String}

theorem TextsBelow.nil : TextsBelow n [] := fun _ h => absurd h List.not_mem_nil

theorem TextsBelow.lookup (h : TextsBelow n locals) (hl : locals.lookup x = some l) : l.text.Below n := by
  obtain ⟨l₁, l₂, rfl, -⟩ := List.lookup_eq_some_iff.mp hl
  exact h (x, l) (by simp)

theorem TextsBelow.cons (hl : l.text.Below n) (h : TextsBelow n locals) : TextsBelow n ((x, l) :: locals) :=
  List.forall_mem_cons.mpr ⟨hl, h⟩

abbrev Realm.Texts (u : Realm) (locals : Locals) : Prop := TextsBelow u.strings.length locals

section
variable {u : Realm} {below : Option Nat} {P P' R R' : Prop} {d m d' : Nat} {α β : Type}

namespace Emits
variable {x : Lowering α} {f : α → Lowering β} {Q : α → Prop} {Q' : β → Prop}

theorem assuming (h : Emits u below P R d d' x Q) (hP : P' → P) : Emits u below P' R d d' x Q := by
  intro s a t hx
  obtain ⟨p, hp, hb⟩ := h s a t hx
  exact ⟨p, hp, fun hP' => hb (hP hP')⟩

/-- Whether the code departs may be left open. -/
theorem departing (h : Emits u below P R d d' x Q) (hR : R' → R) : Emits u below P R' d d' x Q := by
  intro s a t hx
  obtain ⟨p, hp, hb⟩ := h s a t hx
  refine ⟨p, hp, fun hP hS => ?_⟩
  obtain ⟨hlaid, hdep, ha⟩ := hb hP hS
  exact ⟨hlaid, fun hR' => hdep (hR hR'), ha⟩

/-- Code that takes and leaves more, as it does not touch what is below. -/
theorem frame (k : Nat) (h : Emits u (below.map (· + k)) P R d d' x Q) : Emits u below P R (d + k) (d' + k) x Q := by
  intro s a t hx
  obtain ⟨p, hp, hb⟩ := h s a t hx
  exact ⟨p, hp, fun hP hS => (hb hP hS).imp_left (.frame k)⟩

/-- One after the other, of which either may depart. -/
theorem seq (hx : Emits u below P R d m x Q) (hf : ∀ a, Emits u below (P ∧ Q a) R' m d' (f a) Q') :
    Emits u below P (R ∨ R') d d' (x >>= f) Q' := by
  intro s b v h
  obtain ⟨a, t, h₁, h₂⟩ := bind_eq_ok.mp h
  obtain ⟨p, hp, hpl⟩ := hx s a t h₁
  obtain ⟨q, hq, hql⟩ := hf a t b v h₂
  refine ⟨p.seq q, hp.seq hq, fun hP hS => ?_⟩
  obtain ⟨hpl, hp, ha⟩ := hpl hP (hq.strings.trans hS)
  obtain ⟨hql, hq, hb⟩ := hql ⟨hP, ha⟩ hS
  exact ⟨.seq hpl hql, fun hR => hR.elim (fun hR => (hp hR).seqLeft) fun hR => (hq hR).seqRight, hb⟩

theorem bindWith (hx : Emits u below P False d m x Q) (hf : ∀ a, Emits u below (P ∧ Q a) R m d' (f a) Q') :
    Emits u below P R d d' (x >>= f) Q' :=
  (hx.seq hf).departing .inr

theorem bind (hx : Emits u below P False d m x Q) (hf : ∀ a, Emits u below P R m d' (f a) Q') :
    Emits u below P R d d' (x >>= f) Q' :=
  hx.bindWith fun a => (hf a).assuming And.left

theorem departFirst (hx : Emits u below P R d m x Q) (hf : ∀ a, Emits u below (P ∧ Q a) False m d' (f a) Q') :
    Emits u below P R d d' (x >>= f) Q' :=
  (hx.seq hf).departing .inl

variable {e : Error} {y : Lowering β} {op : Opcode} {imm : UInt64}

theorem andThen (hx : Emits u below P False d m x Q) (hy : Emits u below P R m d' y Q') :
    Emits u below P R d d' (x >>= fun _ => y) Q' :=
  hx.bind fun _ => hy

theorem pure {a : α} (ha : P → Q a) : Emits u below P False d d (pure a) Q := by
  intro s b t h
  obtain ⟨rfl, rfl⟩ := pure_eq_ok.mp h
  exact ⟨.nop, .nop s, fun hP _ => ⟨.skip d, nofun, ha hP⟩⟩

theorem throw : Emits u below P R d d' (throw e : Lowering α) Q := fun _ _ _ h => absurd h throw_ne_ok

/-- What emits nothing and gives a result with a property. -/
theorem of_nop (h : ∀ s a t, x s = .ok (a, t) → Extends s .nop t ∧ (P → t.strings.toList <+: u.strings → Q a)) :
    Emits u below P False d d x Q := by
  intro s a t hx
  obtain ⟨hp, hQ⟩ := h s a t hx
  exact ⟨.nop, hp, fun hP hS => ⟨.skip d, nofun, hQ hP hS⟩⟩

theorem lift {e : Except Error α} (he : ∀ a, e = .ok a → P → Q a) : Emits u below P False d d (liftM e : Lowering α) Q := by
  refine of_nop fun s a t h => ?_
  obtain ⟨he', rfl⟩ := lift_eq_ok.mp h
  exact ⟨.nop s, fun hP _ => he a he' hP⟩

theorem liftBind {e : Except Error α} (hf : ∀ a, e = .ok a → Emits u below P R d d' (f a) Q') :
    Emits u below P R d d' (liftM e >>= f) Q' := by
  intro s b v h
  obtain ⟨a, t, h₁, h₂⟩ := bind_eq_ok.mp h
  obtain ⟨he, rfl⟩ := lift_eq_ok.mp h₁
  exact hf a he _ b v h₂

theorem inferBind {m : Infer α}
    (hf : ∀ a cache cache', m.run cache = some (.ok a, cache') → Emits u below P R d d' (f a) Q') :
    Emits u below P R d d' (infer m >>= f) Q' := by
  intro s b v h
  obtain ⟨a, t, h₁, h₂⟩ := bind_eq_ok.mp h
  obtain ⟨cache, hrun, rfl⟩ := infer_inv h₁
  obtain ⟨p, hp, hpl⟩ := hf a _ _ hrun _ b v h₂
  exact ⟨p, extends_cache.mp hp, hpl⟩

theorem check {failed : Prop} [Decidable failed] {k : Unit → Lowering α} (hk : Emits u below P R d d' (k ()) Q) :
    Emits u below P R d d' (if failed then MonadExcept.throw e >>= k else k ()) Q :=
  fun s a t h => hk s a t (check_eq_ok.mp h).2

theorem ite {c : Prop} [Decidable c] {y : Lowering α} (hx : c → Emits u below P R d d' x Q)
    (hy : ¬c → Emits u below P R d d' y Q) : Emits u below P R d d' (if c then x else y) Q := by
  split
  case isTrue h => exact hx h
  case isFalse h => exact hy h

/-- A quiet instruction; one that returns departs. -/
theorem quiet {a b : Nat} (h : op.Quiet a b) (hR : R → op.isReturn = true) (k : Nat) :
    Emits u below P R (k + a) (k + b) (emitWith op imm) fun _ => True := by
  intro s ⟨⟩ t hx
  refine ⟨_, (emitWith_inv hx (Opcode.isJump_of_isQuiet h.1)).1, fun _ _ => ⟨.plain (.op h k), fun hR' => ?_, trivial⟩⟩
  exact Piece.departs_return (hR hR')

theorem print (plain : op.isJump = false) (allowed : u.allows (PrintMode.ofImm imm).effect)
    (prints : P → op = .printString → (PrintMode.stringIndex imm).toNat < u.strings.length) :
    Moves u below P op.operation.takes op.operation.leaves (emitWith op imm) := by
  intro s ⟨⟩ t hx
  exact ⟨_, (emitWith_inv hx plain).1, fun hP _ => ⟨.print (prints hP) allowed, nofun, trivial⟩⟩

theorem branch (hx : Emits u below P R d d' x Q) (hy : Emits u below P R d d' y Q') :
    Emits u below P R (d + 1) d' (branch x y) fun _ => True := by
  intro s ⟨a, b⟩ t h
  obtain ⟨s₁, t₁, s₂, t₂, hyes, hno, -, hm, ht, hext⟩ := branch_inv h
  obtain ⟨p, hp, hpl⟩ := hx s₁ a t₁ hyes
  obtain ⟨q, hq, hql⟩ := hy s₂ b t₂ hno
  refine ⟨.branch p q, hext p q hp hq, fun hP hS => ?_⟩
  rw [ht.strings] at hS
  obtain ⟨hpl, hpd, -⟩ := hpl hP (hm.strings ▸ hq.strings.trans hS)
  obtain ⟨hql, hqd, -⟩ := hql hP hS
  exact ⟨.branch hpl hql, fun hR => .branch (hpd hR) (hqd hR), trivial⟩

theorem loop (hx : Emits u below P False d (d + 1) x Q) (hf : ∀ a, Emits u below (P ∧ Q a) False d d (f a) Q') :
    Moves u below P d d (loop x f) := by
  intro s b t h
  obtain ⟨a, t₁, s₂, t₂, hcond, hbody, -, hs, ht, -, hext⟩ := loop_inv h
  obtain ⟨p, hp, hpl⟩ := hx s a t₁ hcond
  obtain ⟨q, hq, hql⟩ := hf a s₂ b t₂ hbody
  refine ⟨.loop p q, hext p q hp hq, fun hP hS => ?_⟩
  rw [ht.strings] at hS
  obtain ⟨hpl, -, ha⟩ := hpl hP (hs.strings ▸ hq.strings.trans hS)
  obtain ⟨hql, -, -⟩ := hql ⟨hP, ha⟩ hS
  exact ⟨.loop hpl hql, nofun, trivial⟩

theorem mapM {γ : Type} {g : γ → Lowering α} (hg : ∀ c, Moves u below P d d (g c)) (l : List γ) :
    Moves u below P d d (l.mapM g) := by
  induction l with
  | nil => exact pure fun _ => trivial
  | cons c l ih =>
    rw [List.mapM_cons]
    exact (hg c).bind fun _ => ih.bind fun _ => pure fun _ => trivial

end Emits

theorem emits_newSlots {k : Nat} : Moves u below P d d (newSlots k) :=
  .of_nop fun _ _ _ h => ⟨(newSlots_inv h).1, fun _ _ => trivial⟩

theorem emits_newSlot : Moves u below P d d newSlot := emits_newSlots (k := 1)

theorem emits_internText {text : String} : Emits u below P False d d (internText text) (· < u.strings.length) :=
  .of_nop fun _ _ _ h => by
    obtain ⟨hp, -, hi⟩ := internText_inv h
    exact ⟨hp, fun _ hS => Nat.lt_of_lt_of_le (Array.getElem?_eq_some_iff.mp hi).1 hS.length_le⟩

theorem emits_infer {x : Infer α} : Moves u below P d d (infer x) :=
  .of_nop fun s _ _ h => by
    obtain ⟨cache, -, rfl⟩ := infer_inv h
    exact ⟨extends_cache.mp (.nop { s with cache }), fun _ _ => trivial⟩

theorem emits_get : Moves u below P d d (get : Lowering State) :=
  .of_nop fun s _ _ h => by
    cases h
    exact ⟨.nop s, fun _ _ => trivial⟩

theorem Routine.emits {x : Lowering α} (h : Routine (fun _ => True) True d d' x) : Moves u below P d d' x := by
  intro s a t hx
  obtain ⟨p, hp, hplain⟩ := h.plain t.strings.toList s a t hx List.prefix_rfl
  exact ⟨p, hp, fun _ hS => ⟨.plain (hplain.mono hS), nofun, trivial⟩⟩

section
variable {slot : Nat} {w : Width}

theorem emits_load : Moves u below P d (d + 1) (load slot) := routine_load.emits

theorem emits_store : Moves u below P (d + 1) d (store slot) := routine_store.emits

theorem emits_pushI32 {imm : UInt64} : Moves u below P d (d + 1) (emitWith .pushI32 imm) := routine_pushI32.emits

theorem emits_loadIndirect : Moves u below P (d + 1) (d + 1) (emit .loadIndirect) := routine_loadIndirect.emits

theorem emits_pushInt {k : Int64} : Moves u below P d (d + 1) (pushInt w k) := routine_pushInt.emits

theorem emits_arithmetic {op : ArithmeticOp} : Moves u below P (d + 2) (d + 1) (arithmetic op w) :=
  routine_arithmetic.emits

theorem emits_compare {op : ComparisonOp} : Moves u below P (d + 2) (d + 1) (compare op w) := routine_compare.emits

theorem emits_coerce {source target : Kind} : Moves u below P (d + 1) (d + 1) (coerce source target) :=
  routine_coerce.emits

end

theorem emits_operand : Moves u below P d d (ctx.operand locals e) :=
  emits_infer

end

/-- How far below the operands the scope starts that a `return` leaves; none if it ends the run. -/
def Context.below (ctx : Context) : Option Nat :=
  match ctx.target with
  | .run _ => none
  | .expansion .. => some ctx.waiting

theorem Context.below_behind (ctx : Context) : ctx.behind.below = ctx.below.map (· + 1) := by
  unfold below behind
  cases ctx.target <;> rfl

theorem Context.inside_inv {ctx' : Context} (h : ctx.inside e = .ok ctx') :
    ∃ effects, ctx.effects.inside ctx.home e = .ok effects ∧ ctx' = { ctx with effects } := by
  obtain ⟨effects, heffects, h₁⟩ := except_bind_eq_ok.mp h
  cases h₁
  exact ⟨effects, heffects, rfl⟩

/-- A context whose definitions and inference are those of the program, and whose effects are allowed. -/
structure Realm.Admits (u : Realm) (ctx : Context) : Prop where
  definitions : ctx.scope.definitions = u.definitions
  inferrer : ∃ depth, ctx.inferrer = .atDepth ctx.scope depth
  defaults : ∀ x, ctx.defaults.contains x = true → u.allows x
  effects : ∀ x, ctx.effects.contains x = true → u.allows x

namespace Realm.Admits
variable {u : Realm} {ctx ctx' : Context}

theorem behind (h : u.Admits ctx) : u.Admits ctx.behind := ⟨h.definitions, h.inferrer, h.defaults, h.effects⟩

theorem inside {e : Expr} (h : u.Admits ctx) (hctx : ctx.inside e = .ok ctx') : u.Admits ctx' ∧ ctx'.below = ctx.below := by
  obtain ⟨effects, heffects, rfl⟩ := Context.inside_inv hctx
  exact ⟨⟨h.definitions, h.inferrer, h.defaults, fun x hx => h.effects x (EffectSet.contains_of_inside heffects hx)⟩, rfl⟩

end Realm.Admits

/-- Expressions leave one word, and statements none; a statement that is sure to leave departs. A literal is pushed. -/
structure Emitter.Good (u : Realm) (E : Emitter) : Prop where
  expr : ∀ {ctx locals e}, u.Admits ctx → Moves u ctx.below (u.Texts locals) 0 1 (E.expr ctx locals e)
  statement : ∀ {ctx locals e}, u.Admits ctx →
    Emits u ctx.below (u.Texts locals) (Returns.surely false e = true) 0 0 (E.statement ctx locals e) u.Texts
  literal : ∀ {ctx locals ts l s o t}, E.expr ctx locals (.literal ts l) s = .ok (o, t) →
    ∃ i, literalPush l = .ok i ∧ o = .value (.ofLiteral l) ∧ emitWith i.op i.imm s = .ok ((), t)

namespace Emitter.Good
variable {u : Realm} {E : Emitter} {ctx : Context} {locals : Locals} {e : Expr} {body : List Expr}

theorem exprBehind (hE : E.Good u) (hctx : u.Admits ctx) :
    Moves u ctx.below (u.Texts locals) 1 2 (E.expr ctx.behind locals e) :=
  .frame 1 (ctx.below_behind ▸ hE.expr hctx.behind)

/-- Statements depart if one of them does. -/
theorem statements (hE : E.Good u) (hctx : u.Admits ctx) :
    Emits u ctx.below (u.Texts locals) (Returns.listSurely body = true) 0 0 (E.statements ctx locals body) u.Texts := by
  induction body generalizing locals with
  | nil => exact Emits.departing (.pure id) nofun
  | cons e rest ih =>
    by_cases he : Returns.surely false e = true
    · refine ((hE.statement hctx).departing fun _ => he).departFirst fun _ => ?_
      exact (ih.assuming And.right).departing nofun
    · refine ((hE.statement hctx).departing nofun).bindWith fun _ => ?_
      exact (ih.assuming And.right).departing fun h => by simpa [Returns.listSurely, he] using h

theorem block (hE : E.Good u) (hctx : u.Admits ctx) :
    Emits u ctx.below (u.Texts locals) (Returns.listSurely body = true) 0 0 (E.block ctx locals body) fun _ => True :=
  (hE.statements hctx).departFirst fun _ => .pure fun _ => trivial

theorem exprAt {w : Width} (hE : E.Good u) (hctx : u.Admits ctx) :
    Moves u ctx.below (u.Texts locals) 0 1 (E.exprAt ctx locals e w) :=
  (hE.expr hctx).bind fun _ => emits_coerce

theorem exprAtBehind {w : Width} (hE : E.Good u) (hctx : u.Admits ctx) :
    Moves u ctx.below (u.Texts locals) 1 2 (E.exprAt ctx.behind locals e w) :=
  .frame 1 (ctx.below_behind ▸ hE.exprAt hctx.behind)

theorem condition {fault : TypeError} (hE : E.Good u) (hctx : u.Admits ctx) :
    Moves u ctx.below (u.Texts locals) 0 1 (E.condition ctx locals fault e) :=
  (hE.expr hctx).bind fun _ => .ite (fun _ => .throw) fun _ => .pure fun _ => trivial

theorem blockValue (hE : E.Good u) (hctx : u.Admits ctx) :
    Moves u ctx.below (u.Texts locals) 0 1 (E.blockValue ctx locals body) := by
  unfold Emitter.blockValue
  split
  case h_1 => exact .throw
  case h_2 last _ =>
    refine ((hE.statements hctx).departing nofun).bindWith fun inner => .check (.ite (fun _ => ?_) fun _ => ?_)
    · exact (((hE.statement hctx).departing nofun).assuming And.right).bind fun _ =>
        emits_pushI32.andThen (.pure fun _ => trivial)
    · exact (hE.expr hctx).assuming And.right

end Emitter.Good
end Lower
end FlatCode
