import FlatCode.Lower.Expression
import FlatCode.Proofs.Source.Selection

/-! The code of operators, selections, conversions and assignments does what they mean, if that of their operands does. -/

namespace FlatCode.Source
open Lower
open Machine (exec)

/-- The words of scalars are those of the scalars they are converted to. -/
theorem coerce_operands (o o' : Option Scalar) : coerce (operandOf o).kind (operandOf o').kind = pure () := by
  rcases o with _ | (_ | _ | _ | _) <;> rcases o' with _ | (_ | _ | _ | _) <;> rfl

theorem coerce_scalar (o : Option Scalar) (k : Scalar) : coerce (operandOf o).kind k.kind = pure () :=
  coerce_operands o (some k)

variable {op : ArithmeticOp} {slots : Array Word} {n : Int} {es : List Expr} {as : List Term} {ts : List Transform}
  {base next : Nat} {k : Scalar} {builtin x : String} {α : Type} {w : Width} {Φ : α → State → Piece → Prop}

theorem widthOf_operand {o : Option Scalar} (h : widthOf (operandOf o).kind = .ok w) :
    ∃ k, o = some k ∧ w = k.width := by
  rcases o with _ | (_ | _ | _ | _) <;> cases h <;> exact ⟨_, rfl, rfl⟩

section
variable {env : Machine.Env} {fuel : Nat} {T : Scalar} {E : Emitter} {ctx : Context} {locals : Locals} {Γ : Kinds}
  {s : State} {e l r : Expr} {a b : Term} {c : Call} (h : Ready env fuel T E ctx locals Γ s.nextSlot)

theorem Yields.operandBind {f : Operand → Lowering α} (hctx : InEntry T ctx)
    (hΓ : Typed locals Γ) (he : IsTerm T Γ e a)
    (hf : ∀ cache, Yields (f (operandOf (a.kind? Γ))) { s with cache } Φ) : Yields (ctx.operand locals e >>= f) s Φ :=
  .inferBind fun o c c' h => by
    cases hctx.inferrer hΓ he h
    exact hf c'

theorem Ready.expr (h : Ready env fuel T E ctx locals Γ next) (hs : s.nextSlot = next) (he : IsTerm T Γ e a) :
    Yields (E.expr ctx locals e) s (TermCode env fuel next locals (a.kind? Γ) (a.eval fuel)) := by
  subst hs
  exact h.emitter.expr h.entry h.typed h.apart he

theorem Ready.exprAt (h : Ready env fuel T E ctx locals Γ next) (hs : s.nextSlot = next)
    (he : IsTerm T Γ e a) (hk : k ≠ .bool) :
    Yields (E.exprAt ctx locals e k.width) s fun _ t p =>
      TermCode env fuel next locals (a.kind? Γ) (a.eval fuel) (operandOf (a.kind? Γ)) t p := by
  refine .bindDone (b := fun _ => ()) ((h.expr hs he).imp fun o t p hp => ?_)
  cases hp.operand
  exact ⟨by rw [Scalar.kind_width hk, coerce_scalar], hp⟩

include h in
theorem yields_arithmetic (hl : IsTerm T Γ l a) (hr : IsTerm T Γ r b) :
    Yields (emitArithmetic E ctx locals op l r) s
      (TermCode env fuel s.nextSlot locals ((Term.arithmetic op a b).kind? Γ) ((Term.arithmetic op a b).eval fuel)) := by
  refine .operandBind h.entry h.typed hl fun _ => .operandBind h.entry h.typed hr fun _ => .liftBind fun res hres => ?_
  obtain ⟨k, hk, rfl⟩ := resolve_operands hres
  obtain ⟨i, j, hi, hj, hne, hik, hjk⟩ := Scalar.join_eq_some hk
  refine .bind (h.exprAt rfl hl hne) fun _ t p hst hp => ?_
  refine .bind ((h.later hst.slots).behind.exprAt rfl hr hne) fun _ u q htu hq => ?_
  refine .bindPure (.emitWith (plain_arithmetic _ _) fun c huv htv => ?_)
  refine ⟨?_, hp.fills.seq (hq.fills.seq .none), fun ρ stack slots hfits hρ => ?_⟩
  · rw [Term.kind?, hk, ArithmeticResolution.result, Scalar.kind_width hne]
    rfl
  rw [Term.eval, hρ.kinds h.typed, hk]
  refine hp.andThen (hfits.earlier htv) hρ fun _ m ρ₁ slots₁ hi' hm hρ₁ hkept₁ => ?_
  refine hq.andThen (hkept₁.size ▸ hfits.earlier huv) hρ₁ fun _ n ρ₂ slots₂ hj' hn hρ₂ hkept₂ => ?_
  cases hi.symm.trans hi'
  cases hj.symm.trans hj'
  refine does_arithmetic hne (hik m hm) (hjk n hn) fun x _ hx => ?_
  exact ⟨rfl, ⟨k, hk, hx⟩, hρ₂, hkept₁.trans hkept₂ hst.slots⟩

include h in
theorem yields_negate (he : IsTerm T Γ e a) :
    Yields (emitNegate E ctx locals e) s
      (TermCode env fuel s.nextSlot locals ((Term.negate a).kind? Γ) ((Term.negate a).eval fuel)) := by
  refine .operandBind h.entry h.typed he fun _ => .liftBind fun w hw => ?_
  obtain ⟨k, hk, hsigned, rfl⟩ := resolveNegate_operand hw
  have hne : k ≠ .bool := fun hk => by subst hk; cases hsigned
  refine .bind (h.exprAt rfl he hne) fun _ t p hst hp => ?_
  cases hop : Opcode.negate? k.width with
  | none => exact .throw
  | some op =>
    have plain : op.isJump = false := by cases k <;> cases hop <;> rfl
    have hkind : (Term.negate a).kind? Γ = some k := by rw [Term.kind?, hk, Option.filter_some_pos hsigned]
    refine .bindPure (.emitWith plain fun c htu => ⟨?_, hp.fills.seq .none, fun ρ stack slots hfits hρ => ?_⟩)
    · rw [hkind, Scalar.kind_width hne]
      rfl
    rw [Term.eval, hρ.kinds h.typed, hk]
    refine hp.andThen (hfits.earlier htu) hρ fun _ n ρ₁ slots₁ _ _ hρ₁ hkept₁ => ?_
    exact .of_goes (goes_negate hop hne) ⟨rfl, ⟨k, hkind, k.holds_wrap _⟩, hρ₁, hkept₁⟩

include h in
theorem yields_comparison {op : ComparisonOp} (hl : IsTerm T Γ l a) (hr : IsTerm T Γ r b) :
    Yields (emitComparison E ctx locals op l r) s
      (TermCode env fuel s.nextSlot locals (some .bool) ((Term.comparison op a b).eval fuel)) := by
  refine .operandBind h.entry h.typed hl fun _ => .operandBind h.entry h.typed hr fun _ => .liftBind fun w hw => ?_
  obtain ⟨i, j, k, hi, hj, hk, rfl⟩ := resolveComparison_operands hw
  obtain ⟨hne, hik, hjk⟩ := Scalar.join?_eq_some hk
  refine .bind (h.exprAt rfl hl hne) fun _ t p hst hp => ?_
  refine .bind ((h.later hst.slots).behind.exprAt rfl hr hne) fun _ u q htu hq => ?_
  refine .bindPure (.emitWith (plain_compare _ _) fun c huv htv => ?_)
  refine ⟨rfl, hp.fills.seq (hq.fills.seq .none), fun ρ stack slots hfits hρ => ?_⟩
  rw [Term.eval]
  refine hp.andThen (hfits.earlier htv) hρ fun _ m ρ₁ slots₁ hi' hm hρ₁ hkept₁ => ?_
  refine hq.andThen (hkept₁.size ▸ hfits.earlier huv) hρ₁ fun _ n ρ₂ slots₂ hj' hn hρ₂ hkept₂ => ?_
  cases hi.symm.trans hi'
  cases hj.symm.trans hj'
  refine .of_goes (goes_compare _ hne (hik m hm.number) (hjk n hn.number)) ?_
  exact ⟨rfl, ⟨.bool, rfl, Scalar.holds_truth _⟩, hρ₂, hkept₁.trans hkept₂ hst.slots⟩

/-- What decides a branch is a bool, or never has a value. -/
theorem Ready.condition {fault : TypeError} (h : Ready env fuel T E ctx locals Γ next)
    (hs : s.nextSlot = next) (he : IsTerm T Γ e a) :
    Yields (E.condition ctx locals fault e) s fun _ =>
      TermCode env fuel next locals (some .bool) (a.eval fuel) (.value .bool) := by
  refine .bindEnd ((h.expr hs he).imp fun o t p hp b u hu => ?_)
  cases hp.operand
  obtain ⟨hcond, hu⟩ := Stateful.check_eq_ok.mp hu
  cases hu
  refine ⟨rfl, rfl, hp.fills, fun ρ stack slots hfits hρ => (hp.does ρ stack slots hfits hρ).imp ?_⟩
  rintro r st sl ⟨hst, ⟨k, hk, hr⟩, hρ', hkept⟩
  rw [hk] at hcond
  cases k with
  | bool => exact ⟨hst, ⟨.bool, rfl, hr⟩, hρ', hkept⟩
  | i32 | i64 | u64 => exact absurd rfl hcond

include h in
theorem yields_conjunction (hl : IsTerm T Γ l a) (hr : IsTerm T Γ r b) :
    Yields (do
      emitBool E ctx locals l
      let _ ← branch (emitBool E ctx locals r) (emitWith .pushI32 0)
      return .value .bool) s
      (TermCode env fuel s.nextSlot locals (some .bool) ((Term.conjunction a b).eval fuel)) := by
  refine .bind (h.condition rfl hl) fun _ t p hst hp => .bindPure ?_
  refine .branch (fun _ _ => (h.later hst.slots).condition rfl hr) fun _ u q htu hq c k => ?_
  refine .emitWith rfl fun _ _ _ huv htv => ⟨rfl, hp.fills.seq (hq.fills.branch .none), fun ρ stack slots hfits hρ => ?_⟩
  rw [Term.eval]
  refine hp.branch (hfits.earlier htv) hρ (fun n ρ₁ slots₁ hn hρ₁ hkept₁ => ?_) fun ρ₁ slots₁ hρ₁ hkept₁ => ?_
  · simp only [if_neg hn]
    refine (hq.does ρ₁ stack slots₁ (hkept₁.size ▸ hfits.earlier huv) hρ₁).imp fun _ _ _ hr => ?_
    exact hr.after hkept₁ hst.slots
  · exact .of_goes (goes_push rfl rfl) ⟨rfl, ⟨.bool, rfl, .inl rfl⟩, hρ₁, hkept₁⟩

include h in
theorem yields_disjunction (hl : IsTerm T Γ l a) (hr : IsTerm T Γ r b) :
    Yields (do
      emitBool E ctx locals l
      let _ ← branch (emitWith .pushI32 1) (emitBool E ctx locals r)
      return .value .bool) s
      (TermCode env fuel s.nextSlot locals (some .bool) ((Term.disjunction a b).eval fuel)) := by
  refine .bind (h.condition rfl hl) fun _ t p hst hp => .bindPure ?_
  refine .branch (Φ := PushCode env fuel (fun (_ : Unit) _ => True) (fun _ => 1) t.nextSlot)
    (fun _ _ => .emitWith rfl fun _ => ⟨rfl, fun _ _ _ _ => goes_push rfl rfl⟩) fun _ u q htu ⟨hslot, hq⟩ c k => ?_
  refine Yields.imp ((h.later hst.slots).condition hslot hr) fun _ v q' hq' => ?_
  refine fun _ _ huv htv => ⟨rfl, hp.fills.seq (Fills.none.branch hq'.fills), fun ρ stack slots hfits hρ => ?_⟩
  rw [Term.eval]
  refine hp.branch (hfits.earlier htv) hρ (fun n ρ₁ slots₁ hn hρ₁ hkept₁ => ?_) fun ρ₁ slots₁ hρ₁ hkept₁ => ?_
  · simp only [if_neg hn]
    exact .of_goes (hq () stack slots₁ trivial) ⟨rfl, ⟨.bool, rfl, .inr rfl⟩, hρ₁, hkept₁⟩
  · refine (hq'.does ρ₁ stack slots₁ (hkept₁.size ▸ hfits.relaid) hρ₁).imp fun _ _ _ hr => ?_
    exact hr.after hkept₁ hst.slots

include h in
theorem yields_not (he : IsTerm T Γ e a) :
    Yields (do
      emitBool E ctx locals e
      emitWith .pushI32 0
      emit .cmpEqI32
      return .value .bool) s
      (TermCode env fuel s.nextSlot locals (some .bool) ((Term.not a).eval fuel)) := by
  refine .bind (h.condition rfl he) fun _ t p hst hp => .emitBind rfl fun _ => .bindPure (.emitWith rfl fun _ htu => ?_)
  refine ⟨rfl, hp.fills.seq .none, fun ρ stack slots hfits hρ => ?_⟩
  rw [Term.eval]
  refine hp.andThen (hfits.earlier htu) hρ fun k n ρ₁ slots₁ hk hn hρ₁ hkept₁ => ?_
  cases hk
  refine .after (goes_push rfl rfl) (.of_goes (goes_compare .equal (k := .i32) (by simp) hn.number (Scalar.holds_zero _)) ?_)
  exact ⟨rfl, ⟨.bool, rfl, Scalar.holds_truth _⟩, hρ₁, hkept₁⟩

include h in
theorem yields_convert (he : IsTerm T Γ e a) (target : c.convertTarget = .ok k.kind) (wide : k ≠ .i32) :
    Yields (emitConvert E ctx locals c e) s
      (TermCode env fuel s.nextSlot locals (some k) ((Term.convert k a).eval fuel)) := by
  refine .liftBind fun _ ht => ?_
  cases target.symm.trans ht
  refine .bind (h.expr rfl he) fun o t p hst hp => ?_
  cases hp.operand
  refine .check fun _ => .liftBind fun w hw => ?_
  obtain ⟨j, hj, rfl⟩ := widthOf_operand hw
  rw [← j.width_number, coerce_scalar]
  refine .ite (fun hkind => ?_) fun hkind => ?_
  · cases Scalar.kind_inj (b := .bool) hkind
    refine .emitBind (plain_push _) fun _ => .bindPure (.emitWith (plain_compare _ _) fun _ htu => ?_)
    refine ⟨rfl, hp.fills.seq .none, fun ρ stack slots hfits hρ => ?_⟩
    rw [Term.eval]
    refine hp.andThen (hfits.earlier htu) hρ fun _ n ρ₁ slots₁ hk hn hρ₁ hkept₁ => ?_
    cases hj.symm.trans hk
    refine .after (goes_pushInt rfl) (.of_goes (goes_compare _ j.number_ne_bool hn.number (Scalar.holds_zero _)) ?_)
    refine ⟨?_, ⟨.bool, rfl, Scalar.holds_wrap _ _⟩, hρ₁, hkept₁⟩
    by_cases hn : n = 0 <;> simp [truth, holds, Scalar.wrap, hn]
  -- The word stays as it is, and stands for the wrapped number in the new kind.
  · refine .liftBind fun _ _ => .bindPure (.pure fun htu => ⟨rfl, hp.fills.seq .none, fun ρ stack slots hfits hρ => ?_⟩)
    rw [Term.eval]
    refine hp.andThen (hfits.earlier htu) hρ fun _ n ρ₁ slots₁ hk hn hρ₁ hkept₁ => .done ?_
    refine ⟨congrArg (· :: stack) ?_, ⟨k, rfl, k.holds_wrap _⟩, hρ₁, hkept₁⟩
    cases k with
    | i32 => exact absurd rfl wide
    | i64 => exact (word_wrap_i64 n).symm
    | u64 => exact (word_wrap_u64 n).symm
    | bool => exact absurd rfl hkind

/-- The value on the stack is assigned to a local and left there. -/
theorem does_assign {l : Local} {ρ : Env} {cell : Cell} {stack : List Word} {slots₀ : Array Word} {plain plain'}
    (hΓ : Γ.lookup x = some k) (hn : k.Holds n) (hapart : Apart next locals) (hl : locals.lookup x = some l)
    (hcell : ρ.lookup x = some cell) (hkind : cell.kind = k) (hfits : Fits env slots.size s)
    (hnext : next ≤ s.nextSlot) (hρ : Represents slots locals ρ) (hkept : Kept base locals slots₀ slots) :
    Does (exec env fuel (.seq (.op { op := .dup } plain)
        (.op { op := .storeLocal, imm := UInt64.ofNat l.slot } plain')))
      (word n :: stack) slots (.done (n, ρ.set x n)) (Evaluated base locals (Γ.lookup x) stack slots₀) := by
  have hslot : l.slot < s.nextSlot := Nat.lt_of_lt_of_le (hapart.bound _ (mem_of_lookup hl)) hnext
  subst hkind
  refine .after goes_dup (.of_goes (hfits.goes_store hslot) ⟨rfl, ⟨_, hΓ, hn⟩, hρ.set hapart hl hcell hn, ?_⟩)
  exact hkept.trans (.store (.inr ⟨_, mem_of_lookup hl, rfl⟩)) (Nat.le_refl _)

theorem assignLocal_value {l : Local} (hshape : l.type.shape = .value) (hkind : l.type.kind = k.kind) :
    assignLocal E ctx locals x l e = do
      let operand ← E.expr ctx locals e
      coerce operand.kind k.kind
      emit .dup
      store l.slot
      return l.operand := by
  have hstring : ¬k.kind = .string := by cases k <;> exact nofun
  simp only [assignLocal, hshape, hkind, if_neg hstring]

include h in
theorem yields_assign (he : IsTerm T Γ e a) (hx : Γ.lookup x = some k) (own : a.kind? Γ = some k) :
    Yields (emitAssign E ctx locals (.name ts x) e) s
      (TermCode env fuel s.nextSlot locals (Γ.lookup x) ((Term.assign x a).eval fuel)) := by
  refine .liftBind fun l hl => ?_
  have hlookup := (mutableLocal_inv hl).1
  obtain ⟨k', hk', hshape, hkind⟩ := h.typed.lookup hlookup
  cases hx.symm.trans hk'
  rw [assignLocal_value hshape hkind]
  refine .bind (h.expr rfl he) fun o t p hst hp => ?_
  cases hp.operand
  rw [coerce_scalar, pure_bind]
  refine .emitBind rfl fun _ => .bindPure (.emitWith rfl fun _ htu => ?_)
  refine ⟨h.typed.operand hlookup, hp.fills.seq .none, fun ρ stack slots hfits hρ => ?_⟩
  rw [Term.eval]
  refine hp.andThen (hfits.earlier htu) hρ fun j n ρ₁ slots₁ hj hn hρ₁ hkept₁ => ?_
  cases own.symm.trans hj
  obtain ⟨cell, hcell, hcellkind, -⟩ := hρ₁.lookup hlookup
  exact does_assign hx hn h.apart hlookup hcell (Scalar.kind_inj (hcellkind.symm.trans hkind))
    (hkept₁.size ▸ hfits.earlier htu) hst.slots hρ₁ hkept₁

theorem stepLocal_value {l : Local} (hshape : l.type.shape = .value) :
    stepLocal builtin op l = do
      let w ← stepWidth builtin l.type.kind
      load l.slot
      pushInt w 1
      arithmetic op w
      emit .dup
      store l.slot
      return .value l.type.kind := by
  simp only [stepLocal, stepTop, hshape, bind_assoc]

theorem stepWidth_kind (h : stepWidth builtin k.kind = .ok w) : k ≠ .bool ∧ w = k.width := by
  cases k <;> cases h <;> exact ⟨nofun, rfl⟩

include h in
theorem yields_step :
    Yields (emitStep E ctx locals builtin op (.name ts x)) s
      (TermCode env fuel s.nextSlot locals (Γ.lookup x) ((Term.step op x).eval fuel)) := by
  refine .liftBind fun l hl => ?_
  have hlookup := (mutableLocal_inv hl).1
  obtain ⟨k, hk, hshape, hkind⟩ := h.typed.lookup hlookup
  rw [stepLocal_value hshape]
  refine .liftBind fun w hw => ?_
  rw [hkind] at hw
  obtain ⟨hne, rfl⟩ := stepWidth_kind hw
  refine .emitBind rfl fun _ => .emitBind (plain_push _) fun _ => .emitBind (plain_arithmetic _ _) fun _ => ?_
  refine .emitBind rfl fun _ => .bindPure (.emitWith rfl fun _ => ⟨?_, .none, fun ρ stack slots hfits hρ => ?_⟩)
  · rw [hk, hkind]
    rfl
  obtain ⟨cell, hcell, hcellkind, hrange, hslot⟩ := hρ.lookup hlookup
  cases Scalar.kind_inj (hkind.symm.trans hcellkind)
  rw [Term.eval, hcell]
  refine .after (goes_load hslot hfits.small) (.after (goes_pushInt rfl) ?_)
  -- The result is known before it is assigned, so that the assignment is code after the evaluation.
  refine Does.before (P := fun r st sl => st = word r.1 :: stack ∧ sl = slots ∧ cell.kind.Holds r.1 ∧ r.2 = ρ.set x r.1)
    (does_arithmetic hne hrange (Scalar.holds_one _) fun n _ hn => ⟨rfl, rfl, hn, rfl⟩) ?_
  rintro ⟨n, ρ'⟩ _ _ ⟨rfl, rfl, hn, hρ'⟩
  obtain rfl : ρ' = ρ.set x n := hρ'
  exact does_assign hk hn h.apart hlookup hcell rfl hfits (Nat.le_refl _) hρ .refl

theorem Yields.operandsBind {f : List Operand → Lowering α} (hctx : InEntry T ctx) (hΓ : Typed locals Γ)
    (hs : AreTerms T Γ es as) (hf : ∀ cache, Yields (f ((Term.kinds Γ as).map operandOf)) { s with cache } Φ) :
    Yields (es.mapM (ctx.operand locals) >>= f) s Φ := by
  induction es generalizing s as f with
  | nil =>
    cases hs
    exact hf s.cache
  | cons e es ih =>
    cases hs with
    | cons he hes =>
      simp only [List.mapM_cons, bind_assoc, pure_bind]
      exact .operandBind hctx hΓ he fun _ => ih hes fun cache => hf cache

structure Spilled (base : Nat) (locals : Locals) (k : Scalar) (is : List Nat) (stack : List Word) (slots : Array Word)
    (r : List Int × Env) (stack' : List Word) (slots' : Array Word) : Prop where
  stack : stack' = stack
  values : AllHeld k slots' is r.1
  bindings : Represents slots' locals r.2
  kept : Kept base locals slots slots'

/-- The code of terms that are evaluated from left to right, each to a slot of its own. -/
structure SpillCode (env : Machine.Env) (fuel base : Nat) (locals : Locals) (k : Scalar) (as : List Term) (is : List Nat)
    (t : State) (p : Piece) : Prop where
  fills : Fills base t.nextSlot p
  does : ∀ ρ stack slots, Fits env slots.size t → Represents slots locals ρ →
    Does (exec env fuel p) stack slots (Term.evalAll fuel as ρ) (Spilled base locals k is stack slots)

theorem Holding.kept {i : Nat} {slots' : Array Word} (h : Holding k slots i n)
    (hkept : Kept base locals slots slots') (hi : i < base) (hne : ∀ l ∈ locals, l.2.slot ≠ i) : Holding k slots' i n :=
  ⟨hkept.size ▸ h.1, (hkept.same i hi hne).trans h.2.1, h.2.2⟩

theorem yields_spills (h : Ready env fuel T E ctx locals Γ next) (hnext : s.nextSlot = next) (hs : AreTerms T Γ es as)
    (hne : k ≠ .bool) (hk : ∀ o ∈ Term.kinds Γ as, ∃ i, o = some i ∧ ∀ n, i.Holds n → k.Holds n) :
    Yields (es.mapM fun e => do
      E.exprAt ctx locals e k.width
      spill) s (SpillCode env fuel next locals k as) := by
  induction es generalizing s as next with
  | nil =>
    cases hs
    subst hnext
    exact .pure ⟨.none, fun ρ stack slots hfits hρ => .done ⟨rfl, .nil, hρ, .refl⟩⟩
  | cons e es ih =>
    cases hs with
    | @cons _ _ a _ as he hes =>
      obtain ⟨⟨i, hi, hik⟩, hrest⟩ := List.forall_mem_cons.mp hk
      simp only [List.mapM_cons, bind_assoc, spill, pure_bind]
      refine .bind (h.exprAt hnext he hne) fun _ t p hst hp => .newSlotBind (.emitBind rfl fun _ => ?_)
      have hle : next ≤ t.nextSlot := hnext ▸ hst.slots
      refine .bindPure ((ih (h.later (Nat.le_succ_of_le hle)) rfl hes hrest).imp fun is u q hq hlt htu => ?_)
      refine ⟨hp.fills.seq (Fills.slot.seq hq.fills), fun ρ stack slots hfits hρ => ?_⟩
      rw [Term.evalAll]
      refine hp.andThen (hfits.earlier htu) hρ fun _ n ρ₁ slots₁ hi' hn hρ₁ hkept₁ => ?_
      cases hi.symm.trans hi'
      -- The slot is a new one, so that neither the locals nor the terms that follow change it.
      have hnew : ∀ l ∈ locals, l.2.slot ≠ t.nextSlot := h.apart.ne hle
      have hfits₁ : Fits env slots₁.size u := hkept₁.size ▸ hfits
      have hfits₂ : Fits env (slots₁.setIfInBounds t.nextSlot (word n)).size u := by rwa [Array.size_setIfInBounds]
      have hheld := hfits₁.holding_store hlt (hik n hn)
      refine .after (hfits₁.goes_store hlt) (Does.map (hq.does ρ₁ stack _ hfits₂ (hρ₁.store hnew)) ?_)
      rintro ⟨ns, ρ₂⟩ _ slots₂ ⟨rfl, hns, hρ₂, hkept₂⟩
      refine ⟨_, rfl, rfl, .cons (hheld.kept hkept₂ (Nat.lt_succ_self _) hnew) hns, hρ₂, ?_⟩
      exact hkept₁.trans ((Kept.store (.inl (Nat.le_refl _))).trans hkept₂ (Nat.le_succ _)) hle

include h in
theorem yields_selection {f : Selection} (hs : AreTerms T Γ c.args as) :
    Yields (emitMath E ctx locals c f.function) s
      (TermCode env fuel s.nextSlot locals ((Term.selection f as).kind? Γ) ((Term.selection f as).eval fuel)) := by
  refine .operandsBind h.entry h.typed hs fun _ => .liftBind fun w hw => ?_
  obtain ⟨k, hk, rfl⟩ := resolveMath_operands hw
  obtain ⟨hne, hall⟩ := Scalar.joinAll_eq_some hk
  refine .bind (yields_spills h rfl hs hne hall) fun is t p hst hp => ?_
  have happly : Yields (applyMath c.name f.function k.width is) t (SelectCode env fuel k f is t.nextSlot) :=
    yields_applyMath hne
  refine .bindPure (happly.imp fun _ u q ⟨hslots, hq⟩ htu => ?_)
  refine ⟨?_, hp.fills.seq (hslots ▸ .none), fun ρ stack slots hfits hρ => ?_⟩
  · rw [Term.kind?, hk, Scalar.kind_width hne]
    rfl
  rw [Term.eval, hρ.kinds h.typed, hk]
  refine (hp.does ρ stack slots (hfits.earlier htu) hρ).seq ?_
  rintro ⟨ns, ρ₁⟩ _ slots₁ ⟨rfl, hns, hρ₁, hkept₁⟩
  obtain ⟨n, hselect, hn, hgoes⟩ := hq ns _ slots₁ hns
  simp only [hselect]
  exact .of_goes hgoes ⟨rfl, ⟨k, hk, hn⟩, hρ₁, hkept₁⟩

end
end FlatCode.Source
