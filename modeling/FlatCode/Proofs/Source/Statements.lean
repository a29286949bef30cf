import FlatCode.Lower.Statement
import FlatCode.Proofs.Routine
import FlatCode.Proofs.Source.Expressions

/-! The code of statements does what they mean, if that of their parts does. -/

namespace FlatCode.Source
open Lower
open Machine (exec)

structure ClosedCode (env : Machine.Env) (fuel base : Nat) (locals : Locals) (run : Env → Run Env) (t : State) (p : Piece) :
    Prop where
  fills : Fills base t.nextSlot p
  does : ∀ ρ stack slots, Fits env slots.size t → Represents slots locals ρ →
    Does (exec env fuel p) stack slots (run ρ) (Executed base locals locals stack slots)

variable {slots : Array Word} {b : Builtin} {cls : BuiltinClass} {ρ : Env} {run : Env → Run Env} {yes : Expr}
  {n : Int} {Δ : Kinds} {es : List Expr} {ss : List Stmt} {ts : List Transform} {stack : List Word} {counter : Nat}
  {k : Scalar} {site : Site} {st : Stmt} {x : String} {α : Type}

section
variable {env : Machine.Env} {fuel : Nat} {T : Scalar} {E : Emitter} {ctx : Context} {locals : Locals} {Γ : Kinds}
  {s : State} {e : Expr} {a : Term} {c : Call} {next : Nat} (hfuel : 0 < fuel)
  (h : Ready env fuel T E ctx locals Γ s.nextSlot)

theorem Executed.after {base base' : Nat} {locals' : Locals} {stack' : List Word} {slots₁ slots' : Array Word}
    (h : Executed base' locals locals' stack slots₁ ρ stack' slots') (hkept : Kept base locals slots slots₁)
    (hle : base ≤ base') : Executed base locals locals' stack slots ρ stack' slots' :=
  ⟨h.stack, h.bindings, hkept.trans h.kept hle⟩

theorem Ready.block (h : Ready env fuel T E ctx locals Γ next) (hs : s.nextSlot = next) (hss : AreStmts T Γ es ss) :
    Yields (E.block ctx locals es) s fun _ => ClosedCode env fuel next locals (inBlock (Stmt.runAll fuel ss)) := by
  refine .bindPure ((h.statements hs hss).imp fun locals' t p hp => ⟨hp.fills, fun ρ stack slots hfits hρ => ?_⟩)
  refine (hp.does ρ stack slots hfits hρ).map fun ρ' st sl h' => ⟨_, rfl, h'.stack, ?_, h'.kept⟩
  rw [hρ.length]
  exact hp.scope.leave h'.bindings

theorem yields_drop {x : Lowering Operand}
    (hx : Yields x s (TermCode env fuel s.nextSlot locals (a.kind? Γ) (a.eval fuel))) :
    Yields (dropValue x) s fun _ => ClosedCode env fuel s.nextSlot locals ((Stmt.drop a).run fuel) := by
  refine .bind hx fun _ t p hst hp => .emitWith rfl fun _ htu => ⟨hp.fills.seq .none, fun ρ stack slots hfits hρ => ?_⟩
  rw [Stmt.run]
  refine hp.andThen (hfits.earlier htu) hρ fun _ n ρ₁ slots₁ _ _ hρ₁ hkept₁ => ?_
  exact .of_goes goes_pop ⟨rfl, hρ₁, hkept₁⟩

/-- The local of a binding without a declared type. -/
theorem Yields.declaredBind {f : Local → Lowering α} {Φ : α → State → Piece → Prop}
    (h : InEntry T ctx) (hΓ : Typed locals Γ) (untyped : ∀ t ∈ ts, t.name ∈ BindingType.qualifiers)
    (he : IsTerm T Γ e a)
    (hf : ∀ l k cache, a.kind? Γ = some k → l.type.shape = .value → l.type.kind = k.kind →
      Yields (f l) { s with cache } Φ) :
    Yields (declaredLocal ctx site locals (.call ts c) (some e) false >>= f) s Φ := by
  simp only [declaredLocal, he.not_arguments hΓ, he.not_collection hΓ, Bool.false_eq_true, if_false, Bool.false_and,
    bind_assoc, pure_bind]
  refine .liftBind fun _ _ => .liftBind fun _ _ => .inferBind fun l _ cache hl => ?_
  obtain ⟨k, hk, hshape, hkind⟩ := inferLocal_kind h.inferrer hΓ untyped he hl
  exact hf l k cache hk hshape hkind

theorem bindWord_value {l : Local} (hshape : l.type.shape = .value) : bindWord E ctx locals (some e) l = do
      let slot ← newSlot
      let operand ← E.expr ctx locals e
      coerce operand.kind l.type.kind
      store slot
      return { l with slot } := by
  simp only [bindWord, hshape, if_true]

include h in
/-- A binding has a new slot, which its initial value is stored in. -/
theorem yields_bind (binding : c.isBinding = true) (untyped : ∀ t ∈ ts, t.name ∈ BindingType.qualifiers)
    (he : IsTerm T Γ e a) :
    Yields (bindLocal E ctx site locals (.call ts c) (some e) false) s fun bound =>
      StmtCode env fuel s.nextSlot locals ((Stmt.bind c.name a).scope Γ) ((Stmt.bind c.name a).run fuel)
        (bound :: locals) := by
  have hname : (Expr.call ts c).boundName? = some c.name := by simp [Expr.boundName?, binding]
  simp only [bindLocal, hname]
  refine .declaredBind h.entry h.typed untyped he fun l k cache hk hshape hkind => ?_
  refine .ite (fun hargs => ?_) fun _ => .ite (fun hcollection => ?_) fun _ => .ite (fun hstring => ?_) fun _ => ?_
  · simp [Local.isArguments, hshape] at hargs
  · simp [Shape.isCollection, hshape] at hcollection
  · cases k <;> cases hkind.symm.trans hstring.1
  rw [bindWord_value hshape, hkind]
  simp only [bind_assoc, pure_bind]
  -- The slot is taken first, and the code of the initial value keeps it free.
  refine .newSlotBind (.bind ((h.later (Nat.le_succ _)).expr rfl he) fun o t p hst hp => ?_)
  cases hp.operand
  rw [coerce_scalar, pure_bind]
  refine .bindPure (.emitWith rfl fun _ htu hlt => ?_)
  have hnew : ∀ l ∈ locals, l.2.slot ≠ s.nextSlot := h.apart.ne (Nat.le_refl _)
  refine ⟨⟨?_, ⟨?_, ?_⟩, [_], rfl, ?_⟩, .store hp.fills, fun ρ stack slots hfits hρ => ?_⟩
  · rw [Stmt.scope, hk]
    exact .cons hshape hkind h.typed
  · exact List.forall_mem_cons.mpr ⟨hlt, (h.apart.mono (Nat.le_of_lt hlt)).bound⟩
  · exact List.pairwise_cons.mpr ⟨fun l hl => (hnew l hl).symm, h.apart.distinct⟩
  · exact List.forall_mem_singleton.mpr (Nat.le_refl _)
  rw [Stmt.run, hρ.kinds h.typed, hk]
  refine hp.andThen (hfits.earlier htu) hρ fun _ n ρ₁ slots₁ hk' hn hρ₁ hkept₁ => ?_
  cases hk.symm.trans hk'
  rw [← hkept₁.size] at hfits
  refine .of_goes (hfits.goes_store hlt) ⟨rfl, ?_, ?_⟩
  · exact .cons hkind hn (hfits.holding_store hlt hn).2.1 (hρ₁.store hnew)
  · exact (Kept.refl.trans hkept₁ (Nat.le_succ _)).trans (.store (.inl (Nat.le_refl _))) (Nat.le_refl _)

theorem does_return {i : Instruction} {plain}
    {post : α → List Word → Array Word → Prop} (hop : i.op.operation = .returnValue) :
    Does (exec env fuel (.op i plain)) (word n :: stack) slots (.stop (.returned n)) post := by
  intro m hstack hslots hout
  rw [exec, Machine.step, hop]
  simp only [Machine.perform, Machine.State.pop, hstack, hout]
  rfl

include h in
theorem yields_return (he : IsTerm T Γ e a) (hkind : a.kind? Γ = some T) :
    Yields (lowerReturn E ctx locals (some e)) s fun _ =>
      ClosedCode env fuel s.nextSlot locals ((Stmt.ret a).run fuel) := by
  simp only [lowerReturn, h.entry.target, returnFromRun]
  refine .check fun _ => .bind (h.expr rfl he) fun o t p hst hp => ?_
  have hknown : ¬(ReturnInfo.value T.kind).kind = .unknown := by cases T <;> exact nofun
  have htarget : (ReturnInfo.value T.kind).kind = T.kind := rfl
  rw [hp.operand, hkind, if_neg hknown, htarget, coerce_scalar, pure_bind]
  refine .ite (fun hpointer => nomatch hpointer) fun _ => .liftBind fun w hw => ?_
  obtain ⟨_, hT, rfl⟩ := widthOf_operand (o := some T) hw
  cases hT
  refine .emitWith (by cases T <;> rfl) fun _ htu => ⟨hp.fills.seq .none, fun ρ stack slots hfits hρ => ?_⟩
  rw [Stmt.run]
  refine hp.andThen (hfits.earlier htu) hρ fun _ n ρ₁ slots₁ _ _ hρ₁ hkept₁ => ?_
  exact does_return (by cases T <;> rfl)

theorem yields_branchBlock (h : Ready env fuel T E ctx locals Γ next)
    (hs : s.nextSlot = next) (hyes : yes.body? = some es) (hss : AreStmts T Γ es ss) :
    Yields (do E.block ctx locals (← Returns.branchBody yes)) s fun _ =>
      ClosedCode env fuel next locals (inBlock (Stmt.runAll fuel ss)) := by
  refine .liftBind fun es' hes' => ?_
  cases hyes.symm.trans (Returns.branchBody_inv hes').2
  exact h.block hs hss

include h in
theorem yields_lowerIf {no : Expr} {ys ns : List Expr} {y n : List Stmt} (hc : IsTerm T Γ e a)
    (hyes : yes.body? = some ys) (hno : no.body? = some ns) (hy : AreStmts T Γ ys y) (hn : AreStmts T Γ ns n) :
    Yields (lowerIf E ctx locals e yes no) s fun _ =>
      ClosedCode env fuel s.nextSlot locals ((Stmt.ifElse a y n).run fuel) := by
  refine .bind (h.condition rfl hc) fun _ t p hst hp => .bindPure ?_
  refine .branch (fun _ _ => yields_branchBlock (h.later hst.slots) rfl hyes hy) fun _ u q htu hq _ _ => ?_
  have hle : s.nextSlot ≤ u.nextSlot := Nat.le_trans hst.slots htu.slots
  refine Yields.imp (yields_branchBlock (h.later hle) rfl hno hn) fun _ v q' hq' => ?_
  refine fun _ _ huv htv => ⟨hp.fills.seq (hq.fills.branch hq'.fills), fun ρ stack slots hfits hρ => ?_⟩
  rw [Stmt.run]
  refine hp.branch (hfits.earlier htv) hρ (fun n ρ₁ slots₁ hn hρ₁ hkept₁ => ?_) fun ρ₁ slots₁ hρ₁ hkept₁ => ?_
  · simp only [if_neg hn]
    refine (hq.does ρ₁ stack slots₁ (hkept₁.size ▸ hfits.earlier huv) hρ₁).imp fun _ _ _ hr => ?_
    exact hr.after hkept₁ hst.slots
  · refine (hq'.does ρ₁ stack slots₁ (hkept₁.size ▸ hfits.relaid) hρ₁).imp
      fun _ _ _ hr => ?_
    exact hr.after hkept₁ hle

include h in
theorem yields_while (hc : IsTerm T Γ e a) (hss : AreStmts T Γ es ss) :
    Yields (lowerWhile E ctx locals e es) s fun _ =>
      ClosedCode env fuel s.nextSlot locals ((Stmt.whileLoop a ss).run fuel) := by
  refine .loop (h.condition rfl hc) fun _ t p hst hp _ _ => ?_
  refine Yields.imp ((h.later hst.slots).block rfl hss) fun _ u q hq => ?_
  refine fun _ _ htu => ⟨hp.fills.loop hq.fills, fun ρ stack slots hfits hρ => ?_⟩
  rw [Stmt.run]
  refine Does.loop (I := Executed s.nextSlot locals locals stack slots)
    (J := fun _ => Executed s.nextSlot locals locals stack slots) ?_ ?_ ⟨rfl, hρ, .refl⟩
  · rintro ρ₁ _ slots₁ ⟨rfl, hρ₁, hkept₁⟩
    refine hp.test (hkept₁.size ▸ hfits.earlier htu) hρ₁ fun _ _ ρ₂ slots₂ _ _ hρ₂ hkept₂ => ?_
    exact ⟨_, rfl, rfl, hρ₂, hkept₁.trans hkept₂ (Nat.le_refl _)⟩
  · rintro ρ₁ _ slots₁ ⟨rfl, hρ₁, hkept₁⟩
    refine (hq.does ρ₁ _ slots₁ (hkept₁.size ▸ hfits.relaid) hρ₁).imp
      fun _ _ _ hr => ?_
    exact hr.after hkept₁ hst.slots

structure Counted (base : Nat) (locals : Locals) (k : Scalar) (counter : Nat) (stack : List Word) (slots : Array Word)
    (r : Int × Env) (stack' : List Word) (slots' : Array Word) : Prop where
  stack : stack' = stack
  count : Holding k slots' counter r.1
  bindings : Represents slots' locals r.2
  kept : Kept base locals slots slots'

include h in
theorem yields_spillCount {bools : Bool} {fault : TypeError} (he : IsTerm T Γ e a) :
    Yields (spillCount E ctx locals bools fault e) s fun (counter, w) t p => ∃ k, k ≠ .bool ∧ w = k.width ∧
      counter = s.nextSlot ∧ s.nextSlot < t.nextSlot ∧ Fills s.nextSlot t.nextSlot p ∧
        ∀ ρ stack slots, Fits env slots.size t → Represents slots locals ρ →
          Does (exec env fuel p) stack slots (a.eval fuel ρ) (Counted s.nextSlot locals k counter stack slots) := by
  refine .operandBind h.entry h.typed he fun _ => .check fun _ => .liftBind fun w hw => ?_
  obtain ⟨j, hj, rfl⟩ := widthOf_operand hw
  rw [← j.width_number]
  refine .newSlotBind (.bind ((h.later (Nat.le_succ _)).exprAt rfl he j.number_ne_bool) fun _ t p hst hp => ?_)
  refine .bindPure (.emitWith rfl fun _ htu hlt => ?_)
  refine ⟨j.number, j.number_ne_bool, rfl, rfl, hlt, .store hp.fills, fun ρ stack slots hfits hρ => ?_⟩
  refine (hp.does ρ stack slots (hfits.earlier htu) hρ).before ?_
  rintro ⟨n, ρ₁⟩ _ slots₁ ⟨rfl, ⟨_, hj', hn⟩, hρ₁, hkept₁⟩
  cases hj.symm.trans hj'
  rw [← hkept₁.size] at hfits
  refine .of_goes (hfits.goes_store hlt) ⟨rfl, hfits.holding_store hlt hn.number, ?_, ?_⟩
  · exact hρ₁.store (h.apart.ne (Nat.le_refl _))
  · exact (Kept.refl.trans hkept₁ (Nat.le_succ _)).trans (.store (.inl (Nat.le_refl _))) (Nat.le_refl _)

theorem Scalar.Holds.pred (h : k.Holds n) (hn : 0 < n) : k.Holds (n - 1) := by
  cases k <;> simp only [Scalar.Holds] at h ⊢ <;> omega

/-- Whether a pass is left is tested by a comparison with zero. -/
theorem holds_left (hk : k ≠ .bool) (h : k.Holds n) :
    holds (if k.width = .u64 then .notEqual else .greater) n 0 = decide (0 < n) := by
  cases k with
  | i32 | i64 => rfl
  | u64 =>
    obtain ⟨hle, -⟩ := h
    by_cases hn : n = 0
    · subst hn
      rfl
    · have hpos : 0 < n := by omega
      simp [holds, Scalar.width, hn, hpos]
  | bool => exact absurd rfl hk

theorem word_truth_eq_zero (b : Bool) : word (truth b) = 0 ↔ b = false := by cases b <;> decide

theorem goes_pred {stack : List Word} {plain₁ plain₂ plain₃ plain₄}
    (hk : k ≠ .bool) (h : Holding k slots counter n) (hn : 0 < n) :
    Goes (exec env fuel (.seq (.op { op := .loadLocal, imm := UInt64.ofNat counter } plain₁)
        (.seq (.op { op := Opcode.push k.width, imm := intWord k.width 1 } plain₂)
          (.seq (.op { op := Opcode.arithmetic .minus k.width } plain₃)
            (.op { op := .storeLocal, imm := UInt64.ofNat counter } plain₄)))))
      stack slots stack (slots.setIfInBounds counter (word (n - 1))) := by
  obtain ⟨small, hslot, hrange⟩ := h
  have hminus : Goes (exec env fuel (.op { op := Opcode.arithmetic .minus k.width } plain₃)) (word 1 :: word n :: stack) slots
      (word (n - 1) :: stack) slots :=
    does_arithmetic (f := fun _ => ()) hk hrange k.holds_one fun m hm _ => by
      cases hm
      rw [Scalar.wrap_eq_self (hrange.pred hn)]
      exact ⟨rfl, rfl⟩
  obtain ⟨hsize, -⟩ := Array.getElem?_eq_some_iff.mp hslot
  exact .after (goes_load hslot small) (.after (goes_pushInt rfl) (.after hminus (goes_store (Nat.lt_trans hsize small))))

include h in
theorem yields_countDown (hk : k ≠ .bool) (hcounter : counter < s.nextSlot) (hnew : ∀ l ∈ locals, l.2.slot ≠ counter)
    (hss : AreStmts T Γ es ss) :
    Yields (Lower.countDown E ctx locals counter k.width es) s fun _ t p => Fills s.nextSlot t.nextSlot p ∧
      ∀ n ρ stack slots, Fits env slots.size t → Represents slots locals ρ → Holding k slots counter n →
        Does (exec env fuel p) stack slots (countDown fuel (Stmt.runAll fuel ss) n ρ)
          (Executed counter locals locals stack slots) := by
  have hpush : Pushes env fuel (fun n slots => Holding k slots counter n)
      (compareSlot k.width counter (if k.width = .u64 then .notEqual else .greater) (pushInt k.width 0))
      fun n => truth (decide (0 < n)) :=
    (pushes_compareSlot hk _ pushes_held (pushes_int (n := 0) rfl) fun n slots hn => ⟨hn.2.2, k.holds_zero⟩).of_eq
      fun n slots hn => congrArg truth (holds_left hk hn.2.2)
  refine .loop (hpush s) fun _ t p hst ⟨ht, hp⟩ _ _ => .bind (h.block ht hss) fun _ u q htu hq => ?_
  refine .emitBind rfl fun _ => .emitBind (plain_push _) fun _ => .emitBind (plain_arithmetic _ _) fun _ => ?_
  refine .emitWith rfl fun _ huv _ _ htv => ⟨?_, fun n ρ stack slots hfits hρ hn => ?_⟩
  · exact Fills.loop (ht ▸ .none) (hq.fills.seq .none)
  -- The counter holds the passes that are left, and after a test that holds there is one.
  refine Does.map (Does.loop (I := Counted counter locals k counter stack slots)
    (J := fun b r st sl => Counted counter locals k counter stack slots r st sl ∧ (b = true → 0 < r.1)) ?_ ?_
    ⟨rfl, hn, hρ, .refl⟩) ?_
  · rintro ⟨n, ρ₁⟩ _ slots₁ ⟨rfl, hn, hρ₁, hkept₁⟩
    refine .of_goes (hp n _ slots₁ hn) ⟨_, _, rfl, word_truth_eq_zero _, ⟨rfl, hn, hρ₁, hkept₁⟩, of_decide_eq_true⟩
  · rintro ⟨n, ρ₁⟩ _ slots₁ ⟨⟨rfl, hn, hρ₁, hkept₁⟩, hpos⟩
    refine (hq.does ρ₁ _ slots₁ (hkept₁.size ▸ hfits.relaid.earlier huv) hρ₁).seq ?_
    rintro ρ₂ _ slots₂ ⟨rfl, hρ₂, hkept₂⟩
    have hn₂ := hn.kept hkept₂ hcounter hnew
    obtain ⟨hsize, -⟩ := Array.getElem?_eq_some_iff.mp hn₂.2.1
    refine .of_goes (goes_pred hk hn₂ (hpos rfl)) ⟨rfl, .store hn₂.1 hsize (hn.2.2.pred (hpos rfl)), hρ₂.store hnew, ?_⟩
    exact (hkept₁.trans hkept₂ (Nat.le_of_lt hcounter)).trans (.store (.inl (Nat.le_refl _))) (Nat.le_refl _)
  · rintro ⟨n, ρ₁⟩ st slots₁ ⟨⟨hst, -, hρ₁, hkept₁⟩, -⟩
    exact ⟨_, rfl, hst, hρ₁, hkept₁⟩

/-- A count that is not positive is one of no pass. -/
theorem countDown_of_nonpos (hfuel : 0 < fuel) (hn : ¬0 < n) {body : Env → Run Env} :
    countDown fuel body n ρ = .done ρ := by
  obtain ⟨m, rfl⟩ := Nat.exists_eq_succ_of_ne_zero (Nat.ne_of_gt hfuel)
  simp only [countDown, Run.iterate, decide_eq_false hn]
  rfl

theorem IsTerm.eval_noCount (he : IsTerm T Γ e a) (h : isNoCount e = true) :
    ∃ n, ¬0 < n ∧ ∀ ρ, a.eval fuel ρ = .done (n, ρ) := by
  cases he with
  | @int32 _ _ n | @int64 _ _ n =>
    refine ⟨n.toInt, Int.not_lt.mpr ?_, fun ρ => Term.eval_lit ..⟩
    exact Int64.le_iff_toInt_le.mp (of_decide_eq_true h)
  | @uint64 _ _ n =>
    cases eq_of_beq h
    exact ⟨0, by decide, fun ρ => Term.eval_lit ..⟩
  | @bool _ _ b =>
    cases b with
    | false => exact ⟨0, by decide, fun ρ => Term.eval_lit ..⟩
    | true => exact nomatch h
  | name | call => exact nomatch h

include hfuel h in
theorem yields_repeat (he : IsTerm T Γ e a) (hss : AreStmts T Γ es ss) :
    Yields (lowerRepeat E ctx locals e es) s fun _ =>
      ClosedCode env fuel s.nextSlot locals ((Stmt.repeatLoop a ss).run fuel) := by
  refine .ite (fun hnone => ?_) fun _ => ?_
  -- A literal count of no pass has no code, and an evaluation needs fuel to see that there is none.
  · obtain ⟨n, hn, heval⟩ := he.eval_noCount hnone
    refine .pure ⟨.none, fun ρ stack slots _ hρ => ?_⟩
    rw [Stmt.run, heval]
    change Does _ _ _ (countDown fuel (Stmt.runAll fuel ss) n ρ) _
    rw [countDown_of_nonpos hfuel hn]
    exact .done ⟨rfl, hρ, .refl⟩
  · refine .bind (yields_spillCount h he) ?_
    rintro ⟨counter, w⟩ t p hst ⟨k, hk, rfl, rfl, hlt, hfills, hp⟩
    refine (yields_countDown (h.later hst.slots) hk hlt (h.apart.ne (Nat.le_refl _)) hss).imp ?_
    rintro _ u q ⟨hfills', hq⟩ htu
    refine ⟨hfills.seq hfills', fun ρ stack slots hfits hρ => ?_⟩
    rw [Stmt.run]
    refine (hp ρ stack slots (hfits.earlier htu) hρ).seq ?_
    rintro ⟨n, ρ₁⟩ _ slots₁ ⟨rfl, hn, hρ₁, hkept₁⟩
    refine (hq n ρ₁ _ slots₁ (hkept₁.size ▸ hfits) hρ₁ hn).imp fun _ _ _ hr => ?_
    exact hr.after hkept₁ (Nat.le_refl _)

/-- All texts are the message, so that whatever index an instruction names, the message is printed. -/
theorem Fits.message {size i : Nat} {t : State} (h : Fits env size t) (hi : i < t.strings.size) (mode : PrintMode) :
    env.strings[(PrintMode.stringIndex (mode.ofString i)).toNat]? = some failureText := by
  have hsize : t.strings.size ≤ env.strings.size := h.strings.length_le
  have hlt : (PrintMode.stringIndex (mode.ofString i)).toNat < env.strings.size := by
    rw [Lower.toNat_stringIndex_ofString]
    exact Nat.lt_of_le_of_lt (Nat.mod_le ..) (Nat.lt_of_lt_of_le hi hsize)
  rw [Array.getElem?_eq_getElem hlt, h.texts _ (Array.getElem_mem hlt)]

def FailCode (env : Machine.Env) (fuel next : Nat) (t : State) (p : Piece) : Prop :=
  t.nextSlot = next ∧ ∀ stack slots (post : Unit → List Word → Array Word → Prop), Fits env slots.size t →
    Does (exec env fuel p) stack slots (.stop .negativeCount) post

theorem yields_fail : Yields (fail failureText) s fun _ => FailCode env fuel s.nextSlot := by
  refine .internTextBind fun i t ht hi => .emitBind rfl fun _ => .emitBind rfl fun _ => .emitWith rfl fun _ htu => ⟨ht, ?_⟩
  intro stack slots post hfits m hstack hslots hout
  have hmessage := (hfits.earlier htu).message hi { newline := true, stderr := true }
  simp only [exec, Machine.step, Opcode.operation, Machine.perform, hmessage, Machine.State.write, ofImm_ofString, hout,
    Machine.State.push, Machine.State.pop]
  rfl

def CheckCode (env : Machine.Env) (fuel : Nat) (k : Scalar) (counter next : Nat) (t : State) (p : Piece) : Prop :=
  t.nextSlot = next ∧ ∀ n stack slots, Fits env slots.size t → Holding k slots counter n →
    Does (exec env fuel p) stack slots (if n < 0 then .stop .negativeCount else .done ()) fun _ st sl =>
      st = stack ∧ sl = slots

theorem yields_failIfNegative (hk : k ≠ .bool) :
    Yields (failIfNegative k.width counter failureText) s fun _ => CheckCode env fuel k counter s.nextSlot := by
  refine .ite (fun hunsigned => ?_) fun _ => ?_
  -- An unsigned count is not tested.
  · refine .pure ⟨rfl, fun n stack slots _ hn => ?_⟩
    have hle : ¬n < 0 := by
      cases k <;> cases hunsigned
      exact Int.not_lt.mpr hn.2.2.1
    rw [if_neg hle]
    exact .done ⟨rfl, rfl⟩
  · refine .emitBind rfl fun _ => .emitBind (plain_push _) fun _ => .emitBind (plain_compare _ _) fun _ => ?_
    refine .whenNonzero fun _ _ => .imp (Φ := fun _ => FailCode env fuel s.nextSlot) yields_fail
      fun _ t p ⟨ht, hp⟩ _ _ => ⟨ht, fun n stack slots hfits hn => ?_⟩
    refine .after (goes_load hn.2.1 hn.1) (.after (goes_pushInt rfl) (.after (goes_compare _ hk hn.2.2 k.holds_zero) ?_))
    refine .guard (a := ()) (fun hw => ?_) fun hw => ?_
    · have hneg : n < 0 := of_decide_eq_true (Bool.of_not_eq_false (mt (word_truth_eq_zero _).mpr hw))
      rw [if_pos hneg]
      exact hp stack slots _ hfits.relaid
    · have hneg : ¬n < 0 := of_decide_eq_false ((word_truth_eq_zero _).mp hw)
      exact ⟨if_neg hneg, rfl, rfl⟩

include h in
theorem yields_lowerLoop (he : IsTerm T Γ e a) (hss : AreStmts T Γ es ss) :
    Yields (lowerLoop E ctx locals e es) s fun _ =>
      ClosedCode env fuel s.nextSlot locals ((Stmt.countedLoop a ss).run fuel) := by
  refine .bind (yields_spillCount h he) fun ⟨counter, w⟩ t p hst => ?_
  rintro ⟨k, hk, rfl, rfl, hlt, hfills, hp⟩
  refine .bind (Φ := fun _ => CheckCode env fuel k s.nextSlot t.nextSlot) (yields_failIfNegative hk)
    fun _ u q htu ⟨hu, hq⟩ => ?_
  have h' := h.later (Nat.le_trans hst.slots htu.slots)
  refine (yields_countDown h' hk (hu ▸ hlt) (h.apart.ne (Nat.le_refl _)) hss).imp fun _ v q' ⟨hfills', hq'⟩ huv htv => ?_
  refine ⟨hfills.seq (hu ▸ Fills.none.seq hfills'), fun ρ stack slots hfits hρ => ?_⟩
  rw [Stmt.run]
  refine (hp ρ stack slots (hfits.earlier htv) hρ).seq ?_
  rintro ⟨n, ρ₁⟩ _ slots₁ ⟨rfl, hn, hρ₁, hkept₁⟩
  have hcheck : (if n < 0 then .stop .negativeCount else countDown fuel (Stmt.runAll fuel ss) n ρ₁) =
      ((if n < 0 then .stop .negativeCount else .done ()) >>= fun _ => countDown fuel (Stmt.runAll fuel ss) n ρ₁) := by
    split <;> rfl
  simp only [hcheck]
  refine (hq n _ slots₁ (hkept₁.size ▸ hfits.earlier huv) hn).seq ?_
  rintro ⟨⟩ _ _ ⟨rfl, rfl⟩
  refine (hq' n ρ₁ _ _ (hkept₁.size ▸ hfits) hρ₁ hn).imp fun _ _ _ hr => ?_
  exact hr.after hkept₁ (Nat.le_refl _)

/-- The code of the condition of a `for`, which leads to the scope of a pass. -/
structure ConditionCode (env : Machine.Env) (fuel base : Nat) (locals : Locals) (Γ : Kinds) (test : Env → Run (Bool × Env))
    (locals' : Locals) (t : State) (p : Piece) : Prop where
  scope : Brings base locals Γ t.nextSlot locals'
  fills : Fills base t.nextSlot p
  does : ∀ ρ stack slots, Fits env slots.size t → Represents slots locals ρ →
    Does (exec env fuel p) stack slots (test ρ) (Tested fun _ => Executed base locals locals' stack slots)

def testNewest : Env → Run (Bool × Env)
  | [] => .stuck
  | (x, c) :: ρ => .done (c.value != 0, (x, c) :: ρ)

theorem bind_testNewest (hk : a.kind? ρ.kinds = some .bool) :
    ((Stmt.bind x a).run fuel ρ >>= testNewest) =
      (do let (n, ρ) ← a.eval fuel ρ; return (n != 0, declare (some x) n ρ)) := by
  rw [Stmt.run, hk]
  cases a.eval fuel ρ <;> rfl

theorem IsStmt.bound (h : IsStmt T Γ e (.bind x a)) : e.isBinding = true ∧ e.boundName? = some x := by
  cases h with
  | bind binding => exact ⟨binding, by simp [Expr.boundName?, binding]⟩
  | @control _ _ _ b _ _ _ h =>
    generalize b.cls = cls at h
    cases h

include h in
theorem yields_forCondition {bound : Option String} (hc : IsCondition T Γ e bound a Δ) :
    Yields (forCondition E ctx locals e) s (ConditionCode env fuel s.nextSlot locals Δ fun ρ => do
      let (n, ρ) ← a.eval fuel ρ
      return (n != 0, declare bound n ρ)) := by
  cases hc with
  | term he =>
    refine .ite (fun hbinding => absurd hbinding (by simp [he.isBinding])) fun _ => ?_
    refine .bindPure ((h.condition rfl he).later.imp fun _ t p ⟨hst, hp⟩ => ?_)
    refine ⟨.none h.typed (h.apart.mono hst.slots), hp.fills, fun ρ stack slots hfits hρ => ?_⟩
    exact hp.test hfits hρ fun _ n ρ' slots' _ _ hρ' hkept => ⟨_, rfl, rfl, hρ', hkept⟩
  | @bind _ _ x _ he =>
    obtain ⟨hbinding, hname⟩ := he.bound
    refine .ite (fun _ => ?_) fun hnot => absurd hbinding hnot
    refine .bind (h.statement rfl he) fun locals' t p hst hp => ?_
    simp only [hname, Option.bind_some]
    cases hl : locals'.lookup x with
    | none => exact .throw
    | some l =>
      refine .ite (fun ⟨_, hbool⟩ => ?_) fun _ => .throw
      refine .bindPure (.emitWith rfl fun _ htu => ⟨hp.scope, hp.fills.seq .none, fun ρ stack slots hfits hρ => ?_⟩)
      cases hk : a.kind? Γ with
      | none =>
        -- A binding without a kind has no meaning, which the code of the statement rules out.
        have hstuck := hp.does ρ stack slots (hfits.earlier htu) hρ
        rw [Stmt.run, hρ.kinds h.typed, hk] at hstuck
        exact fun m hstack hslots hout => (hstuck m hstack hslots hout).elim
      | some k =>
        have htyped := hp.scope.typed
        rw [Stmt.scope, hk] at htyped
        cases htyped with
        | cons _ hkind _ =>
          cases (List.lookup_cons_self).symm.trans hl
          cases Scalar.kind_inj (b := .bool) (hkind.symm.trans hbool)
          rw [← bind_testNewest (by rw [hρ.kinds h.typed, hk])]
          refine hp.andThen (hfits.earlier htu) hρ fun ρ' slots' hρ' hkept => ?_
          cases hρ' with
          | cons kind range slot hrest =>
            refine .of_goes (goes_load slot (hkept.size ▸ hfits.small)) ⟨_, _, rfl, ?_, rfl, ?_, hkept⟩
            · exact (word_eq_zero range).trans bne_eq_false_iff_eq.symm
            · exact .cons kind range slot hrest

theorem runAll_singleton : Stmt.runAll fuel [st] = st.run fuel := by
  funext ρ
  rw [Stmt.runAll]
  cases st.run fuel ρ <;> rfl

include h in
theorem yields_for {init cond step : Expr} {i : Stmt} {bound : Option String} (hi : IsStmt T Γ init i)
    (hc : IsCondition T (i.scope Γ) cond bound a Δ) (hst : IsStmt T Δ step st) (hss : AreStmts T Δ es ss) :
    Yields (lowerFor E ctx locals init cond step es) s fun _ =>
      ClosedCode env fuel s.nextSlot locals ((Stmt.forLoop i bound a st ss).run fuel) := by
  refine .bind (h.statement rfl hi) fun locals₁ t p hle₁ hp => ?_
  have h₁ := h.inScope hp.scope
  refine .loop (yields_forCondition h₁ hc) fun locals₂ u q hle₂ hq _ _ => ?_
  have h₂ := h₁.inScope hq.scope
  refine .bind (h₂.block rfl hss) fun _ v q₁ hle₃ hq₁ => ?_
  refine Yields.imp ((h₂.later hle₃.slots).block rfl (.cons hst .nil)) fun _ w q₂ hq₂ hvw _ _ huw htw => ?_
  refine ⟨hp.fills.seq (hq.fills.loop (hq₁.fills.seq hq₂.fills)), fun ρ stack slots hfits hρ => ?_⟩
  rw [Stmt.run]
  refine hp.andThen (hfits.earlier htw) hρ fun ρ₁ slots₁ hρ₁ hkept₁ => ?_
  have hsize₁ : slots₁.size = slots.size := hkept₁.size
  -- Before each test the scope is that of the first argument, and after it that of the condition.
  refine Does.map (Does.loop (I := Executed t.nextSlot locals₁ locals₁ stack slots₁)
    (J := fun _ => Executed t.nextSlot locals₁ locals₂ stack slots₁) ?_ ?_ ⟨rfl, hρ₁, .refl⟩) ?_
  · rintro ρ₂ _ slots₂ ⟨rfl, hρ₂, hkept₂⟩
    refine (hq.does ρ₂ _ slots₂ (hkept₂.size ▸ hsize₁ ▸ hfits.earlier huw) hρ₂).imp ?_
    rintro ⟨b, ρ₃⟩ st sl ⟨word, rest, hstack, hw, hJ⟩
    exact ⟨word, rest, hstack, hw, hJ.after hkept₂ (Nat.le_refl _)⟩
  · rintro ρ₂ _ slots₂ ⟨rfl, hρ₂, hkept₂⟩
    refine (hq₁.does ρ₂ _ slots₂ (hkept₂.size ▸ hsize₁ ▸ hfits.relaid.earlier hvw) hρ₂).seq ?_
    rintro ρ₃ _ slots₃ ⟨rfl, hρ₃, hkept₃⟩
    rw [← runAll_singleton]
    refine Does.map (hq₂.does ρ₃ _ slots₃ (hkept₃.size ▸ hkept₂.size ▸ hsize₁ ▸ hfits.relaid) hρ₃) ?_
    rintro ρ₄ _ slots₄ ⟨rfl, hρ₄, hkept₄⟩
    refine ⟨_, rfl, rfl, ?_, hkept₂.trans (hq.scope.keeps (hkept₃.trans hkept₄ hle₃.slots) hle₂.slots) (Nat.le_refl _)⟩
    rw [hρ₁.length]
    exact hq.scope.leave hρ₄
  · rintro ρ₂ st slots₂ ⟨hstack, hρ₂, hkept₂⟩
    refine ⟨_, rfl, hstack, ?_, hkept₁.trans (hp.scope.keeps hkept₂ hle₁.slots) (Nat.le_refl _)⟩
    rw [hρ.length]
    exact (hp.scope.trans hq.scope hle₁.slots).leave hρ₂

theorem Yields.blockBind {f : List Expr → Lowering Unit} {Φ : Unit → State → Piece → Prop}
    (body : c.body = some es) (hf : Yields (f es) s Φ) : Yields (do f (← blockOf c)) s Φ := by
  refine .liftBind fun es' hes => ?_
  rw [blockOf, body] at hes
  cases hes
  exact hf

include hfuel h in
theorem yields_control (hc : IsControl T Γ c cls st) :
    Yields (lowerBuiltin E ctx locals e c cls) s fun _ => ClosedCode env fuel s.nextSlot locals (st.run fuel) := by
  cases hc with
  | ifElse args he hyes hno hy hn =>
    simp only [lowerBuiltin, args]
    exact yields_lowerIf h he hyes hno hy hn
  | block body hss =>
    simp only [lowerBuiltin]
    exact .blockBind body (h.block rfl hss)
  | whileLoop args body he hss =>
    simp only [lowerBuiltin, args]
    exact .blockBind body (yields_while h he hss)
  | repeatLoop args body he hss =>
    simp only [lowerBuiltin, args]
    exact .blockBind body (yields_repeat hfuel h he hss)
  | countedLoop args body he hss =>
    simp only [lowerBuiltin, args]
    exact .blockBind body (yields_lowerLoop h he hss)
  | forLoop args body hi hc hs hss =>
    simp only [lowerBuiltin, args]
    exact .blockBind body (yields_for h hi hc hs hss)

include h in
/-- A builtin whose value is dropped. -/
theorem yields_dropBuiltin (plain : c.isBinding = false) (builtin : c.builtin? = some b) (hc : IsCall T Γ c b.cls a)
    (hblock : a.isBlock = false) :
    Yields (lowerBuiltin E ctx locals (.call ts c) c b.cls) s fun _ =>
      ClosedCode env fuel s.nextSlot locals ((Stmt.drop a).run fuel) := by
  have hterm : IsTerm T Γ (.call ts c) a := .call plain builtin hc
  generalize b.cls = cls at hc
  cases hc with
  | arithmetic | comparison | conjunction | disjunction | negate | not | convert | selection =>
    simp only [lowerBuiltin]
    exact yields_drop (yields_expr h hterm)
  | assign args he hx own =>
    simp only [lowerBuiltin, args]
    exact yields_drop (yields_assign h he hx own)
  | step args =>
    simp only [lowerBuiltin, args]
    exact yields_drop (yields_step h)
  | ifElse | block => exact nomatch hblock

include h in
/-- A statement that brings nothing into scope. -/
theorem Yields.closed {x : Lowering Unit} (hx : Yields x s fun _ => ClosedCode env fuel s.nextSlot locals run) :
    Yields (do x; return locals) s (StmtCode env fuel s.nextSlot locals Γ run) :=
  .bindPure (hx.later.imp fun _ _ _ ⟨hst, hp⟩ => ⟨.none h.typed (h.apart.mono hst.slots), hp.fills, hp.does⟩)

theorem IsControl.scope (h : IsControl T Γ c cls st) : st.scope Γ = Γ := by
  cases h <;> rfl

include h in
/-- A builtin as a statement. -/
theorem yields_builtinStatement (plain : c.isBinding = false) (builtin : c.builtin? = some b)
    (hb : ∀ ctx, Ready env fuel T E ctx locals Γ s.nextSlot →
      Yields (lowerBuiltin E ctx locals (.call ts c) c b.cls) s fun _ => ClosedCode env fuel s.nextSlot locals run)
    :
    Yields (lowerStatement E ctx locals (.call ts c)) s (StmtCode env fuel s.nextSlot locals Γ run) := by
  refine .liftBind fun ctx' hctx => ?_
  simp only [plain, builtin, Bool.false_eq_true, if_false]
  refine .check fun _ => .check fun _ => .liftBind fun _ _ => .liftBind fun _ _ => ?_
  exact .closed (h.inside hctx) (hb ctx' (h.inside hctx))

include hfuel h in
theorem yields_statement (hst : IsStmt T Γ e st) :
    Yields (lowerStatement E ctx locals e) s (StmtCode env fuel s.nextSlot locals (st.scope Γ) (st.run fuel)) := by
  cases hst with
  | drop he hblock =>
    cases he with
    | int32 | int64 | uint64 | bool | name =>
      refine .liftBind fun _ hctx => .closed (h.inside hctx) (yields_drop (yields_expr (h.inside hctx) ?_))
      constructor
    | call plain builtin hc =>
      exact yields_builtinStatement h plain builtin fun _ h' => yields_dropBuiltin h' plain builtin hc hblock
  | bind binding untyped args he =>
    refine .liftBind fun _ hctx => ?_
    simp only [binding, if_true, args]
    exact .bindPure (yields_bind (h.inside hctx) binding untyped he)
  | ret hr =>
    cases hr with
    | @call _ _ c _ _ plain ret args he kind =>
      simp only [CallOf.isPlain, Bool.and_eq_true, Bool.not_eq_true'] at plain
      have hbuiltin : c.builtin? = some ⟨.ret, 0, some 1⟩ := by
        rw [CallOf.builtin?, plain.2, ret]
        rfl
      refine yields_builtinStatement h plain.1 hbuiltin fun _ h' => ?_
      simp only [lowerBuiltin, args]
      exact yields_return h' he kind
  | control plain builtin hc =>
    rw [hc.scope]
    exact yields_builtinStatement h plain builtin fun _ h' => yields_control hfuel h' hc

theorem Emitter.sound_atDepth (hfuel : 0 < fuel) (n : Nat) : Emitter.Sound env fuel T (.atDepth n) := by
  induction n with
  | zero => exact ⟨fun _ _ _ _ => .throw, fun _ _ _ _ => .throw⟩
  | succ n ih =>
    exact ⟨fun hctx hΓ hapart he => yields_expr ⟨ih, hctx, hΓ, hapart⟩ he,
      fun hctx hΓ hapart he => yields_statement hfuel ⟨ih, hctx, hΓ, hapart⟩ he⟩

end
end FlatCode.Source
