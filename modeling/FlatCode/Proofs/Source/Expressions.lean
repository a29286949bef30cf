import FlatCode.Proofs.Source.Operators

/-! The code of blocks, of `if` and of all terms does what they mean, if that of their parts does. -/

namespace FlatCode.Source
open Lower
open Machine (exec)

variable {b : Body} {ρ : Env} {yes : Expr} {es : List Expr} {next : Nat} {α : Type}

section
variable {env : Machine.Env} {fuel : Nat} {T : Scalar} {E : Emitter} {ctx : Context} {locals : Locals} {Γ : Kinds}
  {s : State} {e : Expr} {a : Term} {c : Call} (h : Ready env fuel T E ctx locals Γ s.nextSlot)

theorem Ready.statement {st : Stmt} (h : Ready env fuel T E ctx locals Γ next) (hs : s.nextSlot = next)
    (he : IsStmt T Γ e st) :
    Yields (E.statement ctx locals e) s (StmtCode env fuel next locals (st.scope Γ) (st.run fuel)) := by
  subst hs
  exact h.emitter.statement h.entry h.typed h.apart he

theorem Ready.statements {ss : List Stmt} (h : Ready env fuel T E ctx locals Γ next)
    (hs : s.nextSlot = next) (hss : AreStmts T Γ es ss) :
    Yields (E.statements ctx locals es) s
      (StmtCode env fuel next locals (Stmt.scopeAll Γ ss) (Stmt.runAll fuel ss)) := by
  induction es generalizing locals Γ ss s next with
  | nil =>
    cases hss
    subst hs
    exact .pure ⟨.none h.typed h.apart, .none, fun ρ stack slots _ hρ => .done ⟨rfl, hρ, .refl⟩⟩
  | cons e es ih =>
    cases hss with
    | @cons _ _ st _ ss he hes =>
      refine .bind (h.statement hs he) fun locals' t p hst hp => ?_
      refine (ih (h.inScope hp.scope) rfl hes).imp fun locals'' u q hq htu => ?_
      have hle : next ≤ t.nextSlot := hs ▸ hst.slots
      refine ⟨hp.scope.trans hq.scope hle, hp.fills.seq hq.fills, fun ρ stack slots hfits hρ => ?_⟩
      rw [Stmt.runAll]
      refine hp.andThen (hfits.earlier htu) hρ fun ρ₁ slots₁ hρ₁ hkept₁ => ?_
      refine (hq.does ρ₁ stack slots₁ (hkept₁.size ▸ hfits) hρ₁).imp fun ρ₂ st sl h₂ => ?_
      exact ⟨h₂.stack, h₂.bindings, hkept₁.trans (hp.scope.keeps h₂.kept hle) (Nat.le_refl _)⟩

/-- Nothing comes after what is never done. -/
theorem Does.never {f : Machine.State → Machine.Flow} {stack : List Word} {slots : Array Word} {r : Run α}
    {post : α → List Word → Array Word → Prop} (h : Does f stack slots r post) (hr : ∀ a, r ≠ .done a) :
    Does f stack slots r fun _ _ _ => False := by
  cases r with
  | done a => exact absurd rfl (hr a)
  | stop | timeout | stuck => exact h

theorem ret_ne_done {ρ' : Env} : (Stmt.ret a).run fuel ρ ≠ .done ρ' := by
  rw [Stmt.run]
  cases a.eval fuel ρ <;> exact nofun

theorem ret_bind {k : Env → Run α} :
    ((Stmt.ret a).run fuel ρ >>= k) = (do let (n, _) ← a.eval fuel ρ; .stop (.returned n)) := by
  rw [Stmt.run]
  cases a.eval fuel ρ <;> rfl

theorem Ready.blockValue (h : Ready env fuel T E ctx locals Γ next) (hs : s.nextSlot = next) (hb : IsBody T Γ es b) :
    Yields (E.blockValue ctx locals es) s (TermCode env fuel next locals (b.kind? Γ) (b.eval fuel)) := by
  cases hb with
  | value hss he =>
    rw [Emitter.blockValue, List.getLast?_concat, List.dropLast_concat]
    refine .bind (h.statements hs hss) fun locals' t p hst hp => .check fun _ => .ite (fun hret => ?_) fun _ => ?_
    · rw [he.not_return] at hret
      cases hret
    refine ((h.inScope hp.scope).expr rfl he).imp fun o u q hq htu => ?_
    have hle : next ≤ t.nextSlot := hs ▸ hst.slots
    refine ⟨hq.operand, hp.fills.seq hq.fills, fun ρ stack slots hfits hρ => ?_⟩
    rw [Body.eval]
    refine hp.andThen (hfits.earlier htu) hρ fun ρ₁ slots₁ hρ₁ hkept₁ => ?_
    refine Does.map (hq.does ρ₁ stack slots₁ (hkept₁.size ▸ hfits) hρ₁) ?_
    rintro ⟨n, ρ₂⟩ st slots₂ ⟨rfl, hn, hρ₂, hkept₂⟩
    refine ⟨_, rfl, rfl, hn, ?_, hkept₁.trans (hp.scope.keeps hkept₂ hle) (Nat.le_refl _)⟩
    rw [hρ.length]
    exact hp.scope.leave hρ₂
  | ret hss he =>
    rw [Emitter.blockValue, List.getLast?_concat, List.dropLast_concat]
    refine .bind (h.statements hs hss) fun locals' t p hst hp => .check fun _ => .ite (fun _ => ?_) fun hret => ?_
    · refine .bind ((h.inScope hp.scope).statement rfl (.ret he)) fun _ u q htu hq => ?_
      refine .bindPure (.emitWith rfl fun _ huv htv => ⟨rfl, hp.fills.seq (hq.fills.seq .none), ?_⟩)
      intro ρ stack slots hfits hρ
      rw [Body.eval]
      refine hp.andThen (hfits.earlier htv) hρ fun ρ₁ slots₁ hρ₁ hkept₁ => ?_
      have hdoes := hq.does ρ₁ stack slots₁ (hkept₁.size ▸ hfits.earlier huv) hρ₁
      rw [← ret_bind (k := fun _ => .stuck)]
      -- The return ends the run, so that the zero after it is never pushed.
      exact (hdoes.never fun _ => ret_ne_done).seq fun _ _ _ h => h.elim
    · exact absurd he.isReturn.2 hret

theorem yields_branch {kind : Option Scalar} (h : Ready env fuel T E ctx locals Γ next) (hs : s.nextSlot = next)
    (hyes : yes.body? = some es) (hb : IsBody T Γ es b) (hkind : Widens (b.kind? Γ) kind) :
    Yields (emitBranch E ctx locals (operandOf kind) yes) s fun _ =>
      TermCode env fuel next locals kind (b.eval fuel) (operandOf kind) := by
  refine .liftBind fun es' hes' => ?_
  cases hyes.symm.trans (Returns.branchBody_inv hes').2
  refine .bindDone (b := fun _ => ()) ((h.blockValue hs hb).imp fun o t p hp => ⟨?_, hp.widen hkind⟩)
  rw [hp.operand, coerce_operands]

include h in
theorem yields_if {cond no : Expr} {ys ns : List Expr} {y n : Body} (args : c.args = [cond, yes, no])
    (hc : IsTerm T Γ cond a) (hyes : yes.body? = some ys) (hno : no.body? = some ns) (hy : IsBody T Γ ys y)
    (hn : IsBody T Γ ns n) :
    Yields (emitIfValue E ctx locals c cond yes no) s
      (TermCode env fuel s.nextSlot locals ((Term.ifElse a y n).kind? Γ) ((Term.ifElse a y n).eval fuel)) := by
  refine .inferBind fun o _ _ ho => ?_
  obtain ⟨rfl, hwy, hwn⟩ := inferIf_kind h.entry.inferrer h.typed args hyes hno hy hn ho
  refine .bind (h.condition rfl hc) fun _ t p hst hp => .bindPure ?_
  refine .branch (fun _ _ => yields_branch (h.later hst.slots) rfl hyes hy hwy) fun _ u q htu hq _ _ => ?_
  have hle : s.nextSlot ≤ u.nextSlot := Nat.le_trans hst.slots htu.slots
  refine Yields.imp (yields_branch (h.later hle) rfl hno hn hwn) fun _ v q' hq' => ?_
  refine fun _ _ huv htv => ⟨rfl, hp.fills.seq (hq.fills.branch hq'.fills), fun ρ stack slots hfits hρ => ?_⟩
  rw [Term.eval]
  refine hp.branch (hfits.earlier htv) hρ (fun n ρ₁ slots₁ hn hρ₁ hkept₁ => ?_) fun ρ₁ slots₁ hρ₁ hkept₁ => ?_
  · simp only [if_neg hn]
    refine (hq.does ρ₁ stack slots₁ (hkept₁.size ▸ hfits.earlier huv) hρ₁).imp fun _ _ _ hr => ?_
    exact hr.after hkept₁ hst.slots
  · refine (hq'.does ρ₁ stack slots₁ (hkept₁.size ▸ hfits.relaid) hρ₁).imp fun _ _ _ hr => ?_
    exact hr.after hkept₁ hle

theorem yields_literal {l : Literal} {k : Scalar} {n : Int} (hkind : Kind.ofLiteral l = k.kind)
    (hpush : ∀ i, literalPush l = .ok i → i.op.isJump = false ∧ k.Holds n ∧
      ∃ f, i.op.operation = .push f ∧ f i.imm = word n) :
    Yields (emitLiteralValue l) s (TermCode env fuel s.nextSlot locals (some k) ((Term.lit k n).eval fuel)) := by
  refine .liftBind fun i hi => ?_
  obtain ⟨plain, hn, f, hop, hw⟩ := hpush i hi
  refine .bindPure (.emitWith plain fun _ => ⟨by rw [hkind]; rfl, .none, fun ρ stack slots _ hρ => ?_⟩)
  rw [Term.eval_lit]
  exact .of_goes (goes_push hop hw) ⟨rfl, ⟨k, rfl, hn⟩, hρ, .refl⟩

theorem emitLocal_value {l : Local} (hshape : l.type.shape = .value) : emitLocal l = do
      load l.slot
      return l.operand := by
  simp [emitLocal, hshape]

include h in
theorem yields_name {x : String} :
    Yields (do emitLocal (← readable locals x)) s
      (TermCode env fuel s.nextSlot locals (Γ.lookup x) ((Term.name x).eval fuel)) := by
  refine .liftBind fun l hl => ?_
  have hlookup := lookup_of_readable hl
  obtain ⟨k, hk, hshape, hkind⟩ := h.typed.lookup hlookup
  rw [emitLocal_value hshape]
  refine .bindPure (.emitWith rfl fun _ => ⟨h.typed.operand hlookup, .none, fun ρ stack slots hfits hρ => ?_⟩)
  obtain ⟨cell, hcell, hcellkind, hrange, hslot⟩ := hρ.lookup hlookup
  cases Scalar.kind_inj (hkind.symm.trans hcellkind)
  rw [Term.eval, hcell]
  exact .of_goes (goes_load hslot hfits.small) ⟨rfl, ⟨_, hk, hrange⟩, hρ, .refl⟩

include h in
theorem yields_builtin {cls : BuiltinClass} (hc : IsCall T Γ c cls a) :
    Yields (emitBuiltin E ctx locals c cls) s (TermCode env fuel s.nextSlot locals (a.kind? Γ) (a.eval fuel)) := by
  cases hc with
  | arithmetic args hl hr =>
    simp only [emitBuiltin, args]
    exact yields_arithmetic h hl hr
  | negate args he =>
    simp only [emitBuiltin, args]
    exact yields_negate h he
  | comparison args hl hr =>
    simp only [emitBuiltin, args]
    exact yields_comparison h hl hr
  | conjunction args hl hr =>
    simp only [emitBuiltin, args]
    exact yields_conjunction h hl hr
  | disjunction args hl hr =>
    simp only [emitBuiltin, args]
    exact yields_disjunction h hl hr
  | not args he =>
    simp only [emitBuiltin, args]
    exact yields_not h he
  | selection hs =>
    simp only [emitBuiltin]
    exact yields_selection h hs
  | convert args target wide he =>
    simp only [emitBuiltin, args]
    exact yields_convert h he target wide
  | assign args he hx own =>
    simp only [emitBuiltin, args]
    exact yields_assign h he hx own
  | step args =>
    simp only [emitBuiltin, args]
    exact yields_step h
  | ifElse args he hyes hno hy hn =>
    simp only [emitBuiltin, args]
    exact yields_if h args he hyes hno hy hn
  | block body hb =>
    simp only [emitBuiltin, body]
    exact h.blockValue rfl hb

include h in
theorem yields_expr (he : IsTerm T Γ e a) :
    Yields (emitExpr E ctx locals e) s (TermCode env fuel s.nextSlot locals (a.kind? Γ) (a.eval fuel)) := by
  refine .liftBind fun ctx' hctx => ?_
  have h' : Ready env fuel T E ctx' locals Γ s.nextSlot := h.inside hctx
  cases he with
  | @int32 _ _ n =>
    refine yields_literal rfl fun i hi => ?_
    rw [literalPush] at hi
    split at hi
    case isTrue hn =>
      cases hi
      exact ⟨rfl, holds_of_inRange hn, _, rfl, word_of_inRange hn⟩
    case isFalse => exact nomatch hi
  | @int64 _ _ n =>
    refine yields_literal rfl fun i hi => ?_
    cases hi
    exact ⟨rfl, ⟨n.le_toInt, n.toInt_lt⟩, _, rfl, (word_toInt n).symm⟩
  | @uint64 _ _ n =>
    refine yields_literal rfl fun i hi => ?_
    cases hi
    exact ⟨rfl, ⟨Int.natCast_nonneg _, Int.ofNat_lt.mpr n.toNat_lt⟩, _, rfl, (word_toNat n).symm⟩
  | @bool _ _ b =>
    refine yields_literal rfl fun i hi => ?_
    cases hi
    exact ⟨rfl, Scalar.holds_truth b, _, rfl, by cases b <;> rfl⟩
  | name => exact yields_name h'
  | call plain builtin hc =>
    simp only [plain, builtin, Bool.false_eq_true, if_false]
    exact .check fun _ => .liftBind fun _ _ => .liftBind fun _ _ => yields_builtin h' hc

end
end FlatCode.Source
