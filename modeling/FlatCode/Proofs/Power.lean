import FlatCode.Proofs.Building.Entry

/-! Powers of integers. The code of a power multiplies by the base and counts the exponent down. Main result: a program that
    returns the power of two literals is compiled, and its runs return the power reduced to the width, or report that the
    exponent is negative (`pow_literals`). -/

namespace FlatCode

/-- A factor may be reduced before a product is. -/
theorem Source.Scalar.wrap_wrap_mul {k : Source.Scalar} (hk : k ≠ .bool) (a b : Int) :
    k.wrap (k.wrap a * b) = k.wrap (a * b) := by
  cases k with
  | i32 => exact Int.bmod_mul_bmod
  | i64 => exact Int.bmod_mul_bmod
  | u64 =>
    simp only [wrap]
    rw [Int.mul_emod, Int.emod_emod, ← Int.mul_emod]
  | bool => exact absurd rfl hk

namespace Lower
open Machine (Env Flow)
open Source (Scalar word truth holds)

/-! ### The loop -/

namespace Behaviour

def testsPositive (k : Scalar) (slot : Nat) : Behaviour := fun _ m f =>
  ∃ v, m.slot slot = word v ∧ k.Holds v ∧ f = .next { m with stack := word (truth (decide (0 < v))) :: m.stack }

def multiplies (k : Scalar) (base out : Nat) : Behaviour := fun _ m f =>
  ∃ b o, m.slot base = word b ∧ m.slot out = word o ∧ k.Holds b ∧ k.Holds o ∧
    f = .next (m.stored out (word (k.wrap (o * b))) m.stack)

def decreases (k : Scalar) (slot : Nat) : Behaviour := fun _ m f =>
  ∃ v, m.slot slot = word v ∧ k.Holds v ∧ k.Holds (v - 1) ∧ f = .next (m.stored slot (word (v - 1)) m.stack)

def raises (k : Scalar) (base exponent out : Nat) : Behaviour :=
  .AndThen (.refusesNegative k exponent "pow exponent must be non-negative") <|
  .AndThen (.pushes fun _ => word 1) <| .AndThen (.stores out) <|
  .AndThen (.Repeats (.testsPositive k exponent) (.AndThen (.multiplies k base out) (.decreases k exponent))) <|
    .pushes (·.slot out)

end Behaviour

section
variable {k : Scalar} {n base exponent out : Nat}

theorem builds_testPositive (hk : k ≠ .bool) :
    Builds n (compareSlot k.width exponent .greater (pushInt k.width 0)) () n 0 3 (.testsPositive k exponent) := by
  refine Builds.mono (.bind builds_load (.bind (builds_pushInt hk k.holds_zero) (builds_compare hk))) rfl (by omega)
    (by omega) ?_
  rintro env m f ⟨v, hslot, hv, rfl⟩
  have hstack : word 0 :: m.slot exponent :: m.stack = word 0 :: word v :: m.stack := by rw [hslot]
  exact .next rfl (.next rfl ⟨v, 0, m.stack, hstack, hv, k.holds_zero, rfl⟩)

theorem builds_multiply (hk : k ≠ .bool) (hout : out < n) :
    Builds n (do load out; load base; arithmetic .multiply k.width; store out) () n (out + 1) 4
      (.multiplies k base out) := by
  refine Builds.mono (.bind builds_load (.bind builds_load (.bind (builds_arithmetic hk) (builds_store hout)))) rfl
    (by omega) (by omega) ?_
  rintro env m f ⟨b, o, hb, ho, hbk, hok, rfl⟩
  have hstack : m.slot base :: m.slot out :: m.stack = word b :: word o :: m.stack := by rw [hb, ho]
  exact .next rfl (.next rfl (.next ⟨o, b, _, m.stack, hstack, hok, hbk, rfl, rfl⟩ ⟨_, _, rfl, rfl⟩))

theorem builds_decrease (hk : k ≠ .bool) (hexponent : exponent < n) :
    Builds n (do load exponent; pushInt k.width 1; arithmetic .minus k.width; store exponent) () n (exponent + 1) 4
      (.decreases k exponent) := by
  refine Builds.mono (.bind builds_load (.bind (builds_pushInt hk k.holds_one) (.bind (builds_arithmetic hk)
    (builds_store hexponent)))) rfl (by omega) (by omega) ?_
  rintro env m f ⟨v, hslot, hv, hless, rfl⟩
  have hstack : word 1 :: m.slot exponent :: m.stack = word 1 :: word v :: m.stack := by rw [hslot]
  have hresult : Source.result? .minus k v 1 = some (v - 1) := congrArg some (Scalar.wrap_eq_self hless)
  exact .next rfl (.next rfl (.next ⟨v, 1, _, m.stack, hstack, hv, k.holds_one, hresult, rfl⟩ ⟨_, _, rfl, rfl⟩))

theorem builds_intPow (hk : k ≠ .bool) (hexponent : exponent < n) :
    Builds n (emitIntPow k.width base exponent) () (n + 1) (n + 1) 24 (.raises k base exponent n) := by
  have hmultiply : Builds (n + 1) (do load n; load base; arithmetic .multiply k.width; store n) () (n + 1) (n + 1) 4
      (.multiplies k base n) := builds_multiply hk (Nat.lt_succ_self n)
  have hbody := hmultiply.bind (f := fun _ => do
    load exponent; pushInt k.width 1; arithmetic .minus k.width; store exponent)
    (builds_decrease hk (Nat.lt_succ_of_lt hexponent))
  simp only [bind_assoc] at hbody
  exact Builds.mono (.bind (builds_failIfNegative hk) (.bind (builds_pushInt hk k.holds_one) (.bind builds_spill
    (.bind (.loop (builds_testPositive hk) hbody) builds_load)))) rfl (by omega) (by omega) fun _ _ _ => id

end

/-! ### What the loop computes -/

/-- Within a power that is left with `m₀`: the base, what remains of the exponent, and the result so far. -/
structure Raising (k : Scalar) (n base exponent out : Nat) (b : Int) (m₀ : Machine.State) (e : Nat) (o : Int)
    (m : Machine.State) : Prop extends m.Roomy n where
  base : m.slot base = word b
  exponent : m.slot exponent = word e
  out : m.slot out = word (k.wrap o)
  range : k.Holds e
  stack : m.stack = m₀.stack
  output : m.output = m₀.output

section
variable {k : Scalar} {n base exponent out : Nat} (env : Env) {m₀ m : Machine.State} {b o : Int} {e : Nat}

theorem holds_of_succ (h : k.Holds (e + 1 : Nat)) : k.Holds e := by
  cases k <;> simp only [Scalar.Holds] at h ⊢ <;> omega

/-- One pass: the result gets one more factor. -/
theorem Raising.pass (h : Raising k n base exponent out b m₀ (e + 1) o m) (hk : k ≠ .bool) (hb : k.Holds b)
    (hbase : base < n) (hexponent : exponent < n) (hout : out < n) (hne : base ≠ exponent ∧ base ≠ out ∧ exponent ≠ out) :
    ∃ m', Behaviour.AndThen (.multiplies k base out) (.decreases k exponent) env m (.next m') ∧
      Raising k n base exponent out b m₀ e (o * b) m' := by
  obtain ⟨hbe, hbo, heo⟩ := hne
  have hroom := h.toRoomy
  have hexp : (m.stored out (word (k.wrap (k.wrap o * b))) m.stack).slot exponent = word (e + 1 : Nat) := by
    rw [hroom.slot_stored_ne hexponent hout heo, h.exponent]
  have hless : ((e + 1 : Nat) : Int) - 1 = e := by omega
  have hrange := holds_of_succ h.range
  refine ⟨_, .next ⟨b, _, h.base, h.out, hb, k.holds_wrap o, rfl⟩ ⟨_, hexp, h.range, hless ▸ hrange, rfl⟩,
    { toRoomy := hroom.stored.stored, base := ?_, exponent := ?_, out := ?_, range := hrange, stack := h.stack
      output := h.output }⟩
  · rw [hroom.stored.slot_stored_ne hbase hexponent hbe, hroom.slot_stored_ne hbase hout hbo, h.base]
  · rw [hroom.stored.slot_stored hexponent, hless]
  · rw [hroom.stored.slot_stored_ne hout hexponent heo.symm, hroom.slot_stored hout, Scalar.wrap_wrap_mul hk]

/-- The whole loop: the result gets as many factors as the exponent says. -/
theorem Raising.loop (h : Raising k n base exponent out b m₀ e o m) (hk : k ≠ .bool) (hb : k.Holds b)
    (hbase : base < n) (hexponent : exponent < n) (hout : out < n) (hne : base ≠ exponent ∧ base ≠ out ∧ exponent ≠ out) :
    ∃ m', Behaviour.Repeats (.testsPositive k exponent) (.AndThen (.multiplies k base out) (.decreases k exponent)) env m
      (.next m') ∧ Raising k n base exponent out b m₀ 0 (o * b ^ e) m' := by
  induction e generalizing o m with
  | zero =>
    rw [Int.pow_zero, Int.mul_one]
    exact ⟨_, .done ⟨0, h.exponent, h.range, rfl⟩ rfl, h⟩
  | succ e ih =>
    obtain ⟨m', hpass, h'⟩ := h.pass env hk hb hbase hexponent hout hne
    obtain ⟨m'', hrest, h''⟩ := ih h'
    have hpositive : decide (0 < ((e + 1 : Nat) : Int)) = true := decide_eq_true (by omega)
    refine ⟨m'', .pass ⟨_, h.exponent, h.range, rfl⟩ rfl ?_ hpass hrest, ?_⟩
    · rw [hpositive]
      decide
    · rw [Int.pow_succ', ← Int.mul_assoc]
      exact h''

theorem raises_pow (hm : m.Roomy (n + 1)) (hk : k ≠ .bool) (hb : k.Holds b) (he : k.Holds e) (hbase : base < n)
    (hexponent : exponent < n) (hne : base ≠ exponent) (hslotb : m.slot base = word b) (hslote : m.slot exponent = word e) :
    ∃ m' : Machine.State, Behaviour.raises k base exponent n env m
      (.next { m' with stack := word (k.wrap (b ^ e)) :: m.stack }) ∧ m'.output = m.output := by
  have hbase' := Nat.lt_succ_of_lt hbase
  have hexponent' := Nat.lt_succ_of_lt hexponent
  have hout := Nat.lt_succ_self n
  have hone : k.wrap 1 = 1 := Scalar.wrap_eq_self k.holds_one
  have hstart : Raising k (n + 1) base exponent n b m e 1 (m.stored n (word 1) m.stack) := by
    refine { toRoomy := hm.stored, base := ?_, exponent := ?_, out := ?_, range := he, stack := rfl, output := rfl }
    · rw [hm.slot_stored_ne hbase' hout (Nat.ne_of_lt hbase), hslotb]
    · rw [hm.slot_stored_ne hexponent' hout (Nat.ne_of_lt hexponent), hslote]
    · rw [hm.slot_stored hout, hone]
  obtain ⟨m', hloop, hend⟩ := hstart.loop env hk hb hbase' hexponent' hout
    ⟨hne, Nat.ne_of_lt hbase, Nat.ne_of_lt hexponent⟩
  have hpush : Behaviour.pushes (·.slot n) env m' (.next { m' with stack := word (k.wrap (b ^ e)) :: m.stack }) := by
    rw [Behaviour.pushes, hend.out, hend.stack, Int.one_mul]
  refine ⟨m', .next ⟨e, hslote, he, .inl ⟨Int.natCast_nonneg e, rfl⟩⟩ ?_, hend.output⟩
  exact .next rfl (.next ⟨_, _, rfl, rfl⟩ (.next hloop hpush))

end

/-! ### Literals -/

section
variable {A B W : Scalar} {b e : Int}

/-- The common kind of two literals has the values of both. -/
theorem holds_of_resolveMath {name : String} (hW : W ≠ .bool)
    (h : resolveMath name [.value A.kind, .value B.kind] = .ok W.width) :
    (∀ v, A.Holds v → W.Holds v) ∧ ∀ v, B.Holds v → W.Holds v := by
  have hoperands : resolveMath name ([some A, some B].map Source.operandOf) = .ok W.width := h
  obtain ⟨k, hjoin, hwidth⟩ := Source.resolveMath_operands hoperands
  obtain ⟨hk, hall⟩ := Scalar.joinAll_eq_some hjoin
  have hWk : W = k := by cases W <;> cases k <;> first | rfl | contradiction
  subst hWk
  obtain ⟨⟨A', hA, hholds⟩, hrest⟩ := List.forall_mem_cons.mp hall
  obtain ⟨⟨B', hB, hholds'⟩, -⟩ := List.forall_mem_cons.mp hrest
  cases hA
  cases hB
  exact ⟨hholds, hholds'⟩

theorem evaluates_pow {effects : EffectSet} (hW : W ≠ .bool)
    (h : resolveMath "pow" [.value A.kind, .value B.kind] = .ok W.width) (hb : A.Holds b) (he : B.Holds e) :
    Evaluates effects (.plainCall "pow" [A.literal b, B.literal e]) W 3 3 28
      (.AndThen (.pushes fun _ => word b) <| .AndThen (.stores 0) <| .AndThen (.pushes fun _ => word e) <|
        .AndThen (.stores 1) (.raises W 0 1 2)) := by
  constructor
  case checked =>
    intro depth ctx cache _ _
    show (do
      let operands ← [A.literal b, B.literal e].mapM ((Check.Checker.atDepth (depth + 2)).expr ctx [])
      Check.numericValue operands (resolveMath "pow" operands) : Check.Checking Operand) cache = _
    simp only [List.mapM_cons, List.mapM_nil, check_literal, pure_bind, h]
    cases A <;> cases B <;> cases W <;> first | rfl | contradiction
  case inferred =>
    intro scope depth site cache
    show (do
      let operands ← [A.literal b, B.literal e].mapM ((Check.Inferrer.atDepth scope (depth + 2)).operand site [])
      return Check.valueAt (resolveMath "pow" operands) : Recall Operand) cache = _
    simp only [List.mapM_cons, List.mapM_nil, inferred_literal, pure_bind, h, Check.valueAt, Scalar.kind_width hW]
    rfl
  case told =>
    intro scope depth site cache
    show (do
      let operands ← [A.literal b, B.literal e].mapM ((Inferrer.atDepth scope (depth + 2)).operand site [])
      return .value (← resolveMath "pow" operands).kind : Infer Operand).run cache = _
    simp only [List.mapM_cons, List.mapM_nil, told_literal, pure_bind, h]
    rw [← Scalar.kind_width hW]
    rfl
  case built =>
    intro depth ctx _ ⟨scope, depth', hinferrer⟩
    show Builds 0 (do
      let operands ← [A.literal b, B.literal e].mapM (ctx.operand [])
      let w ← resolveMath "pow" operands
      let slots ← [A.literal b, B.literal e].mapM fun e => do
        (Emitter.atDepth (depth + 2)).exprAt ctx [] e w
        spill
      applyMath "pow" .pow w slots
      return Operand.value w.kind) _ _ _ _ _
    simp only [List.mapM_cons, List.mapM_nil, operand_literal _ _ hinferrer, pure_bind, h, bind_assoc]
    have hpow : Builds 2 (applyMath "pow" .pow W.width [0, 1]) () 3 3 24 (.raises W 0 1 2) := by
      have happly : applyMath "pow" .pow W.width [0, 1] = emitIntPow W.width 0 1 := by cases W <;> rfl
      rw [happly]
      exact builds_intPow hW (Nat.lt_succ_self 1)
    rw [← Scalar.kind_width hW]
    exact Builds.mono (.lift rfl (.bind (builds_literalAt hb) (.bind builds_spill (.bind (builds_literalAt he)
      (.bind builds_spill (.map hpow)))))) rfl (by omega) (by omega) fun _ _ _ => id

end
end Lower

open Lower Machine
open Source (Scalar word)

/-- Programs that return a power of integer literals: runs return the power reduced to the width of the operands, unless the
    exponent is negative. -/
theorem pow_literals (h : Heading) {A B W : Scalar} {b e : Int} (hW : W ≠ .bool) (hT : h.Returns W)
    (hwidth : resolveMath "pow" [.value A.kind, .value B.kind] = .ok W.width) (hb : A.Holds b) (he : B.Holds e) :
    ∃ m, (h.program [] [.ret (.plainCall "pow" [A.literal b, B.literal e])]).compile h.options = .ok m ∧
      ∀ args, EndsWith m args (if 0 ≤ e then .returned (word (W.wrap (b ^ e.toNat)))
        else .reported "pow exponent must be non-negative") := by
  obtain ⟨m, hcompile, hruns⟩ := Heading.compile_return (evaluates_pow hW hwidth hb he) hT (by decide) (Nat.le_refl 3)
    (by decide)
  obtain ⟨hA, hB⟩ := holds_of_resolveMath hW hwidth
  refine ⟨m, hcompile, fun args => hruns args _ fun env m hm => ?_⟩
  -- The operands are in the first two slots when the power is computed.
  have hroom := hm.toRoomy
  have hslotb : ((m.stored 0 (word b) m.stack).stored 1 (word e) m.stack).slot 0 = word b := by
    rw [hroom.stored.slot_stored_ne (by decide) (by decide) (by decide), hroom.slot_stored (by decide)]
  have hslote : ((m.stored 0 (word b) m.stack).stored 1 (word e) m.stack).slot 1 = word e :=
    hroom.stored.slot_stored (by decide)
  have hoperands : ∀ f, Behaviour.raises W 0 1 2 env ((m.stored 0 (word b) m.stack).stored 1 (word e) m.stack) f →
      (Behaviour.AndThen (.pushes fun _ => word b) <| .AndThen (.stores 0) <| .AndThen (.pushes fun _ => word e) <|
        .AndThen (.stores 1) (.raises W 0 1 2)) env m f := fun f hf =>
    .next rfl (.next ⟨_, _, rfl, rfl⟩ (.next rfl (.next ⟨_, _, rfl, rfl⟩ hf)))
  split
  case isTrue hpos =>
    obtain ⟨e, rfl⟩ := Int.eq_ofNat_of_zero_le hpos
    obtain ⟨m', hraises, houtput⟩ := raises_pow env hroom.stored.stored hW (hA b hb) (hB _ he) (by decide) (by decide)
      (by decide) hslotb hslote
    exact Heading.returned_of_next (hoperands _ hraises) rfl (houtput.trans hm.output)
  case isFalse hneg =>
    refine Heading.reported_of_failed (hoperands _ (.stop ⟨e, hslote, hB e he, .inr ⟨Int.not_le.mp hneg, ?_⟩⟩ trivial))
      hm.output
    rfl

/-- A power that is too large for 64 bits, and one with a negative exponent. -/
theorem pow_negative_three : resolveMath "pow" [.value .int32, .value .int64] = .ok .i64 ∧
    (∃ m, (Heading.plain.program [] [.ret (.plainCall "pow" [Scalar.i32.literal (-3), Scalar.i64.literal 41])]).compile
      Heading.plain.options = .ok m ∧ ∀ args, EndsWith m args (.returned 420491770248316829)) ∧
    ∃ m, (Heading.plain.program [] [.ret (.plainCall "pow" [Scalar.i32.literal (-3), Scalar.i64.literal (-1)])]).compile
      Heading.plain.options = .ok m ∧ ∀ args, EndsWith m args (.reported "pow exponent must be non-negative") := by
  have hbase : Scalar.i32.Holds (-3) := ⟨by decide, by decide⟩
  refine ⟨rfl, ?_, ?_⟩
  · have hpow := pow_literals .plain (A := .i32) (B := .i64) (W := .i64) (b := -3) (e := 41) (by decide) (.inl rfl) rfl hbase
      ⟨by decide, by decide⟩
    have hvalue : word (Scalar.i64.wrap ((-3) ^ (41 : Int).toNat)) = 420491770248316829 := by decide
    rwa [if_pos (by decide), hvalue] at hpow
  · have hpow := pow_literals .plain (A := .i32) (B := .i64) (W := .i64) (b := -3) (e := -1) (by decide) (.inl rfl) rfl hbase
      ⟨by decide, by decide⟩
    rwa [if_neg (by decide)] at hpow

end FlatCode
