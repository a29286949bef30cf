import FlatCode.Proofs.Slots.Basic

/-! The code of the mathematical functions reads the slots of its arguments and stores only to slots of its own. The one
    argument that is used up is the exponent of a power of integers. -/

namespace FlatCode.Lower

variable {op : ComparisonOp} {coefficients : List Float} {limit no yes : Lowering Unit}
  {base exponent sum term v : Nat}

section
variable {G : Nat → Prop} {m : Nat} {w : Width} {x : Nat}

theorem tidy_compareSlot (hx : x < m) (h : Tidy G m limit) : Tidy G m (compareSlot w x op limit) :=
  (tidy_load hx).andThen <| h.andThen tidy_compare

theorem tidy_select (hx : x < m) (hl : Tidy G m limit)
    (hy : Tidy G m yes) (hn : Tidy G m no) : Tidy G m (select w x op limit yes no) :=
  (tidy_compareSlot hx hl).andThen <| (hy.branch hn).andThen <| .pure fun _ _ => trivial

theorem tidy_abs (hx : x < m) : Tidy G m (emitAbs w x) := by
  unfold emitAbs
  split
  case h_1 => exact tidy_load hx
  case h_2 neg h => exact tidy_select hx tidy_pushInt ((tidy_load hx).andThen (tidy_negate h)) (tidy_load hx)

theorem tidy_positive (hx : x < m) : Tidy G m (emitPositive w x) :=
  tidy_select hx tidy_pushInt tidy_pushInt tidy_pushInt

theorem tidy_sign (hx : x < m) : Tidy G m (emitSign w x) :=
  .ite (fun _ => tidy_positive hx) fun _ => tidy_select hx tidy_pushInt tidy_pushInt (tidy_positive hx)

theorem tidy_clamp {low high : Lowering Unit} (hx : x < m) (hl : Tidy G m low) (hh : Tidy G m high) :
    Tidy G m (emitClamp w x low high) :=
  tidy_select hx hl hl <| tidy_select hx hh hh (tidy_load hx)

theorem tidy_trunc (hx : x < m) : Tidy G m (emitTrunc w x) := by
  refine (tidy_load hx).andThen <| .ite (fun _ => ?_) fun _ => ?_
  all_goals exact (tidy_emitWith rfl rfl).andThen (tidy_emitWith rfl rfl)

variable (hG : Fresh G m)
include hG

theorem tidy_adjusted {wrong : ComparisonOp} {op : ArithmeticOp} (hx : x < m) : Tidy G m (emitAdjusted w x wrong op) :=
  (tidy_trunc hx).andThen <| (respects_spill hG).bind fun _ _ hm ht =>
    tidy_select ht.1 (tidy_load (by omega))
      ((tidy_load ht.1).andThen <| tidy_pushFloat.andThen tidy_arithmetic) (tidy_load ht.1)

theorem respects_halfOff {op : ArithmeticOp} (hx : x < m) :
    Respects G m (emitHalfOff w x op) fun k m' => k < m' ∧ G k :=
  (tidy_load hx).andThen <| tidy_pushFloat.andThen <| tidy_arithmetic.andThen <| respects_spill hG

theorem tidy_round (hx : x < m) : Tidy G m (emitRound w x) :=
  tidy_select hx tidy_pushFloat
    ((respects_halfOff hG hx).bind fun _ _ hm ht => tidy_adjusted (hG.mono hm) ht.1)
    ((respects_halfOff hG hx).bind fun _ _ hm ht => tidy_adjusted (hG.mono hm) ht.1)

theorem tidy_fract (hx : x < m) : Tidy G m (emitFract w x) :=
  Respects.andThen (x := emitFloor w x) (tidy_adjusted hG hx) <| (respects_spill hG).bind fun _ _ hm ht =>
    (tidy_load (by omega)).andThen <| (tidy_load ht.1).andThen tidy_arithmetic

omit hG in
theorem tidy_times {k : Nat} {piece : Lowering Unit} (h : Tidy G m piece) : Tidy G m (times k piece) := by
  induction k with
  | zero => exact .pure fun _ _ => trivial
  | succ k ih => exact h.andThen ih

omit hG in
theorem tidy_ratio {a b : Float} : Tidy G m (emitRatio w a b) :=
  tidy_pushFloat.andThen <| tidy_pushFloat.andThen tidy_arithmetic

omit hG in
theorem tidy_ifZero (hx : x < m) (hy : Tidy G m yes) (hn : Tidy G m no) : Tidy G m (ifZero w x op yes no) :=
  tidy_select hx tidy_pushFloat hy hn

omit hG in
theorem tidy_sqrtStep (hv : v < m) (hx : x < m) (hGx : G x) : Tidy G m (sqrtStep w v x) :=
  (tidy_load hx).andThen <| (tidy_load hv).andThen <| (tidy_load hx).andThen <| tidy_arithmetic.andThen <|
    tidy_arithmetic.andThen <| tidy_pushFloat.andThen <| tidy_arithmetic.andThen <| tidy_store hx hGx

theorem tidy_sqrt (hv : v < m) : Tidy G m (emitSqrt w v) :=
  tidy_ifZero hv tidy_pushFloat <| tidy_ifZero hv tidy_ratio <| (tidy_load hv).andThen <|
    (respects_spill hG).bind fun _ _ hm hx =>
      (tidy_times (tidy_sqrtStep (by omega) hx.1 hx.2)).andThen (tidy_load hx.1)

omit hG in
theorem tidy_cbrtStep (hv : v < m) (hx : x < m) (hGx : G x) : Tidy G m (cbrtStep w v x) :=
  (tidy_load hx).andThen <| tidy_pushFloat.andThen <| tidy_arithmetic.andThen <| (tidy_load hv).andThen <|
    (tidy_load hx).andThen <| (tidy_load hx).andThen <| tidy_arithmetic.andThen <| tidy_arithmetic.andThen <|
    tidy_arithmetic.andThen <| tidy_pushFloat.andThen <| tidy_arithmetic.andThen <| tidy_store hx hGx

theorem tidy_cbrt (hv : v < m) : Tidy G m (emitCbrt w v) :=
  tidy_ifZero hv tidy_pushFloat <| (tidy_load hv).andThen <| (respects_spill hG).bind fun _ _ hm hx =>
    (tidy_times (tidy_cbrtStep (by omega) hx.1 hx.2)).andThen (tidy_load hx.1)

omit hG in
theorem tidy_expStep {k : Float} (hv : v < m) (hterm : term < m ∧ G term)
    (hsum : sum < m ∧ G sum) : Tidy G m (expStep w v term sum k) :=
  (tidy_load hterm.1).andThen <| (tidy_load hv).andThen <| tidy_arithmetic.andThen <| tidy_pushFloat.andThen <|
    tidy_arithmetic.andThen <| (tidy_store hterm.1 hterm.2).andThen <| (tidy_load hsum.1).andThen <|
    (tidy_load hterm.1).andThen <| tidy_arithmetic.andThen <| tidy_store hsum.1 hsum.2

theorem tidy_exp (hv : v < m) : Tidy G m (emitExp w v) :=
  tidy_pushFloat.andThen <| (respects_spill hG).bind fun term m₁ hm₁ hterm => tidy_pushFloat.andThen <|
    (respects_spill (hG.mono hm₁)).bind fun sum m₂ hm₂ hsum =>
      (Respects.forM (fun _ => tidy_expStep (by omega) ⟨by omega, hterm.2⟩ hsum) _).andThen (tidy_load hsum.1)

omit hG in
theorem tidy_logStep {square : Nat} {divisor : Float} (hsquare : square < m) (hterm : term < m ∧ G term)
    (hsum : sum < m ∧ G sum) : Tidy G m (logStep w square term sum divisor) :=
  (tidy_load hterm.1).andThen <| (tidy_load hsquare).andThen <| tidy_arithmetic.andThen <|
    (tidy_store hterm.1 hterm.2).andThen <| (tidy_load hsum.1).andThen <| (tidy_load hterm.1).andThen <|
    tidy_pushFloat.andThen <| tidy_arithmetic.andThen <| tidy_arithmetic.andThen <| tidy_store hsum.1 hsum.2

omit hG in
theorem tidy_moved {op : ArithmeticOp} (hv : v < m) : Tidy G m (emitMoved w v op) :=
  (tidy_load hv).andThen <| tidy_pushFloat.andThen tidy_arithmetic

theorem tidy_log (hv : v < m) : Tidy G m (emitLog w v) := by
  refine tidy_ifZero hv tidy_ratio <| tidy_ifZero hv tidy_ratio <| (tidy_moved hv).andThen <|
    (tidy_moved hv).andThen <| tidy_arithmetic.andThen <| (respects_spill hG).bind fun z m₁ hm₁ hz => ?_
  refine (tidy_load hz.1).andThen <| (tidy_load hz.1).andThen <| tidy_arithmetic.andThen <|
    (respects_spill (hG.mono hm₁)).bind fun square m₂ hm₂ hsquare => ?_
  refine (tidy_load (by omega)).andThen <| (respects_spill (hG.mono (by omega))).bind fun term m₃ hm₃ hterm => ?_
  refine (tidy_load (by omega)).andThen <| (respects_spill (hG.mono (by omega))).bind fun sum m₄ hm₄ hsum => ?_
  refine (Respects.forM (fun _ => tidy_logStep (by omega) ⟨by omega, hterm.2⟩ hsum) _).andThen ?_
  exact (tidy_load hsum.1).andThen <| tidy_pushFloat.andThen tidy_arithmetic

theorem tidy_intPow (hbase : base < m) (hexponent : exponent < m ∧ G exponent) :
    Tidy G m (emitIntPow w base exponent) := by
  refine (tidy_failIfNegative hexponent.1).andThen <| tidy_pushInt.andThen <|
    (respects_spill hG).bind fun out m₁ hm₁ hout => ?_
  have hexponent' : exponent < m₁ := by omega
  have hpass (m₂ : Nat) (hm₂ : m₁ ≤ m₂) : Tidy G m₂ (do
      load out; load base; arithmetic .multiply w; store out
      load exponent; pushInt w 1; arithmetic .minus w; store exponent) :=
    (tidy_load (by omega)).andThen <| (tidy_load (by omega)).andThen <| tidy_arithmetic.andThen <|
      (tidy_store (by omega) hout.2).andThen <| (tidy_load (by omega)).andThen <| tidy_pushInt.andThen <|
      tidy_arithmetic.andThen <| tidy_store (by omega) hexponent.2
  exact (Respects.loop (tidy_compareSlot hexponent' tidy_pushInt) fun _ m₂ hm₂ _ => hpass m₂ hm₂).andThen
    (tidy_load hout.1)

theorem tidy_floatPow (hbase : base < m) (hexponent : exponent < m) : Tidy G m (emitFloatPow w base exponent) :=
  tidy_ifZero hbase tidy_ratio <| tidy_ifZero hbase
    (tidy_ifZero hexponent tidy_pushFloat (tidy_ifZero hexponent tidy_ratio tidy_pushFloat))
    ((tidy_log hG hbase).andThen <| (tidy_load hexponent).andThen <| tidy_arithmetic.andThen <|
      (respects_spill hG).bind fun _ _ hm hx => tidy_exp (hG.mono hm) hx.1)

omit hG in
theorem tidy_foldTurn (hx : x < m ∧ G x) : Tidy G m (foldTurn w x) :=
  (tidy_compareSlot hx.1 tidy_pushFloat).andThen <| Respects.whenNonzero <|
    (tidy_load hx.1).andThen <| tidy_pushFloat.andThen <| tidy_arithmetic.andThen <| tidy_store hx.1 hx.2

omit hG in
theorem tidy_foldHalf {sign : Nat} {limit centre : Float} (hx : x < m ∧ G x)
    (hsign : sign < m ∧ G sign) : Tidy G m (foldHalf w x sign op limit centre) :=
  (tidy_compareSlot hx.1 tidy_pushFloat).andThen <| Respects.whenNonzero <|
    tidy_pushFloat.andThen <| (tidy_load hx.1).andThen <| tidy_arithmetic.andThen <| (tidy_store hx.1 hx.2).andThen <|
    tidy_pushFloat.andThen <| tidy_store hsign.1 hsign.2

omit hG in
theorem tidy_polynomial (hx : x < m) : Tidy G m (emitPolynomial w x coefficients) := by
  cases coefficients with
  | nil => exact .pure fun _ _ => trivial
  | cons c rest =>
    exact tidy_pushFloat.andThen <| .forM (fun _ =>
      (tidy_load hx).andThen <| tidy_arithmetic.andThen <| tidy_pushFloat.andThen tidy_arithmetic) rest

omit hG in
theorem tidy_scaled {factor : Nat} (hx : x < m) (hfactor : factor < m) :
    Tidy G m (emitScaled w x coefficients factor) :=
  (tidy_polynomial hx).andThen <| (tidy_load hfactor).andThen tidy_arithmetic

theorem respects_turned (hv : v < m) : Respects G m (emitTurned w v) fun k m' => k < m' ∧ G k := by
  refine (tidy_load hv).andThen <| tidy_pushFloat.andThen <| tidy_arithmetic.andThen <|
    (respects_spill hG).bind fun turns m₁ hm₁ hturns => ?_
  refine Respects.andThen (x := emitFloor w turns) (tidy_adjusted (hG.mono hm₁) hturns.1) <| tidy_pushFloat.andThen <|
    tidy_arithmetic.andThen <| (respects_spill (hG.mono hm₁)).bind fun whole m₂ hm₂ hwhole => ?_
  exact (tidy_load (by omega)).andThen <| (tidy_load hwhole.1).andThen <| tidy_arithmetic.andThen <|
    respects_spill (hG.mono (by omega))

theorem tidy_withAngle {k : Nat → Nat → Nat → Lowering Unit} (hv : v < m)
    (hk : ∀ x square sign m', x < m' → square < m' → sign < m' → Tidy G m' (k x square sign)) :
    Tidy G m (withAngle w v k) := by
  refine (respects_turned hG hv).bind fun x m₁ hm₁ hx => (tidy_foldTurn hx).andThen <| tidy_pushFloat.andThen <|
    (respects_spill (hG.mono hm₁)).bind fun sign m₂ hm₂ hsign => ?_
  have hx' : x < m₂ ∧ G x := ⟨by omega, hx.2⟩
  refine (tidy_foldHalf hx' hsign).andThen <| (tidy_foldHalf hx' hsign).andThen <| (tidy_load hx'.1).andThen <|
    (tidy_load hx'.1).andThen <| tidy_arithmetic.andThen <|
    (respects_spill (hG.mono (by omega))).bind fun square m₃ hm₃ hsquare => ?_
  exact hk x square sign m₃ (by omega) hsquare.1 (by omega)

theorem tidy_applyMath {name : String} {f : MathFunction} {slots : List Nat} (h : ∀ k ∈ slots, k < m ∧ G k) :
    Tidy G m (applyMath name f w slots) := by
  unfold applyMath
  split
  case h_20 => exact .throw
  all_goals simp only [List.forall_mem_cons, List.not_mem_nil, false_implies, implies_true, and_true] at h
  case h_1 => exact tidy_abs h.1
  case h_2 => exact tidy_sign h.1
  case h_3 => exact tidy_clamp h.1 tidy_pushInt tidy_pushInt
  case h_4 | h_5 => exact tidy_select h.1.1 (tidy_load h.2.1) (tidy_load h.1.1) (tidy_load h.2.1)
  case h_6 => exact tidy_clamp h.1.1 (tidy_load h.2.1.1) (tidy_load h.2.2.1)
  case h_7 => exact .ite (fun _ => tidy_floatPow hG h.1.1 h.2.1) fun _ => tidy_intPow hG h.1.1 h.2
  case h_8 | h_9 => exact .ite (fun _ => tidy_adjusted hG h.1) fun _ => tidy_load h.1
  case h_10 => exact .ite (fun _ => tidy_round hG h.1) fun _ => tidy_load h.1
  case h_11 => exact .ite (fun _ => tidy_trunc h.1) fun _ => tidy_load h.1
  case h_12 => exact .ite (fun _ => tidy_fract hG h.1) fun _ => tidy_pushInt
  case h_13 => exact tidy_sqrt hG h.1
  case h_14 => exact tidy_cbrt hG h.1
  case h_15 => exact tidy_exp hG h.1
  case h_16 => exact tidy_log hG h.1
  case h_17 => exact tidy_withAngle hG h.1 fun _ _ _ _ hx hsquare _ => tidy_scaled hsquare hx
  case h_18 => exact tidy_withAngle hG h.1 fun _ _ _ _ _ hsquare hsign => tidy_scaled hsquare hsign
  case h_19 =>
    exact tidy_withAngle hG h.1 fun _ _ _ _ hx hsquare hsign =>
      (tidy_scaled hsquare hx).andThen <| (tidy_scaled hsquare hsign).andThen tidy_arithmetic

end
end FlatCode.Lower
