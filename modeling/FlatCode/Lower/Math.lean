import FlatCode.Lower.Emitter

/-! Code for the mathematical functions. The arguments are in slots and the result is left on the stack. Roots are
    Newton iterations of fixed length; the other functions of floating point are truncated series. -/

namespace FlatCode.Lower

def compareSlot (w : Width) (x : Nat) (op : ComparisonOp) (limit : Lowering Unit) : Lowering Unit := do
  load x
  limit
  compare op w

/-- Leaves what `yes` pushes if `x op limit` holds, and what `no` pushes if not. -/
def select (w : Width) (x : Nat) (op : ComparisonOp) (limit yes no : Lowering Unit) : Lowering Unit := do
  compareSlot w x op limit
  let _ ← branch yes no

def emitAbs (w : Width) (x : Nat) : Lowering Unit :=
  match Opcode.negate? w with
  | none => load x
  | some neg => select w x .less (pushInt w 0) (do load x; emit neg) (load x)

def emitPositive (w : Width) (x : Nat) : Lowering Unit :=
  select w x .greater (pushInt w 0) (pushInt w 1) (pushInt w 0)

def emitSign (w : Width) (x : Nat) : Lowering Unit :=
  if w = .u64 then emitPositive w x
  else select w x .less (pushInt w 0) (pushInt w (-1)) (emitPositive w x)

def emitClamp (w : Width) (x : Nat) (low high : Lowering Unit) : Lowering Unit :=
  select w x .less low low (select w x .greater high high (load x))

def emitTrunc (w : Width) (x : Nat) : Lowering Unit := do
  load x
  if w = .f32 then
    emit .convertF32ToI32
    emit .convertI32ToF32
  else
    emit .convertF64ToI64
    emit .convertI64ToF64

/-- Rounds toward zero, and moves by one if the result lies on the wrong side. -/
def emitAdjusted (w : Width) (x : Nat) (wrong : ComparisonOp) (op : ArithmeticOp) : Lowering Unit := do
  emitTrunc w x
  let t ← spill
  select w t wrong (load x) (do load t; pushFloat w 1.0; arithmetic op w) (load t)

def emitFloor (w : Width) (x : Nat) : Lowering Unit := emitAdjusted w x .greater .minus

def emitCeil (w : Width) (x : Nat) : Lowering Unit := emitAdjusted w x .less .plus

def emitHalfOff (w : Width) (x : Nat) (op : ArithmeticOp) : Lowering Nat := do
  load x
  pushFloat w 0.5
  arithmetic op w
  spill

/-- Rounds to the nearest, and halves away from zero. -/
def emitRound (w : Width) (x : Nat) : Lowering Unit :=
  select w x .less (pushFloat w 0.0)
    (do emitCeil w (← emitHalfOff w x .minus))
    (do emitFloor w (← emitHalfOff w x .plus))

def emitFract (w : Width) (x : Nat) : Lowering Unit := do
  emitFloor w x
  let floor ← spill
  load x
  load floor
  arithmetic .minus w

/-- The number of steps of an iteration, by precision. -/
def terms (w : Width) (double single : Nat) : Nat := if w = .f64 then double else single

def times (n : Nat) (piece : Lowering Unit) : Lowering Unit :=
  match n with
  | 0 => return
  | n + 1 => do
    piece
    times n piece

def emitRatio (w : Width) (a b : Float) : Lowering Unit := do
  pushFloat w a
  pushFloat w b
  arithmetic .divide w

def emitNan (w : Width) : Lowering Unit := emitRatio w 0.0 0.0

/-- Leaves what `yes` pushes if `x op 0` holds, and what `no` pushes if not. -/
def ifZero (w : Width) (x : Nat) (op : ComparisonOp) (yes no : Lowering Unit) : Lowering Unit :=
  select w x op (pushFloat w 0.0) yes no

/-- Replaces `x` by `(x + v / x) / 2`. -/
def sqrtStep (w : Width) (v x : Nat) : Lowering Unit := do
  load x
  load v
  load x
  arithmetic .divide w
  arithmetic .plus w
  pushFloat w 0.5
  arithmetic .multiply w
  store x

def emitSqrt (w : Width) (v : Nat) : Lowering Unit :=
  ifZero w v .equal (pushFloat w 0.0) <| ifZero w v .less (emitNan w) do
    load v
    let x ← spill
    times (terms w 8 6) (sqrtStep w v x)
    load x

/-- Replaces `x` by `(2 * x + v / (x * x)) / 3`. -/
def cbrtStep (w : Width) (v x : Nat) : Lowering Unit := do
  load x
  pushFloat w 2.0
  arithmetic .multiply w
  load v
  load x
  load x
  arithmetic .multiply w
  arithmetic .divide w
  arithmetic .plus w
  pushFloat w 3.0
  arithmetic .divide w
  store x

def emitCbrt (w : Width) (v : Nat) : Lowering Unit :=
  ifZero w v .equal (pushFloat w 0.0) do
    load v
    let x ← spill
    times (terms w 10 8) (cbrtStep w v x)
    load x

/-- Multiplies `term` by `v / n` and adds it to `sum`. -/
def expStep (w : Width) (v term sum : Nat) (n : Float) : Lowering Unit := do
  load term
  load v
  arithmetic .multiply w
  pushFloat w n
  arithmetic .divide w
  store term
  load sum
  load term
  arithmetic .plus w
  store sum

def emitExp (w : Width) (v : Nat) : Lowering Unit := do
  pushFloat w 1.0
  let term ← spill
  pushFloat w 1.0
  let sum ← spill
  (List.range (terms w 12 10)).forM fun n => expStep w v term sum (n + 1).toFloat
  load sum

/-- Multiplies `term` by the square of `z` and adds its part to `sum`. -/
def logStep (w : Width) (square term sum : Nat) (divisor : Float) : Lowering Unit := do
  load term
  load square
  arithmetic .multiply w
  store term
  load sum
  load term
  pushFloat w (1.0 / divisor)
  arithmetic .multiply w
  arithmetic .plus w
  store sum

def emitMoved (w : Width) (v : Nat) (op : ArithmeticOp) : Lowering Unit := do
  load v
  pushFloat w 1.0
  arithmetic op w

/-- `2 * (z + z ^ 3 / 3 + ... + z ^ 9 / 9)` with `z = (v - 1) / (v + 1)`. -/
def emitLog (w : Width) (v : Nat) : Lowering Unit :=
  ifZero w v .less (emitNan w) <| ifZero w v .equal (emitRatio w (-1.0) 0.0) do
    emitMoved w v .minus
    emitMoved w v .plus
    arithmetic .divide w
    let z ← spill
    load z
    load z
    arithmetic .multiply w
    let square ← spill
    load z
    let term ← spill
    load z
    let sum ← spill
    [3.0, 5.0, 7.0, 9.0].forM (logStep w square term sum)
    load sum
    pushFloat w 2.0
    arithmetic .multiply w

/-- Multiplies repeatedly; a negative exponent fails when run. The slot of the exponent is used up. -/
def emitIntPow (w : Width) (base exponent : Nat) : Lowering Unit := do
  failIfNegative w exponent "pow exponent must be non-negative"
  pushInt w 1
  let out ← spill
  loop (compareSlot w exponent .greater (pushInt w 0)) fun _ => do
    load out
    load base
    arithmetic .multiply w
    store out
    load exponent
    pushInt w 1
    arithmetic .minus w
    store exponent
  load out

/-- `exp (exponent * log base)`, apart from a base that is zero or negative. -/
def emitFloatPow (w : Width) (base exponent : Nat) : Lowering Unit :=
  ifZero w base .less (emitNan w) <|
    ifZero w base .equal
      (ifZero w exponent .equal (pushFloat w 1.0)
        (ifZero w exponent .less (emitRatio w 1.0 0.0) (pushFloat w 0.0)))
      (do
        emitLog w base
        load exponent
        arithmetic .multiply w
        emitExp w (← spill))

def pi : Float := 3.141592653589793

def halfPi : Float := 1.5707963267948966

def tau : Float := 6.283185307179586

/-- Replaces `x` by `x - tau` if it is greater than `pi`. -/
def foldTurn (w : Width) (x : Nat) : Lowering Unit := do
  compareSlot w x .greater (pushFloat w pi)
  whenNonzero do
    load x
    pushFloat w tau
    arithmetic .minus w
    store x

/-- Replaces `x` by `centre - x` and `sign` by minus one if `x op limit` holds. -/
def foldHalf (w : Width) (x sign : Nat) (op : ComparisonOp) (limit centre : Float) : Lowering Unit := do
  compareSlot w x op (pushFloat w limit)
  whenNonzero do
    pushFloat w centre
    load x
    arithmetic .minus w
    store x
    pushFloat w (-1.0)
    store sign

/-- The polynomial with the given coefficients, highest first, by the rule of Horner. -/
def emitPolynomial (w : Width) (x : Nat) : List Float → Lowering Unit
  | [] => return
  | c :: rest => do
    pushFloat w c
    rest.forM fun c => do
      load x
      arithmetic .multiply w
      pushFloat w c
      arithmetic .plus w

def emitScaled (w : Width) (square : Nat) (coefficients : List Float) (factor : Nat) : Lowering Unit := do
  emitPolynomial w square coefficients
  load factor
  arithmetic .multiply w

/-- `x - x ^ 3 / 3! + x ^ 5 / 5! - x ^ 7 / 7!`. -/
def emitSinSeries (w : Width) (x square : Nat) : Lowering Unit :=
  emitScaled w square [-1.0 / 5040.0, 1.0 / 120.0, -1.0 / 6.0, 1.0] x

/-- `sign * (1 - x ^ 2 / 2! + x ^ 4 / 4! - x ^ 6 / 6!)`. -/
def emitCosSeries (w : Width) (square sign : Nat) : Lowering Unit :=
  emitScaled w square [-1.0 / 720.0, 1.0 / 24.0, -0.5, 1.0] sign

def emitTurned (w : Width) (v : Nat) : Lowering Nat := do
  load v
  pushFloat w tau
  arithmetic .divide w
  let turns ← spill
  emitFloor w turns
  pushFloat w tau
  arithmetic .multiply w
  let whole ← spill
  load v
  load whole
  arithmetic .minus w
  spill

/-- Brings the angle between minus and plus `pi / 2` and continues with its slot, that of its square, and that of
    the sign of the cosine. -/
def withAngle (w : Width) (v : Nat) (k : Nat → Nat → Nat → Lowering Unit) : Lowering Unit := do
  let x ← emitTurned w v
  foldTurn w x
  pushFloat w 1.0
  let sign ← spill
  foldHalf w x sign .greater halfPi pi
  foldHalf w x sign .less (-halfPi) (-pi)
  load x
  load x
  arithmetic .multiply w
  let square ← spill
  k x square sign

def applyMath (name : String) (f : MathFunction) (w : Width) (slots : List Nat) : Lowering Unit :=
  match f, slots with
  | .abs, [x] => emitAbs w x
  | .sign, [x] => emitSign w x
  | .saturate, [x] => emitClamp w x (pushInt w 0) (pushInt w 1)
  | .min, [a, b] => select w a .less (load b) (load a) (load b)
  | .max, [a, b] => select w a .greater (load b) (load a) (load b)
  | .clamp, [x, low, high] => emitClamp w x (load low) (load high)
  | .pow, [base, exponent] => if w.isFloat then emitFloatPow w base exponent else emitIntPow w base exponent
  | .floor, [x] => if w.isFloat then emitFloor w x else load x
  | .ceil, [x] => if w.isFloat then emitCeil w x else load x
  | .round, [x] => if w.isFloat then emitRound w x else load x
  | .trunc, [x] => if w.isFloat then emitTrunc w x else load x
  | .fract, [x] => if w.isFloat then emitFract w x else pushInt w 0
  | .sqrt, [v] => emitSqrt w v
  | .cbrt, [v] => emitCbrt w v
  | .exp, [v] => emitExp w v
  | .log, [v] => emitLog w v
  | .sin, [v] => withAngle w v fun x square _ => emitSinSeries w x square
  | .cos, [v] => withAngle w v fun _ square sign => emitCosSeries w square sign
  | .tan, [v] => withAngle w v fun x square sign => do
    emitSinSeries w x square
    emitCosSeries w square sign
    arithmetic .divide w
  | _, _ => throw (.callShape (.builtinArity name))

def emitMath (E : Emitter) (ctx : Context) (locals : Locals) (c : Call) (f : MathFunction) : Lowering Operand := do
  let operands ← c.args.mapM (ctx.operand locals)
  let w ← resolveMath c.name operands
  let slots ← c.args.mapM fun e => do
    E.exprAt ctx locals e w
    spill
  applyMath c.name f w slots
  return .value w.kind

end FlatCode.Lower
