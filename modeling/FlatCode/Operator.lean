import FlatCode.Error

/-! Which operands an operator takes, and the width it works at. Operands that are not numbers are refused first,
    then a mix of signed and unsigned, then a mix of integers and floating point; otherwise the wider wins. -/

namespace FlatCode

inductive ArithmeticOp where
  | plus
  | minus
  | multiply
  | divide
deriving DecidableEq, Repr

inductive ComparisonOp where
  | equal
  | notEqual
  | less
  | lessEqual
  | greater
  | greaterEqual
deriving DecidableEq, Repr

/-- What an arithmetic operator does: a numeric operation, or a step of an address. -/
inductive ArithmeticResolution where
  | numeric (width : Width)
  | pointer (target : Kind)
deriving DecidableEq, Repr

def ArithmeticResolution.result : ArithmeticResolution → Operand
  | .numeric w => .value w.kind
  | .pointer k => .pointer k

namespace OperatorFamily

def width (family : OperatorFamily) (k : Kind) : Except Error Width :=
  let allowed := k.isNumeric || (family == .comparison && k == .bool)
  match k.width? with
  | some w => if allowed then .ok w else .error (.type (.nonNumeric family))
  | none => .error (.type (.nonNumeric family))

def combine (family : OperatorFamily) (lhs rhs : Kind) : Except Error Width := do
  let l ← family.width lhs
  let r ← family.width rhs
  if (l == .u64) != (r == .u64) && !l.isFloat && !r.isFloat then throw (.type (.mixedSign family))
  if l.isFloat != r.isFloat then throw (.type (.mixedFloat family))
  return if l.rank < r.rank then r else l

end OperatorFamily

/-- Resolves `plus`, `minus`, `multiply` and `divide`. An address may be moved by an integer to its right. -/
def ArithmeticOp.resolve (op : ArithmeticOp) : Operand → Operand → Except Error ArithmeticResolution
  | .pointer _, .pointer _ => .error (.type .pointerPair)
  | .value _, .pointer _ => .error (.type .pointerOnRight)
  | .pointer k, .value offset =>
    if op == .multiply || op == .divide then .error (.type (.nonNumeric .arithmetic))
    else if offset.isInteger then .ok (.pointer k)
    else .error (.type .pointerOffset)
  | .value l, .value r => (OperatorFamily.arithmetic.combine l r).map .numeric

def resolveNegate : Operand → Except Error Width
  | .pointer _ => .error (.type (.nonNumeric .arithmetic))
  | .value k => do
    let w ← OperatorFamily.arithmetic.width k
    if w == .u64 then throw (.type .negateUnsigned)
    return w

/-- Resolves a comparison; bools compare as integers and addresses as 64-bit ones. -/
def resolveComparison (lhs rhs : Operand) : Except Error Width :=
  OperatorFamily.comparison.combine lhs.kind rhs.kind

def floatFunctions : List String := ["sqrt", "cbrt", "exp", "log", "sin", "cos", "tan"]

/-- The common width of operands, after those of width `current`. -/
def combineOperands (family : OperatorFamily) (current : Option Width) : List Operand → Except Error (Option Width)
  | [] => .ok current
  | .pointer _ :: _ => .error (.type (.nonNumeric family))
  | .value k :: rest => do
    let w ← match current with
      | none => family.width k
      | some w => family.combine w.kind k
    combineOperands family (some w) rest

def resolveMath (name : String) (operands : List Operand) : Except Error Width := do
  match ← combineOperands (.builtin name) none operands with
  | none => throw (.type (.nonNumeric (.builtin name)))
  | some w =>
    if floatFunctions.contains name && !w.isFloat then throw (.type (.floatRequired name))
    return w

end FlatCode
