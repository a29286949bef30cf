import FlatCode.Program.Basic

/-! Kinds of scalar values, the widths that arithmetic works at, and operands. -/

namespace FlatCode

/-- The kind of a scalar value; `unknown` where it has not been inferred. -/
inductive Kind where
  | int32
  | int64
  | uint64
  | float32
  | float64
  | bool
  | string
  | unknown
deriving DecidableEq, Repr, Inhabited

inductive Width where
  | i32
  | i64
  | u64
  | f32
  | f64
deriving DecidableEq, Repr

namespace Kind

def ofTypeName? : String → Option Kind
  | "int" => some .int32
  | "i32" => some .int32
  | "i64" => some .int64
  | "u64" => some .uint64
  | "float" => some .float32
  | "f32" => some .float32
  | "f64" => some .float64
  | "bool" => some .bool
  | "string" => some .string
  | _ => none

def ofLiteral : Literal → Kind
  | .int _ .i32 => .int32
  | .int _ .i64 => .int64
  | .uint _ => .uint64
  | .float _ .f32 => .float32
  | .float _ .f64 => .float64
  | .bool _ => .bool
  | .string _ => .string

def typeName : Kind → String
  | .int32 => "i32"
  | .int64 => "i64"
  | .uint64 => "u64"
  | .float32 => "f32"
  | .float64 => "f64"
  | .bool => "bool"
  | .string => "string"
  | .unknown => "unknown"

def isInteger : Kind → Bool
  | .int32 | .int64 | .uint64 => true
  | _ => false

def isFloat : Kind → Bool
  | .float32 | .float64 => true
  | _ => false

def isNumeric (k : Kind) : Bool := k.isInteger || k.isFloat

/-- The width of a numeric kind; a bool counts as 32 bits. -/
def width? : Kind → Option Width
  | .int32 | .bool => some .i32
  | .int64 => some .i64
  | .uint64 => some .u64
  | .float32 => some .f32
  | .float64 => some .f64
  | .string | .unknown => none

/-- Whether a value of kind `actual` may flow into a place of kind `expected`. -/
def accepts (expected actual : Kind) : Bool :=
  expected == .unknown || actual == .unknown || expected == actual
    || (expected.isInteger && actual.isInteger) || (expected.isFloat && actual.isFloat)

end Kind

namespace Width

def kind : Width → Kind
  | .i32 => .int32
  | .i64 => .int64
  | .u64 => .uint64
  | .f32 => .float32
  | .f64 => .float64

def isFloat : Width → Bool
  | .f32 | .f64 => true
  | _ => false

def rank : Width → Nat
  | .i32 => 0
  | .i64 | .u64 => 1
  | .f32 => 2
  | .f64 => 3

end Width

/-- An operand: a scalar value, or the address of one. -/
inductive Operand where
  | value (kind : Kind)
  | pointer (target : Kind)
deriving DecidableEq, Repr

namespace Operand

def kind : Operand → Kind
  | .value k => k
  | .pointer _ => .int64

def target : Operand → Kind
  | .value k => k
  | .pointer k => k

def isPointer : Operand → Bool
  | .value _ => false
  | .pointer _ => true

def unknown : Operand := .value .unknown

def isCondition (o : Operand) : Bool := o == .value .bool || o == .unknown

end Operand
end FlatCode
