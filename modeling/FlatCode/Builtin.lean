import FlatCode.Operator

/-! The builtin calls: what they do and how many arguments they take. -/

namespace FlatCode

inductive MathFunction where
  | abs
  | sign
  | saturate
  | min
  | max
  | clamp
  | pow
  | floor
  | ceil
  | round
  | trunc
  | fract
  | sqrt
  | cbrt
  | exp
  | log
  | sin
  | cos
  | tan
deriving DecidableEq, Repr

inductive CollectionForm where
  | array
  | vector
  | map
deriving DecidableEq, Repr

inductive BuiltinClass where
  | arithmetic (op : ArithmeticOp)
  | negate
  | comparison (op : ComparisonOp)
  | conjunction
  | disjunction
  | not
  | math (f : MathFunction)
  | convert
  | location
  | dereference
  | assign
  | step (op : ArithmeticOp)
  | ifElse
  | repeatLoop
  | countedLoop
  | whileLoop
  | forLoop
  | block
  | ret
  | print (newline stderr : Bool)
  | count
  | index (checked : Bool)
  | collection (form : CollectionForm)
  | heap
  | pathspace
deriving DecidableEq, Repr

/-- A builtin: what it does and how many arguments it takes at least and at most. -/
structure Builtin where
  cls : BuiltinClass
  minArgs : Nat
  maxArgs : Option Nat
deriving DecidableEq, Repr

namespace BuiltinClass

def takesBody : BuiltinClass → Bool
  | .repeatLoop | .countedLoop | .whileLoop | .forLoop | .block => true
  | _ => false

def isStatement : BuiltinClass → Bool
  | .ret | .repeatLoop | .countedLoop | .whileLoop | .forLoop | .print .. | .pathspace => true
  | _ => false

end BuiltinClass

namespace Builtin

def exact (cls : BuiltinClass) (n : Nat) : Builtin := ⟨cls, n, some n⟩

def lookup? : String → Option Builtin
  | "plus" => some (exact (.arithmetic .plus) 2)
  | "minus" => some (exact (.arithmetic .minus) 2)
  | "multiply" => some (exact (.arithmetic .multiply) 2)
  | "divide" => some (exact (.arithmetic .divide) 2)
  | "negate" => some (exact .negate 1)
  | "equal" => some (exact (.comparison .equal) 2)
  | "not_equal" => some (exact (.comparison .notEqual) 2)
  | "less_than" => some (exact (.comparison .less) 2)
  | "less_equal" => some (exact (.comparison .lessEqual) 2)
  | "greater_than" => some (exact (.comparison .greater) 2)
  | "greater_equal" => some (exact (.comparison .greaterEqual) 2)
  | "and" => some (exact .conjunction 2)
  | "or" => some (exact .disjunction 2)
  | "not" => some (exact .not 1)
  | "clamp" => some (exact (.math .clamp) 3)
  | "min" => some (exact (.math .min) 2)
  | "max" => some (exact (.math .max) 2)
  | "pow" => some (exact (.math .pow) 2)
  | "abs" => some (exact (.math .abs) 1)
  | "sign" => some (exact (.math .sign) 1)
  | "saturate" => some (exact (.math .saturate) 1)
  | "floor" => some (exact (.math .floor) 1)
  | "ceil" => some (exact (.math .ceil) 1)
  | "round" => some (exact (.math .round) 1)
  | "trunc" => some (exact (.math .trunc) 1)
  | "fract" => some (exact (.math .fract) 1)
  | "sqrt" => some (exact (.math .sqrt) 1)
  | "cbrt" => some (exact (.math .cbrt) 1)
  | "exp" => some (exact (.math .exp) 1)
  | "log" => some (exact (.math .log) 1)
  | "sin" => some (exact (.math .sin) 1)
  | "cos" => some (exact (.math .cos) 1)
  | "tan" => some (exact (.math .tan) 1)
  | "convert" => some (exact .convert 1)
  | "location" => some (exact .location 1)
  | "dereference" => some (exact .dereference 1)
  | "assign" => some (exact .assign 2)
  | "increment" => some (exact (.step .plus) 1)
  | "decrement" => some (exact (.step .minus) 1)
  | "if" => some (exact .ifElse 3)
  | "repeat" => some (exact .repeatLoop 1)
  | "loop" => some (exact .countedLoop 1)
  | "while" => some (exact .whileLoop 1)
  | "for" => some (exact .forLoop 3)
  | "block" => some (exact .block 0)
  | "return" => some ⟨.ret, 0, some 1⟩
  | "print" => some (exact (.print false false) 1)
  | "print_line" => some (exact (.print true false) 1)
  | "print_error" => some (exact (.print false true) 1)
  | "print_line_error" => some (exact (.print true true) 1)
  | "count" => some (exact .count 1)
  | "at" => some (exact (.index true) 2)
  | "at_unsafe" => some (exact (.index false) 2)
  | "array" => some ⟨.collection .array, 0, none⟩
  | "vector" => some ⟨.collection .vector, 0, none⟩
  | "map" => some ⟨.collection .map, 0, none⟩
  | "push" => some (exact .heap 2)
  | "reserve" => some (exact .heap 2)
  | "notify" => some (exact .pathspace 2)
  | "insert" => some (exact .pathspace 2)
  | "take" => some (exact .pathspace 1)
  | _ => none

def checkArity (b : Builtin) (name : String) (count : Nat) : Except Error Unit :=
  if count < b.minArgs || b.maxArgs.any (· < count) then .error (.callShape (.builtinArity name)) else .ok ()

end Builtin

def CallOf.argument {ε : Type} (c : CallOf ε) (i : Nat) : Except Error ε :=
  match c.args[i]? with
  | some e => .ok e
  | none => .error (.callShape (.builtinArity c.name))

def CallOf.builtin? {ε : Type} (c : CallOf ε) : Option Builtin :=
  if c.isMethod then none else Builtin.lookup? c.name

end FlatCode
