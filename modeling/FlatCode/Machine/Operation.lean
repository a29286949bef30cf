import FlatCode.Code.Opcode
import FlatCode.Machine.Word

/-! What each opcode does. -/

namespace FlatCode

/-- What an instruction does to the machine. Operands are popped right to left and the result is pushed. -/
inductive Operation where
  /-- Pushes a word made from the immediate. -/
  | push (f : UInt64 → Word)
  | unary (f : Word → Word)
  | binary (f : Word → Word → Word)
  /-- Fails if the divisor does not divide. -/
  | divide (f : Word → Word → Option Word)
  | pop
  | dup
  | load
  | store
  | loadIndirect
  | storeIndirect
  | jump
  | jumpIfZero
  | returnVoid
  | returnValue
  | argumentCount
  | printString
  /-- Prints a popped word as the given text. -/
  | print (f : Word → String)
  | printArgument
  | stringByte

namespace Operation

/-! ### Operations by the numbers they work on -/

def onInt32 (f : Int32 → Int32 → Int32) : Operation := .binary fun a b => .ofInt32 (f a.int32 b.int32)

def onFloat32 (f : Float32 → Float32 → Float32) : Operation := .binary fun a b => .ofFloat32 (f a.float32 b.float32)

def onFloat64 (f : Float → Float → Float) : Operation := .binary fun a b => .ofFloat64 (f a.float64 b.float64)

def testInt32 (f : Int32 → Int32 → Bool) : Operation := .binary fun a b => .ofBool (f a.int32 b.int32)

def testInt64 (f : Int64 → Int64 → Bool) : Operation := .binary fun a b => .ofBool (f a.int64 b.int64)

def testWord (f : Word → Word → Bool) : Operation := .binary fun a b => .ofBool (f a b)

def testFloat32 (f : Float32 → Float32 → Bool) : Operation := .binary fun a b => .ofBool (f a.float32 b.float32)

def testFloat64 (f : Float → Float → Bool) : Operation := .binary fun a b => .ofBool (f a.float64 b.float64)

end Operation

/-- The distance between the addresses of two neighbouring slots. -/
def slotStride : UInt64 := 16

open Operation in
def Opcode.operation : Opcode → Operation
  | .pushI32 => .push fun imm => .ofInt32 imm.toUInt32.toInt32
  | .pushI64 | .pushF64 => .push id
  | .pushF32 => .push fun imm => imm &&& 0xffffffff
  | .pop => .pop
  | .dup => .dup
  | .loadLocal => .load
  | .storeLocal => .store
  | .addressOfLocal => .push (· * slotStride)
  | .loadIndirect => .loadIndirect
  | .storeIndirect => .storeIndirect
  | .addI32 => onInt32 (· + ·)
  | .subI32 => onInt32 (· - ·)
  | .mulI32 => onInt32 (· * ·)
  | .divI32 => .divide fun a b => if b.int32 = 0 then none else some (.ofInt32 (a.int32 / b.int32))
  | .negI32 => .unary fun a => .ofInt32 (-a.int32)
  | .addI64 => .binary (· + ·)
  | .subI64 => .binary (· - ·)
  | .mulI64 => .binary (· * ·)
  | .divI64 => .divide fun a b => if b.int64 = 0 then none else some (.ofInt64 (a.int64 / b.int64))
  | .negI64 => .unary (- ·)
  | .divU64 => .divide fun a b => if b = 0 then none else some (a / b)
  | .addF32 => onFloat32 (· + ·)
  | .subF32 => onFloat32 (· - ·)
  | .mulF32 => onFloat32 (· * ·)
  | .divF32 => onFloat32 (· / ·)
  | .negF32 => .unary fun a => .ofFloat32 (-a.float32)
  | .addF64 => onFloat64 (· + ·)
  | .subF64 => onFloat64 (· - ·)
  | .mulF64 => onFloat64 (· * ·)
  | .divF64 => onFloat64 (· / ·)
  | .negF64 => .unary fun a => .ofFloat64 (-a.float64)
  | .cmpEqI32 => testInt32 (· == ·)
  | .cmpNeI32 => testInt32 (· != ·)
  | .cmpLtI32 => testInt32 (· < ·)
  | .cmpLeI32 => testInt32 (· ≤ ·)
  | .cmpGtI32 => testInt32 (· > ·)
  | .cmpGeI32 => testInt32 (· ≥ ·)
  | .cmpEqI64 => testWord (· == ·)
  | .cmpNeI64 => testWord (· != ·)
  | .cmpLtI64 => testInt64 (· < ·)
  | .cmpLeI64 => testInt64 (· ≤ ·)
  | .cmpGtI64 => testInt64 (· > ·)
  | .cmpGeI64 => testInt64 (· ≥ ·)
  | .cmpLtU64 => testWord (· < ·)
  | .cmpLeU64 => testWord (· ≤ ·)
  | .cmpGtU64 => testWord (· > ·)
  | .cmpGeU64 => testWord (· ≥ ·)
  | .cmpEqF32 => testFloat32 (· == ·)
  | .cmpNeF32 => testFloat32 (· != ·)
  | .cmpLtF32 => testFloat32 (· < ·)
  | .cmpLeF32 => testFloat32 (· ≤ ·)
  | .cmpGtF32 => testFloat32 (· > ·)
  | .cmpGeF32 => testFloat32 (· ≥ ·)
  | .cmpEqF64 => testFloat64 (· == ·)
  | .cmpNeF64 => testFloat64 (· != ·)
  | .cmpLtF64 => testFloat64 (· < ·)
  | .cmpLeF64 => testFloat64 (· ≤ ·)
  | .cmpGtF64 => testFloat64 (· > ·)
  | .cmpGeF64 => testFloat64 (· ≥ ·)
  | .convertI32ToF32 => .unary fun a => .ofFloat32 a.int32.toFloat32
  | .convertI32ToF64 => .unary fun a => .ofFloat64 a.int32.toFloat
  | .convertI64ToF32 => .unary fun a => .ofFloat32 a.int64.toFloat32
  | .convertI64ToF64 => .unary fun a => .ofFloat64 a.int64.toFloat
  | .convertU64ToF32 => .unary fun a => .ofFloat32 a.toFloat32
  | .convertU64ToF64 => .unary fun a => .ofFloat64 a.toFloat
  | .convertF32ToI32 => .unary fun a => .ofInt32 a.float32.toInt32
  | .convertF32ToI64 => .unary fun a => .ofInt64 a.float32.toInt64
  | .convertF32ToU64 => .unary fun a => a.float32.toUInt64
  | .convertF64ToI32 => .unary fun a => .ofInt32 a.float64.toInt32
  | .convertF64ToI64 => .unary fun a => .ofInt64 a.float64.toInt64
  | .convertF64ToU64 => .unary fun a => a.float64.toUInt64
  | .convertF32ToF64 => .unary fun a => .ofFloat64 a.float32.toFloat
  | .convertF64ToF32 => .unary fun a => .ofFloat32 a.float64.toFloat32
  | .jump => .jump
  | .jumpIfZero => .jumpIfZero
  | .returnVoid => .returnVoid
  | .returnI32 | .returnI64 | .returnF32 | .returnF64 => .returnValue
  | .pushArgc => .argumentCount
  | .printString => .printString
  | .printI32 => .print fun a => toString a.int32.toInt
  | .printI64 => .print fun a => toString a.int64.toInt
  | .printU64 => .print fun a => toString a.toNat
  | .printArgv | .printArgvUnsafe => .printArgument
  | .loadStringByte => .stringByte

end FlatCode
