import FlatCode.Operator

/-! The operations of the stack machine. Their order here is their numbering in the binary form, which starts
    at one. -/

namespace FlatCode

inductive Opcode where
  | pushI32
  | pushI64
  | pushF32
  | pushF64
  | pop
  | dup
  | loadLocal
  | storeLocal
  | addressOfLocal
  | loadIndirect
  | storeIndirect
  | addI32
  | subI32
  | mulI32
  | divI32
  | negI32
  | addI64
  | subI64
  | mulI64
  | divI64
  | negI64
  | divU64
  | addF32
  | subF32
  | mulF32
  | divF32
  | negF32
  | addF64
  | subF64
  | mulF64
  | divF64
  | negF64
  | cmpEqI32
  | cmpNeI32
  | cmpLtI32
  | cmpLeI32
  | cmpGtI32
  | cmpGeI32
  | cmpEqI64
  | cmpNeI64
  | cmpLtI64
  | cmpLeI64
  | cmpGtI64
  | cmpGeI64
  | cmpLtU64
  | cmpLeU64
  | cmpGtU64
  | cmpGeU64
  | cmpEqF32
  | cmpNeF32
  | cmpLtF32
  | cmpLeF32
  | cmpGtF32
  | cmpGeF32
  | cmpEqF64
  | cmpNeF64
  | cmpLtF64
  | cmpLeF64
  | cmpGtF64
  | cmpGeF64
  | convertI32ToF32
  | convertI32ToF64
  | convertI64ToF32
  | convertI64ToF64
  | convertU64ToF32
  | convertU64ToF64
  | convertF32ToI32
  | convertF32ToI64
  | convertF32ToU64
  | convertF64ToI32
  | convertF64ToI64
  | convertF64ToU64
  | convertF32ToF64
  | convertF64ToF32
  | jump
  | jumpIfZero
  | returnVoid
  | returnI32
  | returnI64
  | returnF32
  | returnF64
  | pushArgc
  | printString
  | printI32
  | printI64
  | printU64
  | printArgv
  | printArgvUnsafe
  | loadStringByte
deriving DecidableEq, Repr, Inhabited

namespace Opcode

def all : Array Opcode :=
  #[
    .pushI32, .pushI64, .pushF32, .pushF64, .pop, .dup, .loadLocal, .storeLocal, .addressOfLocal, .loadIndirect,
    .storeIndirect, .addI32, .subI32, .mulI32, .divI32, .negI32, .addI64, .subI64, .mulI64, .divI64, .negI64,
    .divU64, .addF32, .subF32, .mulF32, .divF32, .negF32, .addF64, .subF64, .mulF64, .divF64, .negF64,
    .cmpEqI32, .cmpNeI32, .cmpLtI32, .cmpLeI32, .cmpGtI32, .cmpGeI32, .cmpEqI64, .cmpNeI64, .cmpLtI64,
    .cmpLeI64, .cmpGtI64, .cmpGeI64, .cmpLtU64, .cmpLeU64, .cmpGtU64, .cmpGeU64, .cmpEqF32, .cmpNeF32,
    .cmpLtF32, .cmpLeF32, .cmpGtF32, .cmpGeF32, .cmpEqF64, .cmpNeF64, .cmpLtF64, .cmpLeF64, .cmpGtF64,
    .cmpGeF64, .convertI32ToF32, .convertI32ToF64, .convertI64ToF32, .convertI64ToF64, .convertU64ToF32,
    .convertU64ToF64, .convertF32ToI32, .convertF32ToI64, .convertF32ToU64, .convertF64ToI32, .convertF64ToI64,
    .convertF64ToU64, .convertF32ToF64, .convertF64ToF32, .jump, .jumpIfZero, .returnVoid, .returnI32,
    .returnI64, .returnF32, .returnF64, .pushArgc, .printString, .printI32, .printI64, .printU64, .printArgv,
    .printArgvUnsafe, .loadStringByte
  ]

def toByte (op : Opcode) : UInt8 := UInt8.ofNat (op.ctorIdx + 1)

def ofByte? (b : UInt8) : Option Opcode := if b = 0 then none else all[b.toNat - 1]?

def name : Opcode → String
  | .pushI32 => "PushI32"
  | .pushI64 => "PushI64"
  | .pushF32 => "PushF32"
  | .pushF64 => "PushF64"
  | .pop => "Pop"
  | .dup => "Dup"
  | .loadLocal => "LoadLocal"
  | .storeLocal => "StoreLocal"
  | .addressOfLocal => "AddressOfLocal"
  | .loadIndirect => "LoadIndirect"
  | .storeIndirect => "StoreIndirect"
  | .addI32 => "AddI32"
  | .subI32 => "SubI32"
  | .mulI32 => "MulI32"
  | .divI32 => "DivI32"
  | .negI32 => "NegI32"
  | .addI64 => "AddI64"
  | .subI64 => "SubI64"
  | .mulI64 => "MulI64"
  | .divI64 => "DivI64"
  | .negI64 => "NegI64"
  | .divU64 => "DivU64"
  | .addF32 => "AddF32"
  | .subF32 => "SubF32"
  | .mulF32 => "MulF32"
  | .divF32 => "DivF32"
  | .negF32 => "NegF32"
  | .addF64 => "AddF64"
  | .subF64 => "SubF64"
  | .mulF64 => "MulF64"
  | .divF64 => "DivF64"
  | .negF64 => "NegF64"
  | .cmpEqI32 => "CmpEqI32"
  | .cmpNeI32 => "CmpNeI32"
  | .cmpLtI32 => "CmpLtI32"
  | .cmpLeI32 => "CmpLeI32"
  | .cmpGtI32 => "CmpGtI32"
  | .cmpGeI32 => "CmpGeI32"
  | .cmpEqI64 => "CmpEqI64"
  | .cmpNeI64 => "CmpNeI64"
  | .cmpLtI64 => "CmpLtI64"
  | .cmpLeI64 => "CmpLeI64"
  | .cmpGtI64 => "CmpGtI64"
  | .cmpGeI64 => "CmpGeI64"
  | .cmpLtU64 => "CmpLtU64"
  | .cmpLeU64 => "CmpLeU64"
  | .cmpGtU64 => "CmpGtU64"
  | .cmpGeU64 => "CmpGeU64"
  | .cmpEqF32 => "CmpEqF32"
  | .cmpNeF32 => "CmpNeF32"
  | .cmpLtF32 => "CmpLtF32"
  | .cmpLeF32 => "CmpLeF32"
  | .cmpGtF32 => "CmpGtF32"
  | .cmpGeF32 => "CmpGeF32"
  | .cmpEqF64 => "CmpEqF64"
  | .cmpNeF64 => "CmpNeF64"
  | .cmpLtF64 => "CmpLtF64"
  | .cmpLeF64 => "CmpLeF64"
  | .cmpGtF64 => "CmpGtF64"
  | .cmpGeF64 => "CmpGeF64"
  | .convertI32ToF32 => "ConvertI32ToF32"
  | .convertI32ToF64 => "ConvertI32ToF64"
  | .convertI64ToF32 => "ConvertI64ToF32"
  | .convertI64ToF64 => "ConvertI64ToF64"
  | .convertU64ToF32 => "ConvertU64ToF32"
  | .convertU64ToF64 => "ConvertU64ToF64"
  | .convertF32ToI32 => "ConvertF32ToI32"
  | .convertF32ToI64 => "ConvertF32ToI64"
  | .convertF32ToU64 => "ConvertF32ToU64"
  | .convertF64ToI32 => "ConvertF64ToI32"
  | .convertF64ToI64 => "ConvertF64ToI64"
  | .convertF64ToU64 => "ConvertF64ToU64"
  | .convertF32ToF64 => "ConvertF32ToF64"
  | .convertF64ToF32 => "ConvertF64ToF32"
  | .jump => "Jump"
  | .jumpIfZero => "JumpIfZero"
  | .returnVoid => "ReturnVoid"
  | .returnI32 => "ReturnI32"
  | .returnI64 => "ReturnI64"
  | .returnF32 => "ReturnF32"
  | .returnF64 => "ReturnF64"
  | .pushArgc => "PushArgc"
  | .printString => "PrintString"
  | .printI32 => "PrintI32"
  | .printI64 => "PrintI64"
  | .printU64 => "PrintU64"
  | .printArgv => "PrintArgv"
  | .printArgvUnsafe => "PrintArgvUnsafe"
  | .loadStringByte => "LoadStringByte"

def ofName? (s : String) : Option Opcode := all.find? (·.name == s)

/-! ### By operation and width -/

/-- The opcode of an arithmetic operator; unsigned numbers share all but division with the signed ones. -/
def arithmetic : ArithmeticOp → Width → Opcode
  | .plus, .i32 => .addI32
  | .minus, .i32 => .subI32
  | .multiply, .i32 => .mulI32
  | .divide, .i32 => .divI32
  | .plus, .i64 | .plus, .u64 => .addI64
  | .minus, .i64 | .minus, .u64 => .subI64
  | .multiply, .i64 | .multiply, .u64 => .mulI64
  | .divide, .i64 => .divI64
  | .divide, .u64 => .divU64
  | .plus, .f32 => .addF32
  | .minus, .f32 => .subF32
  | .multiply, .f32 => .mulF32
  | .divide, .f32 => .divF32
  | .plus, .f64 => .addF64
  | .minus, .f64 => .subF64
  | .multiply, .f64 => .mulF64
  | .divide, .f64 => .divF64

/-- The opcode that negates; unsigned numbers have none. -/
def negate? : Width → Option Opcode
  | .i32 => some .negI32
  | .i64 => some .negI64
  | .u64 => none
  | .f32 => some .negF32
  | .f64 => some .negF64

/-- The opcode of a comparison; unsigned numbers share equality with the signed ones. -/
def compare : ComparisonOp → Width → Opcode
  | .equal, .i32 => .cmpEqI32
  | .notEqual, .i32 => .cmpNeI32
  | .less, .i32 => .cmpLtI32
  | .lessEqual, .i32 => .cmpLeI32
  | .greater, .i32 => .cmpGtI32
  | .greaterEqual, .i32 => .cmpGeI32
  | .equal, .i64 | .equal, .u64 => .cmpEqI64
  | .notEqual, .i64 | .notEqual, .u64 => .cmpNeI64
  | .less, .i64 => .cmpLtI64
  | .lessEqual, .i64 => .cmpLeI64
  | .greater, .i64 => .cmpGtI64
  | .greaterEqual, .i64 => .cmpGeI64
  | .less, .u64 => .cmpLtU64
  | .lessEqual, .u64 => .cmpLeU64
  | .greater, .u64 => .cmpGtU64
  | .greaterEqual, .u64 => .cmpGeU64
  | .equal, .f32 => .cmpEqF32
  | .notEqual, .f32 => .cmpNeF32
  | .less, .f32 => .cmpLtF32
  | .lessEqual, .f32 => .cmpLeF32
  | .greater, .f32 => .cmpGtF32
  | .greaterEqual, .f32 => .cmpGeF32
  | .equal, .f64 => .cmpEqF64
  | .notEqual, .f64 => .cmpNeF64
  | .less, .f64 => .cmpLtF64
  | .lessEqual, .f64 => .cmpLeF64
  | .greater, .f64 => .cmpGtF64
  | .greaterEqual, .f64 => .cmpGeF64

/-- The opcode that converts between two widths; `none` where the word on the stack is kept as it is. -/
def convert? : Width → Width → Option Opcode
  | .i32, .f32 => some .convertI32ToF32
  | .i32, .f64 => some .convertI32ToF64
  | .i64, .f32 => some .convertI64ToF32
  | .i64, .f64 => some .convertI64ToF64
  | .u64, .f32 => some .convertU64ToF32
  | .u64, .f64 => some .convertU64ToF64
  | .f32, .i32 => some .convertF32ToI32
  | .f32, .i64 => some .convertF32ToI64
  | .f32, .u64 => some .convertF32ToU64
  | .f64, .i32 => some .convertF64ToI32
  | .f64, .i64 => some .convertF64ToI64
  | .f64, .u64 => some .convertF64ToU64
  | .f32, .f64 => some .convertF32ToF64
  | .f64, .f32 => some .convertF64ToF32
  | _, _ => none

def ret : Width → Opcode
  | .i32 => .returnI32
  | .i64 | .u64 => .returnI64
  | .f32 => .returnF32
  | .f64 => .returnF64

def push : Width → Opcode
  | .i32 => .pushI32
  | .i64 | .u64 => .pushI64
  | .f32 => .pushF32
  | .f64 => .pushF64

def isJump : Opcode → Bool
  | .jump | .jumpIfZero => true
  | _ => false

def isReturn : Opcode → Bool
  | .returnVoid | .returnI32 | .returnI64 | .returnF32 | .returnF64 => true
  | _ => false

def namesSlot : Opcode → Bool
  | .loadLocal | .storeLocal | .addressOfLocal => true
  | _ => false

end Opcode
end FlatCode
