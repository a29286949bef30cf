import FlatCode.Code.Basic
import FlatCode.Decimal.Style
import FlatCode.Text.Quoted

/-! Listings of modules for people to read. -/

namespace FlatCode.Listing

/-- Shortest digits, always positional and without a point for whole numbers. -/
def floatStyle : Decimal.Style where
  positional _ := true
  pointZero := false
  exponentMark := "e"
  tie := .up

/-- A number with zeros before it, up to four digits. -/
def pad4 (n : Nat) : String :=
  let digits := Nat.toDigits 10 n
  String.ofList (List.replicate (4 - digits.length) '0' ++ digits)

def modeMarks (p : PrintMode) : String :=
  (if p.newline then " +nl" else "") ++ (if p.stderr then " +err" else "")

def stringAt (strings : Array String) (index : UInt64) : String :=
  match strings[index.toNat]? with
  | some s => Text.quote s
  | none => "<bad index " ++ toString index.toNat ++ ">"

def instruction (strings : Array String) (i : Instruction) : String :=
  let imm := i.imm
  let index := toString imm.toNat
  let marks := modeMarks (PrintMode.ofImm imm)
  match i.op with
  | .pushI32 => "push.i32 " ++ toString imm.toUInt32.toInt32.toInt
  | .pushI64 => "push.i64 " ++ toString imm.toInt64.toInt
  | .pushF32 => "push.f32 " ++ floatStyle.text .single imm.toUInt32.toNat
  | .pushF64 => "push.f64 " ++ floatStyle.text .double imm.toNat
  | .loadLocal => "load l" ++ index
  | .storeLocal => "store l" ++ index
  | .addressOfLocal => "addr l" ++ index
  | .jump => "jmp " ++ pad4 imm.toNat
  | .jumpIfZero => "jz " ++ pad4 imm.toNat
  | .printString => "print.str " ++ stringAt strings (PrintMode.stringIndex imm) ++ marks
  | .loadStringByte => "str.byte " ++ stringAt strings imm
  | .printI32 | .printI64 | .printU64 | .printArgv | .printArgvUnsafe => i.op.name ++ marks
  | op => op.name

def line (c : Char) : String := String.ofList (List.replicate 59 c) ++ "\n"

def function (strings : Array String) (f : CodeFunction) : String :=
  let lines := f.code.toList.mapIdx fun i instr => pad4 i ++ ": " ++ instruction strings instr ++ "\n"
  line '─' ++ "fn " ++ f.name ++ " (" ++ toString f.code.size ++ " instructions)\n" ++ String.join lines

def codeModule (m : CodeModule) : String :=
  line '═' ++ "                    IR DUMP\n" ++ line '═' ++ "Entry: " ++ toString m.entry.toNat ++ "\nStrings: "
    ++ Text.quoteList m.strings.toList ++ "\n" ++ String.join (m.functions.map (function m.strings)) ++ line '═'

end FlatCode.Listing
