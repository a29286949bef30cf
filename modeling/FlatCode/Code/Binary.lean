import FlatCode.Code.Basic

/-! The binary form of a module. Numbers are little-endian and every list and text is preceded by its length:

      magic word, version, number of functions, entry, number of strings, the strings,
      and for each function its name, its number of instructions and the instructions. -/

namespace FlatCode.Binary

inductive Section where
  | header
  | strings
  | function
  | instructions
deriving DecidableEq, Repr

def Section.name : Section → String
  | .header => "header"
  | .strings => "string table"
  | .function => "function"
  | .instructions => "instructions"

/-- Why bytes are not the form of a module, or a module has no form. -/
inductive Fault where
  | entryIndex
  | truncated (part : Section)
  | magic
  | version
  | opcode (byte : UInt8)
  | utf8
  | trailing
deriving DecidableEq, Repr

def Fault.message : Fault → String
  | .entryIndex => "invalid IR entry index"
  | .truncated part => "truncated IR " ++ part.name
  | .magic => "invalid IR header"
  | .version => "unsupported IR version"
  | .opcode byte => "invalid IR opcode: " ++ toString byte.toNat
  | .utf8 => "invalid UTF-8 in IR string"
  | .trailing => "trailing bytes after IR module"

/-- The magic word, which makes the form start with the bytes of `PSIR`. -/
def magic : UInt32 := 0x52495350

def version : UInt32 := 1

/-- The `n` low bytes of a number, lowest first. -/
def littleEndian : Nat → Nat → List UInt8
  | 0, _ => []
  | n + 1, value => UInt8.ofNat value :: littleEndian n (value / 256)

def putWord32 (n : UInt32) : List UInt8 := littleEndian 4 n.toNat

def putWord64 (n : UInt64) : List UInt8 := littleEndian 8 n.toNat

def putCount (n : Nat) : List UInt8 := putWord32 (UInt32.ofNat n)

def utf8 (s : String) : List UInt8 := s.toUTF8.data.toList

def putText (s : String) : List UInt8 := putCount (utf8 s).length ++ utf8 s

def putInstruction (i : Instruction) : List UInt8 := i.op.toByte :: putWord64 i.imm

def putFunction (f : CodeFunction) : List UInt8 :=
  putText f.name ++ putCount f.code.size ++ f.code.toList.flatMap putInstruction

def encode (m : CodeModule) : Except Fault (List UInt8) :=
  if m.entry.toNat < m.functions.length then
    .ok (putWord32 magic ++ putWord32 version ++ putCount m.functions.length ++ putWord32 m.entry
      ++ putCount m.strings.size ++ m.strings.toList.flatMap putText ++ m.functions.flatMap putFunction)
  else .error .entryIndex

/-- A reader takes what it needs from the front of the bytes. -/
abbrev Reader (α : Type) := StateT (List UInt8) (Except Fault) α

def take (part : Section) (n : Nat) : Reader (List UInt8) := fun bytes =>
  if n ≤ bytes.length then .ok (bytes.take n, bytes.drop n) else .error (.truncated part)

/-- The number that bytes write, lowest first. -/
def ofLittleEndian : List UInt8 → Nat
  | [] => 0
  | b :: rest => b.toNat + 256 * ofLittleEndian rest

def word32 (part : Section) : Reader UInt32 := do
  return UInt32.ofNat (ofLittleEndian (← take part 4))

def word64 (part : Section) : Reader UInt64 := do
  return UInt64.ofNat (ofLittleEndian (← take part 8))

def byte (part : Section) : Reader UInt8 := fun bytes =>
  match bytes with
  | [] => .error (.truncated part)
  | b :: rest => .ok (b, rest)

def text (part : Section) : Reader String := do
  let length ← word32 part
  let bytes ← take part length.toNat
  match String.fromUTF8? ⟨bytes.toArray⟩ with
  | some s => return s
  | none => throw .utf8

def many {α : Type} (one : Reader α) : Nat → Reader (List α)
  | 0 => return []
  | n + 1 => do
    let a ← one
    let rest ← many one n
    return a :: rest

def instruction : Reader Instruction := do
  let b ← byte .instructions
  match Opcode.ofByte? b with
  | none => throw (.opcode b)
  | some op => return { op, imm := ← word64 .instructions }

def function : Reader CodeFunction := do
  let name ← text .function
  let count ← word32 .function
  return { name, code := (← many instruction count.toNat).toArray }

def codeModule : Reader CodeModule := do
  if (← word32 .header) != magic then throw .magic
  if (← word32 .header) != version then throw .version
  let functionCount ← word32 .header
  let entry ← word32 .header
  let stringCount ← word32 .header
  let strings ← many (text .strings) stringCount.toNat
  let functions ← many function functionCount.toNat
  return { functions, strings := strings.toArray, entry }

def decode (bytes : List UInt8) : Except Fault CodeModule :=
  match codeModule bytes with
  | .error e => .error e
  | .ok (m, rest) =>
    if !rest.isEmpty then .error .trailing
    else if m.entry.toNat < m.functions.length then .ok m
    else .error .entryIndex

end FlatCode.Binary
