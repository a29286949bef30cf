import FlatCode.Code.Opcode

/-! Modules of code: functions of flat instructions over one table of strings. -/

namespace FlatCode

/-- An opcode with a 64-bit immediate, zero where it has no meaning. -/
structure Instruction where
  op : Opcode
  imm : UInt64 := 0
deriving DecidableEq, Repr, Inhabited

structure CodeFunction where
  name : String
  code : Array Instruction
deriving DecidableEq, Repr

/-- Functions, the strings that their instructions refer to, and the number of the function where a run starts. -/
structure CodeModule where
  functions : List CodeFunction
  strings : Array String
  entry : UInt32
deriving DecidableEq, Repr

namespace CodeModule

def entry? (m : CodeModule) : Option CodeFunction := m.functions[m.entry.toNat]?

def instructionCount (m : CodeModule) : Nat := (m.functions.map (·.code.size)).sum

end CodeModule

/-- The index of a text in a table of strings, and the table, with the text at its end if it was not there. -/
def intern (strings : Array String) (text : String) : Nat × Array String :=
  match strings.idxOf? text with
  | some i => (i, strings)
  | none => (strings.size, strings.push text)

structure PrintMode where
  newline : Bool
  stderr : Bool
deriving DecidableEq, Repr

namespace PrintMode

/-- The flag bits of a mode: one for a line break, two for standard error. -/
def flags (p : PrintMode) : UInt64 := (if p.newline then 1 else 0) ||| (if p.stderr then 2 else 0)

/-- The immediate that prints the string with the given index. -/
def ofString (p : PrintMode) (index : Nat) : UInt64 := (UInt64.ofNat index <<< 2) ||| p.flags

def ofImm (imm : UInt64) : PrintMode := ⟨imm &&& 1 != 0, imm &&& 2 != 0⟩

def stringIndex (imm : UInt64) : UInt64 := imm >>> 2

end PrintMode
end FlatCode
