import FlatCode.Code.Basic

/-! Faults of a module that can be seen without running it. -/

namespace FlatCode

/-- A bad entry, or an instruction whose immediate points outside its function or the table of strings. -/
inductive Issue where
  | entry (index : UInt32)
  | jump (function : String) (at_ : Nat) (target : UInt64)
  | string (function : String) (at_ : Nat) (index : UInt64)
deriving DecidableEq, Repr

namespace Issue

def message : Issue → String
  | .entry index => "entry index " ++ toString index.toNat ++ " out of range"
  | .jump f i target => f ++ "@" ++ toString i ++ ": jump target " ++ toString target.toNat ++ " out of range"
  | .string f i index => f ++ "@" ++ toString i ++ ": string index " ++ toString index.toNat ++ " out of range"

def ofInstruction (m : CodeModule) (f : CodeFunction) (i : Nat) (instr : Instruction) : List Issue :=
  if instr.op.isJump && f.code.size < instr.imm.toNat then [.jump f.name i instr.imm]
  else if instr.op = .printString && m.strings.size ≤ (PrintMode.stringIndex instr.imm).toNat then
    [.string f.name i (PrintMode.stringIndex instr.imm)]
  else if instr.op = .loadStringByte && m.strings.size ≤ instr.imm.toNat then [.string f.name i instr.imm]
  else []

def ofFunction (m : CodeModule) (f : CodeFunction) : List Issue :=
  (f.code.toList.mapIdx (ofInstruction m f)).flatten

def ofModule (m : CodeModule) : List Issue :=
  (if m.entry?.isNone then [.entry m.entry] else []) ++ m.functions.flatMap (ofFunction m)

end Issue
end FlatCode
