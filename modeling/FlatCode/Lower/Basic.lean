import FlatCode.Code.Basic
import FlatCode.Inference

/-! The state of lowering and the pieces that code is built from. Code only grows at its end; the target of a
    forward jump is filled in when its position is reached. -/

namespace FlatCode.Lower

/-- Where the text of a string binding comes from: a string of the table, or the argument of the run whose index is
    in the slot, which may have been checked already. -/
inductive TextSource where
  | none
  | table (index : Nat)
  | argument (checked : Bool)
deriving DecidableEq, Repr

structure Local where
  slot : Nat := 0
  mutable : Bool
  type : BindingType
  text : TextSource := .none

abbrev Locals := List (String × Local)

/-- The jump of a `return` to the end of its expansion, and the number of operands that wait on the stack where it
    stands. -/
structure Exit where
  position : Nat
  waiting : Nat
deriving DecidableEq, Repr

/-- Where an expansion stands in the code: it starts with the code of its arguments and stops where its exits lead,
    the latest exit first. -/
structure Expansion where
  callee : String
  start : Nat
  stop : Nat
  exits : List Exit
deriving DecidableEq, Repr

/-- The code so far, the number of slots in use, the table of strings, the exits of the expansion that is being
    lowered and the expansions that are complete, both latest first, and the results known so far. -/
structure State where
  code : Array Instruction := #[]
  nextSlot : Nat := 0
  strings : Array String := #[]
  exits : List Exit := []
  expansions : List Expansion := []
  cache : ReturnCache := []

abbrev Lowering (α : Type) := StateT State (Except Error) α

/-- An inference whose fault is the fault of the lowering; one that gives up is a fault, too. -/
def infer {α : Type} (m : Infer α) : Lowering α := fun s =>
  match m.run s.cache with
  | some (.ok a, cache) => .ok (a, { s with cache })
  | some (.error e, _) => .error e
  | none => .error .tooDeep

def emitWith (op : Opcode) (imm : UInt64) : Lowering Unit :=
  modify fun s => { s with code := s.code.push { op, imm } }

def emit (op : Opcode) : Lowering Unit := emitWith op 0

def here : Lowering Nat := return (← get).code.size

def newSlot : Lowering Nat := modifyGet fun s => (s.nextSlot, { s with nextSlot := s.nextSlot + 1 })

/-- The first of `n` slots in a row that nothing uses. -/
def newSlots (n : Nat) : Lowering Nat := modifyGet fun s => (s.nextSlot, { s with nextSlot := s.nextSlot + n })

def load (slot : Nat) : Lowering Unit := emitWith .loadLocal (UInt64.ofNat slot)

def store (slot : Nat) : Lowering Unit := emitWith .storeLocal (UInt64.ofNat slot)

def spill : Lowering Nat := do
  let slot ← newSlot
  store slot
  return slot

def internText (text : String) : Lowering Nat :=
  modifyGet fun s => let (i, strings) := intern s.strings text; (i, { s with strings })

def intWord (w : Width) (n : Int64) : UInt64 :=
  match w with
  | .i32 | .i64 | .u64 => n.toUInt64
  | .f32 => n.toFloat32.toBits.toUInt64
  | .f64 => n.toFloat.toBits

def pushInt (w : Width) (n : Int64) : Lowering Unit := emitWith (Opcode.push w) (intWord w n)

/-- Pushes a number at a width of floating point; at another one, its whole part. -/
def pushFloat (w : Width) (x : Float) : Lowering Unit :=
  match w with
  | .f32 => emitWith .pushF32 x.toFloat32.toBits.toUInt64
  | .f64 => emitWith .pushF64 x.toBits
  | w => pushInt w x.toInt64

def arithmetic (op : ArithmeticOp) (w : Width) : Lowering Unit := emit (Opcode.arithmetic op w)

def compare (op : ComparisonOp) (w : Width) : Lowering Unit := emit (Opcode.compare op w)

/-- Converts the top of the stack from one kind to another where their words differ. -/
def coerce (source target : Kind) : Lowering Unit :=
  match source.width?, target.width? with
  | some s, some t =>
    match Opcode.convert? s t with
    | some op => emit op
    | none => return
  | _, _ => return

def widthOf (k : Kind) : Except Error Width :=
  match k.width? with
  | some w => .ok w
  | none => .error (.lowering (.unsupportedKind k))

/-- Emits a jump whose target is filled in later. -/
def openJump (op : Opcode) : Lowering Nat := do
  let position ← here
  emit op
  return position

/-- Lets the jump at the given position lead to the next instruction. -/
def closeJump (position : Nat) : Lowering Unit := modify fun s =>
  let target := UInt64.ofNat s.code.size
  { s with code := s.code.modify position fun i => { i with imm := target } }

/-- Runs `yes` if the popped word is not zero and `no` if it is. -/
def branch {α β : Type} (yes : Lowering α) (no : Lowering β) : Lowering (α × β) := do
  let toNo ← openJump .jumpIfZero
  let a ← yes
  let toEnd ← openJump .jump
  closeJump toNo
  let b ← no
  closeJump toEnd
  return (a, b)

def whenNonzero {α : Type} (body : Lowering α) : Lowering α := do
  let toEnd ← openJump .jumpIfZero
  let a ← body
  closeJump toEnd
  return a

/-- Runs `body` as long as `cond` leaves a word that is not zero. -/
def loop {α β : Type} (cond : Lowering α) (body : α → Lowering β) : Lowering β := do
  let start ← here
  let a ← cond
  let toEnd ← openJump .jumpIfZero
  let b ← body a
  emitWith .jump (UInt64.ofNat start)
  closeJump toEnd
  return b

/-- The word that a failing run returns. -/
def failureCode : UInt64 := 3

/-- Reports a message on standard error and ends the run. -/
def fail (message : String) : Lowering Unit := do
  let index ← internText message
  emitWith .printString (PrintMode.ofString { newline := true, stderr := true } index)
  emitWith .pushI32 failureCode
  emit .returnI32

/-- Fails with a message if the number in a slot is negative; an unsigned one never is. -/
def failIfNegative (w : Width) (slot : Nat) (message : String) : Lowering Unit :=
  if w = .u64 then return
  else do
    load slot
    pushInt w 0
    compare .less w
    whenNonzero (fail message)

end FlatCode.Lower
