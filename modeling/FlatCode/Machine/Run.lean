import FlatCode.Code.Basic
import FlatCode.Machine.Operation

/-! Running a module: a program counter, a stack of words, numbered slots and captured output, under a limit on the
    number of steps. -/

namespace FlatCode.Machine

inductive Fault where
  | entryIndex
  | tooManySlots (count : Nat)
  | stepLimit
  | underflow (pc : Nat)
  | divisionByZero
  | jumpTarget (target : UInt64)
  | address (word : Word)
  | stringIndex (index : UInt64)
  | argumentIndex
  | stringByte (string : UInt64) (index : Word)
  | missingReturn
deriving DecidableEq, Repr

def Fault.message : Fault → String
  | .entryIndex => "invalid IR entry index"
  | .tooManySlots count => "too many locals in IR: " ++ toString count
  | .stepLimit => "step limit exceeded in IR"
  | .underflow pc => "stack underflow in IR at " ++ toString pc
  | .divisionByZero => "division by zero in IR"
  | .jumpTarget target => "invalid jump target in IR: " ++ toString target.toNat
  | .address word => "invalid indirect address in IR: " ++ toString word.toNat
  | .stringIndex index => "invalid string index in IR: " ++ toString index.toNat
  | .argumentIndex => "invalid argv index in IR"
  | .stringByte string index =>
    "invalid string byte in IR: " ++ toString string.toNat ++ "[" ++ toString index.toNat ++ "]"
  | .missingReturn => "missing return in IR"

structure Output where
  stdout : String := ""
  stderr : String := ""
deriving DecidableEq, Repr

def Output.write (o : Output) (mode : PrintMode) (text : String) : Output :=
  let text := if mode.newline then text ++ "\n" else text
  if mode.stderr then { o with stderr := o.stderr ++ text } else { o with stdout := o.stdout ++ text }

/-- The result of a run: the returned word, if any, and what was printed. -/
structure Result where
  value : Option Word
  output : Output
deriving DecidableEq, Repr

structure Env where
  code : Array Instruction
  strings : Array String
  args : Array String

structure State where
  pc : Nat := 0
  stack : List Word := []
  slots : Array Word
  output : Output := {}
deriving DecidableEq, Repr

inductive Outcome where
  | continue (s : State)
  | finished (r : Result)
  | fault (f : Fault)
deriving DecidableEq, Repr

namespace State

def push (s : State) (w : Word) : State := { s with stack := w :: s.stack }

@[inline] def pop (s : State) (k : Word → State → Outcome) : Outcome :=
  match s.stack with
  | [] => .fault (.underflow s.pc)
  | w :: rest => k w { s with stack := rest }

/-- Continues at the target of a jump, which may be the end of the code. -/
@[inline] def jumpTo (s : State) (size : Nat) (target : UInt64) (k : State → Outcome) : Outcome :=
  if target.toNat ≤ size then k { s with pc := target.toNat } else .fault (.jumpTarget target)

@[inline] def atAddress (s : State) (address : Word) (k : Nat → Outcome) : Outcome :=
  if address % slotStride = 0 ∧ (address / slotStride).toNat < s.slots.size then k (address / slotStride).toNat
  else .fault (.address address)

def write (s : State) (imm : UInt64) (text : String) : State :=
  { s with output := s.output.write (PrintMode.ofImm imm) text }

end State

/-- Carries out an operation; the program counter is already past its instruction. -/
def perform (env : Env) (imm : UInt64) (s : State) : Operation → Outcome
  | .push f => .continue (s.push (f imm))
  | .unary f => s.pop fun a s => .continue (s.push (f a))
  | .binary f => s.pop fun b s => s.pop fun a s => .continue (s.push (f a b))
  | .divide f =>
    s.pop fun b s => s.pop fun a s =>
      match f a b with
      | some w => .continue (s.push w)
      | none => .fault .divisionByZero
  | .pop => s.pop fun _ s => .continue s
  | .dup => s.pop fun a s => .continue ((s.push a).push a)
  | .load => .continue (s.push (s.slots.getD imm.toNat 0))
  | .store => s.pop fun a s => .continue { s with slots := s.slots.setIfInBounds imm.toNat a }
  | .loadIndirect => s.pop fun a s => s.atAddress a fun slot => .continue (s.push (s.slots.getD slot 0))
  | .storeIndirect =>
    s.pop fun w s => s.pop fun a s =>
      s.atAddress a fun slot => .continue { s with slots := s.slots.setIfInBounds slot w, stack := w :: s.stack }
  | .jump => s.jumpTo env.code.size imm .continue
  | .jumpIfZero =>
    s.pop fun a s => s.jumpTo env.code.size imm fun t => .continue (if a = 0 then t else s)
  | .returnVoid => .finished { value := none, output := s.output }
  | .returnValue => s.pop fun a s => .finished { value := some a, output := s.output }
  | .argumentCount => .continue (s.push (UInt64.ofNat env.args.size))
  | .printString =>
    match env.strings[(PrintMode.stringIndex imm).toNat]? with
    | some text => .continue (s.write imm text)
    | none => .fault (.stringIndex (PrintMode.stringIndex imm))
  | .print f => s.pop fun a s => .continue (s.write imm (f a))
  | .printArgument =>
    s.pop fun a s =>
      match env.args[a.toNat]? with
      | some text => .continue (s.write imm text)
      | none => .fault .argumentIndex
  | .stringByte =>
    s.pop fun a s =>
      match env.strings[imm.toNat]?.bind fun text => text.toUTF8.data[a.toNat]? with
      | some b => .continue (s.push b.toUInt64)
      | none => .fault (.stringByte imm a)

def step (env : Env) (i : Instruction) (s : State) : Outcome :=
  perform env i.imm { s with pc := s.pc + 1 } i.op.operation

/-- Runs at most `limit` steps from a state. -/
def runFrom (env : Env) (limit : Nat) (s : State) : Except Fault Result :=
  match env.code[s.pc]? with
  | none => .error .missingReturn
  | some i =>
    match limit with
    | 0 => .error .stepLimit
    | limit + 1 =>
      match step env i s with
      | .continue s => runFrom env limit s
      | .finished r => .ok r
      | .fault f => .error f

/-- The number of slots that the instructions name; it does not exceed a word. -/
def slotCount (code : Array Instruction) : Nat :=
  code.foldl (fun n i => if i.op.namesSlot then max n (min (i.imm.toNat + 1) (2 ^ 64 - 1)) else n) 0

def maxSlots : Nat := 2 ^ 20

def run (m : CodeModule) (args : Array String) (limit : Nat) : Except Fault Result :=
  match m.entry? with
  | none => .error .entryIndex
  | some f =>
    let slots := slotCount f.code
    if maxSlots < slots then .error (.tooManySlots slots)
    else runFrom { code := f.code, strings := m.strings, args } limit { slots := Array.replicate slots 0 }

end FlatCode.Machine
