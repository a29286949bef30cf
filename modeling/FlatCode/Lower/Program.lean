import FlatCode.Lower.Statement

/-! Lowering whole programs: the entry becomes the only function of a module. -/

namespace FlatCode.Lower

def checkExecutions (scope : Scope) (defaults : EffectSet) : List Execution → Except Error Unit
  | [] => .ok ()
  | x :: rest => do
    if (scope.resolve? x.path "/").isNone then throw (.structural (.unknownExecution x.path))
    let _ ← EffectSet.active x.transforms defaults x.path
    checkExecutions scope defaults rest

/-- The scope of the entry: nothing, or the arguments of the run. -/
def entryLocals (scope : Scope) (entry : Definition) : Lowering Locals :=
  match entry.parameters with
  | [] => return []
  | [param] => do
    match param.boundName?, ← BindingType.declared? scope [] param.transforms with
    | some name, some type =>
      if type.shape = .array ∧ type.kind = .string then
        let slot ← newSlot
        return [(name, { slot, mutable := false, type := { shape := .array, kind := .string } })]
      else throw (.structural (.entryParameter entry.path))
    | _, _ => throw (.structural (.entryParameter entry.path))
  | _ => throw (.structural (.entryParameter entry.path))

def reachesEnd (code : Array Instruction) : Bool :=
  !(code.back?.any (·.op.isReturn)) || code.any fun i => i.op.isJump && i.imm.toNat == code.size

/-- Lowers the body of the entry, whose context has its effects; code that may run off its end gets a return. Gives
    what the entry returns. -/
def lowerEntry (E : Emitter) (ctx : Context) (entry : Definition) : Lowering ReturnInfo := do
  let returns ← ctx.returnInfo entry
  let locals ← entryLocals ctx.scope entry
  if !returns.isVoid && !Returns.contains entry.body then throw (.lowering .missingReturn)
  E.block { ctx with target := .run returns } locals entry.body
  if returns.isVoid && reachesEnd (← get).code then emit .returnVoid
  return returns

structure Lowered where
  entry : Definition
  returns : ReturnInfo
  state : State

def Lowered.codeModule (l : Lowered) : CodeModule :=
  { functions := [{ name := l.entry.path, code := l.state.code }], strings := l.state.strings, entry := 0 }

/-- A vector of instructions or of strings is never as long as this: its bytes could not be counted. -/
def capacity : Nat := 2 ^ 59

end FlatCode.Lower

namespace FlatCode

/-- Lowers the definition at `entry` with the given inference and emitter. The effect lists apply to definitions without
    effects of their own; the second one to the entry. -/
def Program.loweredWith (p : Program) (I : Scope → Lower.Inferrer) (E : Lower.Emitter) (entry : String)
    (defaults entryDefaults : List String) : Except Error Lower.Lowered := do
  let scope ← Scope.build p
  let defaults ← EffectSet.parse defaults "default effects"
  let entryDefaults ← EffectSet.parse entryDefaults "entry default effects"
  match scope.get? entry with
  | none => throw (.structural (.missingEntry entry))
  | some d =>
    Lower.checkExecutions scope defaults p.executions
    if !d.templateArgs.isEmpty then throw (.structural (.templatedEntry d.path))
    let effects ← EffectSet.active d.transforms entryDefaults d.path
    let ctx : Lower.Context := {
      scope, inferrer := I scope, defaults, home := entry, effects, expanding := [d.path], target := .run .void }
    let (returns, state) ← (Lower.lowerEntry E ctx d).run {}
    if Lower.capacity ≤ state.code.size || Lower.capacity ≤ state.strings.size then throw (.lowering .capacity)
    return { entry := d, returns, state }

def Program.loweredTo (p : Program) (depth : Nat) (entry : String) (defaults entryDefaults : List String) :
    Except Error Lower.Lowered :=
  p.loweredWith (Lower.Inferrer.atDepth · depth) (Lower.Emitter.atDepth depth) entry defaults entryDefaults

def Program.lowered (p : Program) (entry : String) (defaults entryDefaults : List String) : Except Error Lower.Lowered :=
  p.loweredTo p.depth entry defaults entryDefaults

/-- Lowers a program to its depth, which is enough unless a default calls a definition, and otherwise much deeper. -/
def Program.lower (p : Program) (entry : String) (defaults entryDefaults : List String) :
    Except Error CodeModule := do
  let lowered := match p.lowered entry defaults entryDefaults with
    | .error (.lowering .nestedTooDeep) => p.loweredTo (p.depth <<< (p.size * p.size)) entry defaults entryDefaults
    | result => result
  return (← lowered).codeModule

end FlatCode
