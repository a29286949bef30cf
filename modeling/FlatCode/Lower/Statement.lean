import FlatCode.Lower.Expression

/-! Lowering statements, which leave nothing on the stack. -/

namespace FlatCode.Lower

section
variable (E : Emitter) (ctx : Context) (locals : Locals)

def returnToEnd (returns : ReturnInfo) (slot : Option Nat) (value : Option Expr) : Lowering Unit := do
  match value, slot with
  | some value, some slot =>
    let operand ← E.expr ctx locals value
    if returns.kind != .unknown then coerce operand.kind returns.kind
    store slot
  | _, _ => pure ()
  let position ← openJump .jump
  modify fun s => { s with exits := { position, waiting := ctx.waiting } :: s.exits }

/-- Ends the run. A pointer is returned as a 64-bit integer; an undeclared kind is that of the value. -/
def returnFromRun (returns : ReturnInfo) (value : Option Expr) : Lowering Unit := do
  match value with
  | none => emit .returnVoid
  | some value =>
    if returns.isVoid then throw (.type .voidReturnsValue)
    let operand ← E.expr ctx locals value
    if operand.isPointer then emit .returnI64
    else
      let target := if returns.kind = .unknown then operand.kind else returns.kind
      coerce operand.kind target
      emit (Opcode.ret (← widthOf target))

def lowerReturn (value : Option Expr) : Lowering Unit :=
  match ctx.target with
  | .run returns => returnFromRun E ctx locals returns value
  | .expansion returns slot => returnToEnd E ctx locals returns slot value

def lowerIf (cond yes no : Expr) : Lowering Unit := do
  E.condition ctx locals (.condition .ifBranch) cond
  let _ ← branch
    (do E.block ctx locals (← Returns.branchBody yes))
    (do E.block ctx locals (← Returns.branchBody no))

def spillCount (bools : Bool) (fault : TypeError) (count : Expr) : Lowering (Nat × Width) := do
  let operand ← ctx.operand locals count
  if operand.isPointer || !(operand.kind.isInteger || (bools && operand.kind == .bool)) then throw (.type fault)
  let w ← widthOf operand.kind
  let counter ← newSlot
  E.exprAt ctx locals count w
  store counter
  return (counter, w)

/-- Runs a block as long as a counter is positive, and counts down after each pass. -/
def countDown (counter : Nat) (w : Width) (body : List Expr) : Lowering Unit :=
  loop (compareSlot w counter (if w = .u64 then .notEqual else .greater) (pushInt w 0)) fun _ => do
    E.block ctx locals body
    load counter
    pushInt w 1
    arithmetic .minus w
    store counter

def isNoCount : Expr → Bool
  | .literal _ (.int n _) => n ≤ 0
  | .literal _ (.uint n) => n == 0
  | .literal _ (.bool b) => !b
  | _ => false

def lowerRepeat (count : Expr) (body : List Expr) : Lowering Unit :=
  if isNoCount count then return
  else do
    let (counter, w) ← spillCount E ctx locals true .repeatCount count
    countDown E ctx locals counter w body

/-- A `loop`, which fails on a negative count. -/
def lowerLoop (count : Expr) (body : List Expr) : Lowering Unit := do
  let (counter, w) ← spillCount E ctx locals false .loopCount count
  failIfNegative w counter "loop count must be non-negative"
  countDown E ctx locals counter w body

def lowerWhile (cond : Expr) (body : List Expr) : Lowering Unit :=
  loop (E.condition ctx locals (.condition .whileLoop) cond) fun _ => E.block ctx locals body

/-- Leaves the condition of a `for`; a declaration is made anew at every pass. -/
def forCondition (cond : Expr) : Lowering Locals := do
  if cond.isBinding then
    let locals ← E.statement ctx locals cond
    match cond.boundName?.bind (locals.lookup ·) with
    | none => throw (.type (.condition .forLoop))
    | some l =>
      if l.type.shape = .value ∧ l.type.kind = .bool then
        load l.slot
        return locals
      else throw (.type (.condition .forLoop))
  else
    E.condition ctx locals (.condition .forLoop) cond
    return locals

/-- A `for`; what its first two arguments declare is in scope in all of it. -/
def lowerFor (init cond step : Expr) (body : List Expr) : Lowering Unit := do
  let locals ← E.statement ctx locals init
  loop (forCondition E ctx locals cond) fun locals => do
    E.block ctx locals body
    E.block ctx locals [step]

def argumentPrint (checked : Bool) : Opcode := if checked then .printArgv else .printArgvUnsafe

def wordPrint (builtin : String) : Operand → Except Error Opcode
  | .value .int32 | .value .bool => .ok .printI32
  | .value .int64 => .ok .printI64
  | .value .uint64 => .ok .printU64
  | .value k => .error (.lowering (.printKind k))
  | .pointer _ => .error (.type (.printPointer builtin))

def printText (mode : PrintMode) (x : String) (l : Local) : Lowering Unit :=
  match l.text with
  | .none => throw (.lowering (.unknownString x))
  | .table index => emitWith .printString (mode.ofString index)
  | .argument checked => do
    load l.slot
    emitWith (argumentPrint checked) mode.flags

def printValue (builtin : String) (mode : PrintMode) (e : Expr) : Lowering Unit := do
  let operand ← E.expr ctx locals e
  emitWith (← wordPrint builtin operand) mode.flags

def textLocal? (e : Expr) : Option (String × Local) :=
  match e with
  | .name _ x =>
    match locals.lookup x with
    | some l => if l.type.shape = .value ∧ l.type.kind = .string then some (x, l) else none
    | none => none
  | _ => none

def readsArgument (c : Call) : Bool :=
  c.isPlain && (c.name == "at" || c.name == "at_unsafe") && c.args.head?.any (isArguments locals)

def lowerPrint (builtin : String) (mode : PrintMode) (e : Expr) : Lowering Unit :=
  match e with
  | .literal _ (.string text) => do
    let index ← internText text
    emitWith .printString (mode.ofString index)
  | .call _ c =>
    if readsArgument locals c then do
      emitArgumentIndex E ctx locals c (c.name == "at")
      emitWith (argumentPrint (c.name == "at")) mode.flags
    else printValue E ctx locals builtin mode e
  | e =>
    match textLocal? locals e with
    | some (x, l) => printText mode x l
    | none => printValue E ctx locals builtin mode e

def dropValue (e : Lowering Operand) : Lowering Unit := do
  let _ ← e
  emit .pop

def blockOf (c : Call) : Except Error (List Expr) :=
  match c.body with
  | some body => .ok body
  | none => .error (.callShape (.missingBlock c.name))

def lowerBuiltin (e : Expr) (c : Call) (cls : BuiltinClass) : Lowering Unit :=
  match cls, c.args with
  | .ret, args => lowerReturn E ctx locals args.head?
  | .ifElse, [cond, yes, no] => lowerIf E ctx locals cond yes no
  | .repeatLoop, [count] => do lowerRepeat E ctx locals count (← blockOf c)
  | .countedLoop, [count] => do lowerLoop E ctx locals count (← blockOf c)
  | .whileLoop, [cond] => do lowerWhile E ctx locals cond (← blockOf c)
  | .forLoop, [init, cond, step] => do lowerFor E ctx locals init cond step (← blockOf c)
  | .block, _ => do E.block ctx locals (← blockOf c)
  | .print newline stderr, [e] => lowerPrint E ctx locals c.name { newline, stderr } e
  | .assign, [target, value] => dropValue (emitAssign E ctx locals target value)
  | .step op, [target] => dropValue (emitStep E ctx locals c.name op target)
  | _, _ => dropValue (emitExpr E ctx locals e)

def lowerStatement (e : Expr) : Lowering Locals := do
  let ctx ← ctx.inside e
  match e with
  | .call _ c =>
    if c.isBinding then
      let bound ← bindLocal E ctx ctx.site locals e c.args.head? false
      return bound :: locals
    else match c.builtin? with
      | some b => do
        if c.hasLabels then throw (.callShape .labelledBuiltin)
        if c.body.isSome && !b.cls.takesBody then throw (.callShape (.blockOnCall c.name))
        b.checkArity c.name c.args.length
        ctx.effects.require c.name
        lowerBuiltin E ctx locals e c b.cls
        return locals
      | none => do
        let callee ← ctx.callee locals c
        let _ ← expand E ctx locals c callee false
        return locals
  | _ => do
    dropValue (emitExpr E ctx locals e)
    return locals

end

def Emitter.atDepth : Nat → Emitter
  | 0 => {
      expr := fun _ _ _ => throw .tooDeep
      statement := fun _ _ _ => throw .tooDeep }
  | n + 1 => {
      expr := fun ctx locals e => emitExpr (atDepth n) ctx locals e
      statement := fun ctx locals e => lowerStatement (atDepth n) ctx locals e }

end FlatCode.Lower
