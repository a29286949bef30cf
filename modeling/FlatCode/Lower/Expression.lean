import FlatCode.Lower.Expansion
import FlatCode.Lower.Math

/-! Lowering expressions, each of which leaves one word on the stack. -/

namespace FlatCode.Lower

/-- The instruction that pushes a literal; a 32-bit integer must be in range and a string is no word. -/
def literalPush : Literal → Except Error Instruction
  | .int n .i32 =>
    if n.toInt32.toInt64 = n then .ok { op := .pushI32, imm := n.toUInt64 } else .error (.lowering .literalRange)
  | .int n .i64 => .ok { op := .pushI64, imm := n.toUInt64 }
  | .uint n => .ok { op := .pushI64, imm := n }
  | .float bits .f32 => .ok { op := .pushF32, imm := (Float.ofBits bits).toFloat32.toBits.toUInt64 }
  | .float bits .f64 => .ok { op := .pushF64, imm := bits }
  | .bool b => .ok { op := .pushI32, imm := if b then 1 else 0 }
  | .string _ => .error (.lowering .stringAsValue)

def emitLiteralValue (l : Literal) : Lowering Operand := do
  let i ← literalPush l
  emitWith i.op i.imm
  return .value (Kind.ofLiteral l)

def emitLocal (l : Local) : Lowering Operand := do
  load l.slot
  if l.type.shape = .reference then emit .loadIndirect
  return l.operand

section
variable (E : Emitter) (ctx : Context) (locals : Locals)

def emitArithmetic (op : ArithmeticOp) (l r : Expr) : Lowering Operand := do
  let resolution ← op.resolve (← ctx.operand locals l) (← ctx.operand locals r)
  match resolution with
  | .numeric w =>
    E.exprAt ctx locals l w
    E.exprAt ctx.behind locals r w
    arithmetic op w
  | .pointer _ =>
    let _ ← E.expr ctx locals l
    let _ ← E.expr ctx.behind locals r
    arithmetic op .i64
  return resolution.result

def emitNegate (e : Expr) : Lowering Operand := do
  let w ← resolveNegate (← ctx.operand locals e)
  E.exprAt ctx locals e w
  match Opcode.negate? w with
  | some op => emit op
  | none => throw (.type .negateUnsigned)
  return .value w.kind

def emitComparison (op : ComparisonOp) (l r : Expr) : Lowering Operand := do
  let w ← resolveComparison (← ctx.operand locals l) (← ctx.operand locals r)
  E.exprAt ctx locals l w
  E.exprAt ctx.behind locals r w
  compare op w
  return .value .bool

def emitBool (e : Expr) : Lowering Unit := E.condition ctx locals .booleanOperand e

def emitConvert (c : Call) (e : Expr) : Lowering Operand := do
  let target ← c.convertTarget
  let source ← E.expr ctx locals e
  if source.isPointer then throw (.type .convertOperand)
  let w ← widthOf source.kind
  if target = .bool then
    pushInt w 0
    compare .notEqual w
  else
    let _ ← widthOf target
    coerce source.kind target
  return .value target

def emitLocation (target : Expr) : Lowering Operand :=
  match target with
  | .name _ x => do
    let l ← addressable locals x
    if l.type.shape.isCollection then throw (.lowering (.arrayAsValue x))
    if l.type.shape = .reference then load l.slot else emitWith .addressOfLocal (UInt64.ofNat l.slot)
    return .pointer l.type.kind
  | _ => throw (.type .locationTarget)

/-- Leaves the address that an expression refers to, and gives the kind of what is there. -/
def emitPointer (e : Expr) : Lowering Kind := do
  match reference? locals e with
  | some l =>
    load l.slot
    return l.type.kind
  | none =>
    match ← E.expr ctx locals e with
    | .pointer k => return k
    | .value _ => throw (.type .dereferenceTarget)

def emitDereference (target : Expr) : Lowering Operand := do
  let kind ← emitPointer E ctx locals target
  emit .loadIndirect
  return .value kind

def dereferenced? (target : Expr) : Option Expr :=
  match target with
  | .call _ c =>
    match c.args with
    | [e] => if target.isCallTo "dereference" then some e else none
    | _ => none
  | _ => none

def mutableLocal (builtin x : String) : Except Error Local :=
  match locals.lookup x with
  | none => .error (.type (.unknownTarget builtin x))
  | some l => if l.mutable then .ok l else .error (.type (.immutableTarget builtin x))

def assignLocal (x : String) (l : Local) (value : Expr) : Lowering Operand := do
  if l.type.kind = .string then throw (.lowering .stringAssignment)
  match l.type.shape with
  | .reference =>
    load l.slot
    let operand ← E.expr ctx.behind locals value
    coerce operand.kind l.type.kind
    emit .storeIndirect
  | .pointer =>
    let _ ← E.expr ctx locals value
    emit .dup
    store l.slot
  | .value =>
    let operand ← E.expr ctx locals value
    coerce operand.kind l.type.kind
    emit .dup
    store l.slot
  | .map | .array | .vector => throw (.lowering (.arrayAsValue x))
  return l.operand

def emitAssign (target value : Expr) : Lowering Operand :=
  match target with
  | .name _ x => do
    let l ← mutableLocal locals "assign" x
    assignLocal E ctx locals x l value
  | _ =>
    match dereferenced? target with
    | none => throw (.type (.targetShape "assign"))
    | some pointer => do
      let kind ← emitPointer E ctx locals pointer
      let operand ← E.expr ctx.behind locals value
      coerce operand.kind kind
      emit .storeIndirect
      return .value kind

def stepWidth (builtin : String) (k : Kind) : Except Error Width :=
  match k.width? with
  | some w => if k.isNumeric then .ok w else .error (.type (.stepOperand builtin))
  | none => .error (.type (.stepOperand builtin))

def stepTop (op : ArithmeticOp) (w : Width) : Lowering Unit := do
  pushInt w 1
  arithmetic op w

/-- Changes what the address in a slot refers to by one and leaves the value. -/
def stepIndirect (op : ArithmeticOp) (w : Width) (address : Nat) : Lowering Unit := do
  load address
  load address
  emit .loadIndirect
  stepTop op w
  emit .storeIndirect

def stepLocal (builtin : String) (op : ArithmeticOp) (l : Local) : Lowering Operand := do
  let w ← stepWidth builtin l.type.kind
  match l.type.shape with
  | .value =>
    load l.slot
    stepTop op w
    emit .dup
    store l.slot
  | .reference => stepIndirect op w l.slot
  | _ => throw (.type (.stepShape builtin))
  return .value l.type.kind

def emitStep (builtin : String) (op : ArithmeticOp) (target : Expr) : Lowering Operand :=
  match target with
  | .name _ x => do
    let l ← mutableLocal locals builtin x
    stepLocal builtin op l
  | _ =>
    match dereferenced? target with
    | none => throw (.type (.targetShape builtin))
    | some pointer => do
      let kind ← emitPointer E ctx locals pointer
      let w ← stepWidth builtin kind
      stepIndirect op w (← spill)
      return .value kind

def emitBranch (result : Operand) (yes : Expr) : Lowering Unit := do
  let body ← Returns.branchBody yes
  let operand ← E.blockValue ctx locals body
  coerce operand.kind result.kind

def emitIfValue (c : Call) (cond yes no : Expr) : Lowering Operand := do
  let result ← infer (inferIf ctx.scope ctx.inferrer ctx.site locals c)
  E.condition ctx locals (.condition .ifBranch) cond
  let _ ← branch (emitBranch E ctx locals result yes) (emitBranch E ctx locals result no)
  return result

def emitBuiltin (c : Call) (cls : BuiltinClass) : Lowering Operand :=
  match cls, c.args with
  | .arithmetic op, [l, r] => emitArithmetic E ctx locals op l r
  | .negate, [e] => emitNegate E ctx locals e
  | .comparison op, [l, r] => emitComparison E ctx locals op l r
  | .conjunction, [l, r] => do
    emitBool E ctx locals l
    let _ ← branch (emitBool E ctx locals r) (emitWith .pushI32 0)
    return .value .bool
  | .disjunction, [l, r] => do
    emitBool E ctx locals l
    let _ ← branch (emitWith .pushI32 1) (emitBool E ctx locals r)
    return .value .bool
  | .not, [e] => do
    emitBool E ctx locals e
    emitWith .pushI32 0
    emit .cmpEqI32
    return .value .bool
  | .math f, _ => emitMath E ctx locals c f
  | .convert, [e] => emitConvert E ctx locals c e
  | .location, [target] => emitLocation locals target
  | .dereference, [target] => emitDereference E ctx locals target
  | .assign, [target, value] => emitAssign E ctx locals target value
  | .step op, [target] => emitStep E ctx locals c.name op target
  | .ifElse, [cond, yes, no] => emitIfValue E ctx locals c cond yes no
  | .block, _ => E.blockValue ctx locals (c.body.getD [])
  | .count, [target] => emitCount E ctx locals c.name target
  | .index checked, [target, position] => emitIndex E ctx locals c target position checked
  | .collection _, _ => throw (.lowering (.collectionLiteral c.name))
  | .heap, _ => throw (.lowering (.heap c.name))
  | .pathspace, _ => throw (.lowering (.pathspace c.name))
  | .ret, _ | .repeatLoop, _ | .countedLoop, _ | .whileLoop, _ | .forLoop, _ | .print .., _ =>
    throw (.type (.noValue c.name))
  | _, _ => throw (.callShape (.builtinArity c.name))

def emitCall (c : Call) : Lowering Operand := do
  let callee ← ctx.callee locals c
  match ← expand E ctx locals c callee true with
  | some kind => return .value kind
  | none => throw (.lowering (.voidCall callee.path))

def emitExpr (e : Expr) : Lowering Operand := do
  let ctx ← ctx.inside e
  match e with
  | .literal _ l => emitLiteralValue l
  | .name _ x => do emitLocal (← readable locals x)
  | .call _ c =>
    if c.isBinding then throw (.structural (.bindingAsValue c.name))
    else match c.builtin? with
      | some b => do
        if c.hasLabels then throw (.callShape .labelledBuiltin)
        b.checkArity c.name c.args.length
        ctx.effects.require c.name
        emitBuiltin E ctx locals c b.cls
      | none => emitCall E ctx locals c

end
end FlatCode.Lower
