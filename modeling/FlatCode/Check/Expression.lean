import FlatCode.Arguments
import FlatCode.Check.Basic

/-! Checking expressions. The result is the operand that the expression leaves; operators on unknown operands are
    not checked further. -/

namespace FlatCode.Check

section
variable (K : Checker) (ctx : Context) (env : Env)

def binding? (x : String) (fault : Error) : Checking Binding :=
  match env.lookup x with
  | some b => return b
  | none => throw fault

def checkArgument (callee : Definition) (param arg : Expr) (actual : Operand) : Checking Unit := do
  match ← BindingType.declared? ctx.scope callee.templateArgs param.transforms with
  | none => return
  | some type =>
    if !fits type (← collection? ctx.templates env arg) actual then
      throw (.type (.argumentMismatch callee.path (param.boundName?.getD "?")))

/-- Checks the arguments that fill parameters; defaults are checked with their definition. -/
def checkArguments (callee : Definition) (args : List (Expr × Operand)) : List (Expr × Filling) → Checking Unit
  | [] => return
  | (param, filling) :: rest => do
    match filling with
    | .default => pure ()
    | .argument i =>
      match args[i]? with
      | some (arg, actual) => checkArgument ctx env callee param arg actual
      | none => pure ()
    checkArguments callee args rest

def checkCall (c : Call) (valueNeeded : Bool) : Checking Operand := do
  match ← ctx.callee? env c with
  | none => throw (.structural (.unknownCall c.name))
  | some callee =>
    if c.body.isSome then throw (.callShape (.blockOnCall callee.path))
    let params ← callee.callParameters
    let fillings ← Arguments.order callee.path params c.args.length c.labels
    let operands ← c.args.mapM (K.expr ctx env)
    checkArguments ctx env callee (c.args.zip operands) (params.zip fillings)
    if callee.isStruct then return .value .int32
    else
      let info ← Checking.ofInfer (ctx.returnInfo callee)
      if info.isVoid && valueNeeded then throw (.type (.voidCall callee.path))
      return .value info.kind

def isVoidCall (c : Call) : Checking Bool := do
  match ← ctx.callee? env c with
  | none => return false
  | some d =>
    if d.isStruct then return false
    else match ← Checking.ofRecall (ctx.returnInfo d).run with
      | .ok info => return info.isVoid
      | .error _ => return false

def leavesValue : Expr → Checking Bool
  | .call _ c =>
    match c.builtin? with
    | some b => return !b.cls.isStatement
    | none => return !(← isVoidCall ctx env c)
  | _ => return true

/-- Checks a block for the value of its last statement; a `return` there stands for any value. -/
def checkBlockValue (body : List Expr) : Checking Operand :=
  match body.getLast? with
  | none => throw (.type .valuelessBlock)
  | some last => do
    let inner ← K.statements ctx env body.dropLast
    if last.isBinding then throw (.type .valuelessBlock)
    if last.isCallTo "return" then
      let _ ← K.statement ctx inner last
      return .unknown
    if !(← leavesValue ctx inner last) then throw (.type .valuelessBlock)
    K.expr ctx inner last

def checkCondition (construct : ConditionOf) (cond : Expr) : Checking Unit := do
  if !(← K.expr ctx env cond).isCondition then throw (.type (.condition construct))

def checkIfValue (cond yes no : Expr) : Checking Operand := do
  checkCondition K ctx env .ifBranch cond
  let yes ← Returns.branchBody yes
  let no ← Returns.branchBody no
  let a ← checkBlockValue K ctx env yes
  let b ← checkBlockValue K ctx env no
  mergeBranches a b

/-- The kind that a reference refers to, if the expression names one. -/
def referenced? : Expr → Option Kind
  | .name _ x =>
    match env.lookup x with
    | some b => if b.type.shape = .reference then some b.type.kind else none
    | none => none
  | _ => none

def checkDereference (target : Expr) : Checking Operand := do
  match referenced? env target with
  | some k => return .value k
  | none =>
    match ← K.expr ctx env target with
    | .pointer k => return .value k
    | .value _ => throw (.type .dereferenceTarget)

def mutableBinding (builtin x : String) : Checking Binding := do
  let b ← binding? env x (.type (.unknownTarget builtin x))
  if !b.mutable then throw (.type (.immutableTarget builtin x))
  return b

def checkAssign (target value : Expr) : Checking Operand := do
  let expected ← match target with
    | .name _ x => do pure (← mutableBinding env "assign" x).operand
    | .call _ c =>
      if target.isCallTo "dereference" && c.args.length == 1 then K.expr ctx env target
      else throw (.type (.targetShape "assign"))
    | .literal .. => throw (.type (.targetShape "assign"))
  let actual ← K.expr ctx env value
  if !flows expected actual then throw (.type .assignMismatch)
  return expected

def stepTarget (builtin : String) (target : Expr) : Checking Kind :=
  match target with
  | .name _ x => do
    let b ← mutableBinding env builtin x
    if b.type.shape != .value && b.type.shape != .reference then throw (.type (.stepShape builtin))
    return b.type.kind
  | .call .. =>
    if target.isCallTo "dereference" then do
      let operand ← K.expr ctx env target
      return operand.kind
    else throw (.type (.targetShape builtin))
  | .literal .. => throw (.type (.targetShape builtin))

def checkStep (builtin : String) (target : Expr) : Checking Operand := do
  let kind ← stepTarget K ctx env builtin target
  if !(kind.isNumeric || kind == .unknown) then throw (.type (.stepOperand builtin))
  return .value kind

def checkCount (builtin : String) (target : Expr) : Checking Operand := do
  let operand ← K.expr ctx env target
  if (← collection? ctx.templates env target).isSome || operand == .value .string then return .value .int32
  else throw (.type (.notIndexable builtin))

def isIndex (position : Operand) : Bool :=
  !position.isPointer && (position.kind.isInteger || position.kind == .unknown)

def checkIndex (builtin : String) (target position : Expr) : Checking Operand := do
  let operand ← K.expr ctx env target
  let collection ← collection? ctx.templates env target
  let position ← K.expr ctx env position
  match collection with
  | some type =>
    if type.shape = .map then
      if position.isPointer || !type.key.accepts position.kind then throw (.type (.keyMismatch builtin))
      return .value type.kind
    else if isIndex position then return .value type.kind
    else throw (.type (.indexKind builtin))
  | none =>
    if operand != .value .string then throw (.type (.notIndexable builtin))
    else if isIndex position then return .value .int32
    else throw (.type (.indexKind builtin))

def elementRole (type : BindingType) (i : Nat) : ElementRole × Kind :=
  if type.shape = .map then if i % 2 = 0 then (.key, type.key) else (.value, type.kind)
  else (.element, type.kind)

def checkElements (builtin : String) (type : BindingType) (i : Nat) : List Expr → Checking Unit
  | [] => return
  | e :: rest => do
    let (role, expected) := elementRole type i
    let operand ← K.expr ctx env e
    if operand.isPointer || !expected.accepts operand.kind then throw (.type (.elementMismatch builtin role))
    checkElements builtin type (i + 1) rest

def checkCollection (form : CollectionForm) (c : Call) : Checking Operand := do
  let type ← BindingType.collection ctx.templates form c.name c.templateArgs
  if form == .map && c.args.length % 2 != 0 then throw (.callShape .oddMap)
  checkElements K ctx env c.name type 0 c.args
  return .unknown

/-- The result of a numeric operation, which is not checked on unknown operands. -/
def numericValue (operands : List Operand) (width : Except Error Width) : Except Error Operand :=
  if operands.contains .unknown then .ok .unknown
  else match width with
    | .ok w => .ok (.value w.kind)
    | .error e => .error e

def checkConvert (c : Call) (e : Expr) : Checking Operand := do
  let kind ← c.convertTarget
  let operand ← K.expr ctx env e
  let source := operand.kind
  if operand.isPointer || !(source.isNumeric || source == .bool || source == .unknown) then
    throw (.type .convertOperand)
  return .value kind

def checkBuiltin (c : Call) (cls : BuiltinClass) : Checking Operand :=
  match cls, c.args with
  | .arithmetic op, [l, r] => do
    let l ← K.expr ctx env l
    let r ← K.expr ctx env r
    if [l, r].contains .unknown then return .unknown
    return (← op.resolve l r).result
  | .negate, [e] => do
    let operand ← K.expr ctx env e
    numericValue [operand] (resolveNegate operand)
  | .comparison _, [l, r] => do
    let l ← K.expr ctx env l
    let r ← K.expr ctx env r
    let _ ← numericValue [l, r] (resolveComparison l r)
    return .value .bool
  | .conjunction, args | .disjunction, args | .not, args => do
    let operands ← args.mapM (K.expr ctx env)
    if operands.all Operand.isCondition then return .value .bool else throw (.type .booleanOperand)
  | .math _, args => do
    let operands ← args.mapM (K.expr ctx env)
    numericValue operands (resolveMath c.name operands)
  | .convert, [e] => checkConvert K ctx env c e
  | .location, [e] =>
    match e with
    | .name _ x => do
      let b ← binding? env x (.type (.unknownName x))
      return .pointer b.type.kind
    | _ => throw (.type .locationTarget)
  | .dereference, [e] => checkDereference K ctx env e
  | .assign, [target, value] => checkAssign K ctx env target value
  | .step _, [target] => checkStep K ctx env c.name target
  | .ifElse, [cond, yes, no] => checkIfValue K ctx env cond yes no
  | .block, _ => checkBlockValue K ctx env (c.body.getD [])
  | .count, [target] => checkCount K ctx env c.name target
  | .index _, [target, position] => checkIndex K ctx env c.name target position
  | .collection form, _ => checkCollection K ctx env form c
  | .heap, args => do
    let _ ← args.mapM (K.expr ctx env)
    return .unknown
  | .ret, _ | .repeatLoop, _ | .countedLoop, _ | .whileLoop, _ | .forLoop, _ | .print .., _ | .pathspace, _ =>
    throw (.type (.noValue c.name))
  | _, _ => throw (.callShape (.builtinArity c.name))

def checkExpr (e : Expr) : Checking Operand := do
  let ctx ← ctx.inside e
  match e with
  | .literal _ l => return .value (Kind.ofLiteral l)
  | .name _ x => do pure (← binding? env x (.type (.unknownName x))).operand
  | .call _ c =>
    if c.isBinding then throw (.structural (.bindingAsValue c.name))
    else match c.builtin? with
      | some b => do
        builtinShape ctx b c
        checkBuiltin K ctx env c b.cls
      | none => checkCall K ctx env c true

end
end FlatCode.Check
