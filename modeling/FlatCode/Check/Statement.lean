import FlatCode.Check.Expression

/-! Checking statements. A declaration brings its name into scope; a name may not be declared twice. -/

namespace FlatCode.Check

section
variable (K : Checker) (ctx : Context) (env : Env)

def checkInitial (name : String) (e : Expr) (init : Option Expr) : Checking Binding := do
  let mutable := isMutable e.transforms
  let declared ← BindingType.declared? ctx.scope ctx.templates e.transforms
  match init with
  | none =>
    match declared with
    | some type => return { type, mutable }
    | none => throw (.type (.untypedBinding name))
  | some init =>
    let operand ← K.expr ctx env init
    let collection ← collection? ctx.templates env init
    match declared, collection with
    | some type, collection =>
      if !fits type collection operand then throw (.type (.bindingMismatch name))
      return { type, mutable }
    | none, some type => return { type, mutable }
    | none, none => return { type := .ofOperand operand (ctx.scope.built? init ctx.home), mutable }

def checkBinding (e : Expr) : Checking Env :=
  match e with
  | .call _ c => do
    if (env.lookup c.name).isSome then throw (.structural (.duplicateBinding c.name))
    let b ← checkInitial K ctx env c.name e c.args.head?
    return (c.name, b) :: env
  | _ => return env

def checkReturn : Option Expr → Checking Unit
  | some value => do
    if ctx.returns.isVoid then throw (.type .voidReturnsValue)
    let operand ← K.expr ctx env value
    if operand.isPointer || !ctx.returns.kind.accepts operand.kind then throw (.type (.returnMismatch ctx.home))
  | none => if ctx.returns.isVoid then return else throw (.type .returnWithoutValue)

def checkIf (cond yes no : Expr) : Checking Unit := do
  checkCondition K ctx env .ifBranch cond
  let yes ← Returns.branchBody yes
  let no ← Returns.branchBody no
  K.block ctx env yes
  K.block ctx env no

def checkCounted (bools : Bool) (fault : TypeError) (count : Expr) (body : List Expr) : Checking Unit := do
  let operand ← K.expr ctx env count
  let kind := operand.kind
  if operand.isPointer || !(kind.isInteger || (bools && kind == .bool) || kind == .unknown) then throw (.type fault)
  K.block ctx env body

def checkWhile (cond : Expr) (body : List Expr) : Checking Unit := do
  checkCondition K ctx env .whileLoop cond
  K.block ctx env body

def checkForCondition (cond : Expr) : Checking Env := do
  if cond.isBinding then
    let env ← checkBinding K ctx env cond
    let operand := ((cond.boundName?.bind (env.lookup ·)).map Binding.operand).getD .unknown
    if !operand.isCondition then throw (.type (.condition .forLoop))
    return env
  else
    checkCondition K ctx env .forLoop cond
    return env

/-- A `for`; what its first two arguments declare is in scope in all of it. -/
def checkFor (init cond step : Expr) (body : List Expr) : Checking Unit := do
  let env ← K.statement ctx env init
  let env ← checkForCondition K ctx env cond
  K.block ctx env body
  K.block ctx env [step]

def checkPrint (builtin : String) (e : Expr) : Checking Unit := do
  if (← K.expr ctx env e).isPointer then throw (.type (.printPointer builtin))

def checkBuiltinStatement (e : Expr) (c : Call) (cls : BuiltinClass) : Checking Unit :=
  let body := c.body.getD []
  match cls, c.args with
  | .ret, args => checkReturn K ctx env args.head?
  | .ifElse, [cond, yes, no] => checkIf K ctx env cond yes no
  | .repeatLoop, [count] => checkCounted K ctx env true .repeatCount count body
  | .countedLoop, [count] => checkCounted K ctx env false .loopCount count body
  | .whileLoop, [cond] => checkWhile K ctx env cond body
  | .forLoop, [init, cond, step] => checkFor K ctx env init cond step body
  | .block, _ => K.block ctx env body
  | .print .., [e] => checkPrint K ctx env c.name e
  | .heap, args | .pathspace, args => do
    let _ ← args.mapM (K.expr ctx env)
  | _, _ => do
    let _ ← checkExpr K ctx env e

def checkStatement (e : Expr) : Checking Env := do
  let ctx ← ctx.inside e
  match e with
  | .call _ c =>
    if c.isBinding then checkBinding K ctx env e
    else match c.builtin? with
      | some b => do
        builtinShape ctx b c
        checkBuiltinStatement K ctx env e c b.cls
        return env
      | none => do
        let _ ← checkCall K ctx env c false
        return env
  | _ => do
    let _ ← checkExpr K ctx env e
    return env

end

def Checker.atDepth : Nat → Checker
  | 0 => {
      expr := fun _ _ _ => throw .tooDeep
      statement := fun _ _ _ => throw .tooDeep }
  | n + 1 => {
      expr := fun ctx env e => checkExpr (atDepth n) ctx env e
      statement := fun ctx env e => checkStatement (atDepth n) ctx env e }

end FlatCode.Check
