import FlatCode.Check.Inference
import FlatCode.Effect.Set

/-! What checking depends on, and the rules on kinds that its parts share. -/

namespace FlatCode.Check

abbrev Checking (α : Type) := StateT ReturnCache (Except Error) α

def Checking.ofRecall {α : Type} (m : Recall α) : Checking α := fun cache =>
  match m cache with
  | some r => .ok r
  | none => .error .tooDeep

def Checking.ofInfer {α : Type} (m : Infer α) : Checking α := do
  match ← Checking.ofRecall m.run with
  | .ok a => return a
  | .error e => throw e

/-- What is known where an expression is checked: the definition it stands in, that definition's result and template
    parameters, and the effects in force. -/
structure Context where
  scope : Scope
  inferrer : Inferrer
  home : String
  effects : EffectSet
  returns : ReturnInfo
  templates : List String

namespace Context
variable (ctx : Context)

/-- The context inside an expression, whose own effects may only narrow those in force. -/
def inside (e : Expr) : Except Error Context := do
  return { ctx with effects := ← ctx.effects.inside ctx.home e }

def site : Site := { home := ctx.home }

def callee? (env : Env) (c : Call) : Checking (Option Definition) :=
  .ofRecall (Check.callee? ctx.scope ctx.inferrer ctx.site env c)

def returnInfo (d : Definition) : Infer ReturnInfo := Check.returnInfo ctx.scope ctx.inferrer [] d

end Context

/-- Checking to some depth: of expressions, and of statements, which may bring names into scope. -/
structure Checker where
  expr : Context → Env → Expr → Checking Operand
  statement : Context → Env → Expr → Checking Env

def Checker.statements (K : Checker) (ctx : Context) (env : Env) : List Expr → Checking Env
  | [] => return env
  | e :: rest => do K.statements ctx (← K.statement ctx env e) rest

def Checker.block (K : Checker) (ctx : Context) (env : Env) (body : List Expr) : Checking Unit := do
  let _ ← K.statements ctx env body

/-- How a call of a builtin must be written, and the effect it needs. -/
def builtinShape (ctx : Context) (b : Builtin) (c : Call) : Except Error Unit := do
  if c.hasLabels then throw (.callShape .labelledBuiltin)
  if b.cls == .block && !c.args.isEmpty then throw (.callShape .blockArguments)
  b.checkArity c.name c.args.length
  if b.cls.takesBody then
    if c.body.isNone then throw (.callShape (.missingBlock c.name))
  else
    if c.body.isSome then throw (.callShape (.blockOnCall c.name))
  ctx.effects.require c.name

/-! ### Kinds -/

/-- Whether an operand may fill a place of the given type; a collection is given with its own type. -/
def fits (type : BindingType) (collection : Option BindingType) (actual : Operand) : Bool :=
  match type.shape with
  | .pointer | .reference => actual.isPointer
  | .value => !actual.isPointer && type.kind.accepts actual.kind
  | .map | .array | .vector =>
    match collection with
    | some c => c.shape == type.shape && type.kind.accepts c.kind && type.key.accepts c.key
    | none => actual == .unknown

/-- Whether a value may take the place of an operand. -/
def flows (target actual : Operand) : Bool :=
  if target.isPointer then actual.isPointer else !actual.isPointer && target.kind.accepts actual.kind

/-- The result of two branches, one of which may be unknown. -/
def mergeBranches (a b : Operand) : Except Error Operand :=
  if a.kind = .unknown then .ok b
  else if b.kind = .unknown then .ok a
  else if a.kind = b.kind ∧ a.isPointer = b.isPointer then .ok a
  else if a.kind.isNumeric && b.kind.isNumeric && !a.isPointer && !b.isPointer then
    match ArithmeticOp.plus.resolve a b with
    | .ok r => .ok r.result
    | .error _ => .error (.type .branchMismatch)
  else .error (.type .branchMismatch)

end FlatCode.Check
