import FlatCode.Check.Statement

/-! Checking whole programs: the shape of the entry, then every definition, then every execution. -/

namespace FlatCode.Check

def isArgumentArray (scope : Scope) (param : Expr) : Except Error Bool := do
  match ← BindingType.declared? scope [] param.transforms with
  | some type => return param.boundName?.isSome && type.shape == .array && type.kind == .string
  | none => return false

/-- The entry is not templated, and takes nothing or the arguments of the run. -/
def checkEntry (scope : Scope) (entry : Definition) : Except Error Unit :=
  if !entry.templateArgs.isEmpty then .error (.structural (.templatedEntry entry.path))
  else match entry.parameters with
    | [] => .ok ()
    | [param] => do
      if !(← isArgumentArray scope param) then throw (.structural (.entryParameter entry.path))
      if param.initial?.isSome then throw (.structural (.entryDefault entry.path))
    | _ => .error (.structural (.entryParameter entry.path))

structure Setting where
  scope : Scope
  depth : Nat
  entry : String
  defaults : EffectSet
  entryDefaults : EffectSet

namespace Setting
variable (s : Setting)

def checker : Checker := Checker.atDepth s.depth

def inferrer : Inferrer := Inferrer.atDepth s.scope s.depth

/-- The parameters of a definition are declarations of different names. -/
def declare (ctx : Context) (path : String) (env : Env) : List Expr → Checking Env
  | [] => return env
  | param :: rest => do
    match param.boundName? with
    | none => throw (.structural (.nonBindingParameter path))
    | some name =>
      if (env.lookup name).isSome then throw (.structural (.duplicateParameter name))
      declare ctx path (← checkBinding s.checker ctx env param) rest

def checkFields (ctx : Context) (env : Env) : List Expr → Checking Unit
  | [] => return
  | field :: rest => do checkFields ctx (← checkBinding s.checker ctx env field) rest

def checkPaths (path : String) (body : List Expr) : Except Error Unit :=
  if Returns.blockAlways body then .ok ()
  else if Returns.contains body then .error (.structural (.partialReturn path))
  else .error (.structural (.missingReturn path))

def checkDefinition (d : Definition) : Checking Unit := do
  let defaults := if d.path == s.entry then s.entryDefaults else s.defaults
  let effects ← EffectSet.active d.transforms defaults d.path
  let returns ← Checking.ofInfer (Check.returnInfo s.scope s.inferrer [] d)
  let ctx : Context :=
    { scope := s.scope, inferrer := s.inferrer, home := d.path, effects, returns, templates := d.templateArgs }
  if d.isStruct then s.checkFields ctx [] (← d.fields)
  else
    let env ← s.declare ctx d.path [] d.parameters
    s.checker.block ctx env d.body
    if !returns.isVoid then checkPaths d.path d.body

def checkExecution (x : Execution) : Checking Unit := do
  match s.scope.resolve? x.path "/" with
  | none => throw (.structural (.unknownExecution x.path))
  | some target =>
    let effects ← EffectSet.active x.transforms s.defaults x.path
    let ctx : Context :=
      { scope := s.scope, inferrer := s.inferrer, home := x.path, effects, returns := .void, templates := [] }
    let params ← target.callParameters
    let _ ← Arguments.order target.path params x.arguments.length x.labels
    let _ ← x.arguments.mapM (s.checker.expr ctx [])
    s.checker.block ctx [] x.body

end Setting
end FlatCode.Check

namespace FlatCode

/-- Checks a program that starts at `entry`. The effect lists apply to definitions without effects of their own; the
    second one to the entry. -/
def Program.check (p : Program) (entry : String) (defaults entryDefaults : List String) : Except Error Unit := do
  let scope ← Scope.build p
  let defaults ← EffectSet.parse defaults "default effects"
  let entryDefaults ← EffectSet.parse entryDefaults "entry default effects"
  match scope.get? entry with
  | none => throw (.structural (.missingEntry entry))
  | some d =>
    Check.checkEntry scope d
    let s : Check.Setting := { scope, depth := p.depth, entry, defaults, entryDefaults }
    (do p.definitions.forM s.checkDefinition
        p.executions.forM s.checkExecution : Check.Checking Unit).run' []

end FlatCode
