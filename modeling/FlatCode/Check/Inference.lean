import FlatCode.Inference

/-! The kinds of expressions, as far as they can be told without checking them. What cannot be told is unknown. -/

namespace FlatCode.Check

structure Binding where
  type : BindingType
  mutable : Bool

abbrev Env := List (String × Binding)

def Binding.operand (b : Binding) : Operand :=
  match b.type.shape with
  | .pointer => .pointer b.type.kind
  | .value | .reference => .value b.type.kind
  | .map | .array | .vector => .unknown

def collection? (templates : List String) (env : Env) : Expr → Except Error (Option BindingType)
  | .name _ x =>
    match env.lookup x with
    | some b => .ok (if b.type.shape.isCollection then some { b.type with struct := none } else none)
    | none => .ok none
  | .call _ c => BindingType.ofLiteral? templates c
  | .literal .. => .ok none

def isString (env : Env) : Expr → Bool
  | .name _ x => (env.lookup x).any fun b => b.type.shape == .value && b.type.kind == .string
  | .literal _ l => Kind.ofLiteral l == .string
  | .call .. => false

/-- The kind that an index reads: an element of a collection, or a byte of a string. -/
def indexed? (env : Env) (e : Expr) : Option Kind :=
  match collection? [] env e with
  | .ok (some t) => some t.kind
  | _ => if isString env e then some .int32 else none

structure Inferrer where
  operand : Site → Env → Expr → Recall Operand
  firstReturn : Site → Env → List Expr → Recall (Option Kind)

section
variable (scope : Scope) (I : Inferrer) (site : Site)

def inferBinding (env : Env) (e : Expr) : Recall Binding := do
  match BindingType.declared? scope [] e.transforms with
  | .ok (some type) => return { type, mutable := isMutable e.transforms }
  | _ =>
    match e.initial? with
    | none => return { type := .scalar .unknown, mutable := isMutable e.transforms }
    | some init =>
      match collection? [] env init with
      | .ok (some type) => return { type, mutable := isMutable e.transforms }
      | _ =>
        let operand ← I.operand site env init
        return { type := .ofOperand operand (scope.built? init site.home), mutable := isMutable e.transforms }

def inferBindings (env : Env) : List Expr → Recall Env
  | [] => return env
  | e :: rest =>
    match e.boundName? with
    | none => inferBindings env rest
    | some name => do
      let b ← inferBinding scope I site env e
      inferBindings ((name, b) :: env) rest

/-- The scope of the parameters of a definition with the given template parameters. -/
def inferParameters (templates : List String) (env : Env) : List Expr → Recall Env
  | [] => return env
  | e :: rest =>
    match e.boundName? with
    | none => inferParameters templates env rest
    | some name => do
      let b ← match BindingType.declared? scope templates e.transforms with
        | .ok (some type) => pure { type, mutable := isMutable e.transforms }
        | _ => inferBinding scope I site env e
      inferParameters templates ((name, b) :: env) rest

def methodOwner? (env : Env) (receiver : Expr) (kind : Kind) : Option String :=
  let struct := match receiver with
    | .name _ x => (env.lookup x).bind (·.type.struct)
    | _ => none
  match struct with
  | some path => some path
  | none => if kind = .unknown then none else some (Path.atRoot kind.typeName)

def callee? (env : Env) (c : Call) : Recall (Option Definition) :=
  if c.isMethod then
    match c.args with
    | [] => return none
    | receiver :: _ => do
      let operand ← I.operand site env receiver
      return (methodOwner? env receiver operand.kind).bind fun owner => scope.get? (owner ++ "/" ++ c.name)
  else return scope.resolve? c.name site.home

def inferResult (busy : List String) (d : Definition) : Recall Kind := do
  let site : Site := { home := d.path, busy }
  let env ← inferParameters scope I site d.templateArgs [] d.parameters
  return (← I.firstReturn site env d.body).getD .unknown

def returnInfo (busy : List String) (d : Definition) : Infer ReturnInfo := d.returnInfo (inferResult scope I) busy

def inferCall (env : Env) (c : Call) : Recall Operand := do
  match ← callee? scope I site env c with
  | none => return .unknown
  | some d =>
    if d.isStruct then return .value .int32
    else match ← (returnInfo scope I site.busy d).run with
      | .ok info => return .value info.kind
      | .error _ => return .unknown

def inferBlock (env : Env) (body : List Expr) : Recall Operand :=
  match body.getLast? with
  | none => return .unknown
  | some last => do
    let inner ← inferBindings scope I site env body.dropLast
    I.operand site inner last

def inferBody (env : Env) : Option (List Expr) → Recall Operand
  | none => return .unknown
  | some body => inferBlock scope I site env body

/-- The operand of a numeric operation, unknown if it cannot be resolved. -/
def valueAt : Except Error Width → Operand
  | .ok w => .value w.kind
  | .error _ => .unknown

def inferBuiltin (env : Env) (c : Call) : BuiltinClass → Recall Operand
  | .arithmetic op => do
    match ← c.args.mapM (I.operand site env) with
    | l :: r :: _ =>
      match op.resolve l r with
      | .ok r => return r.result
      | .error _ => return .unknown
    | _ => return .unknown
  | .negate | .math _ => do
    let operands ← c.args.mapM (I.operand site env)
    return valueAt (resolveMath c.name operands)
  | .comparison _ | .conjunction | .disjunction | .not => return .value .bool
  | .convert => return .value ((c.templateArgs.head?.bind Kind.ofTypeName?).getD .unknown)
  | .location =>
    match c.args with
    | .name _ x :: _ => return .pointer (((env.lookup x).map (·.type.kind)).getD .unknown)
    | _ => return .pointer .unknown
  | .dereference =>
    match c.args with
    | target :: _ => do
      let operand ← I.operand site env target
      return .value operand.target
    | [] => return .unknown
  | .assign | .step _ =>
    match c.args with
    | target :: _ => do
      let operand ← I.operand site env target
      return .value operand.kind
    | [] => return .unknown
  | .count => return .value .int32
  | .index _ => return .value ((c.args.head?.bind (indexed? env)).getD .unknown)
  | .ifElse => inferBody scope I site env (c.args[1]?.bind Expr.body?)
  | .block => inferBody scope I site env c.body
  | _ => return .unknown

def inferOperand (env : Env) : Expr → Recall Operand
  | .literal _ l => return .value (Kind.ofLiteral l)
  | .name _ x => return ((env.lookup x).map Binding.operand).getD .unknown
  | .call _ c =>
    if c.isBinding then return .unknown
    else match c.builtin? with
      | some b => inferBuiltin scope I site env c b.cls
      | none => inferCall scope I site env c

def firstReturnIn (env : Env) : List (List Expr) → Recall (Option Kind)
  | [] => return none
  | body :: rest => do
    match ← I.firstReturn site env body with
    | some k => return some k
    | none => firstReturnIn env rest

/-- The first value that a block returns, in the order of its text. -/
def inferFirstReturn (env : Env) : List Expr → Recall (Option Kind)
  | [] => return none
  | .call ts c :: rest =>
    if c.isBinding then do
      let b ← inferBinding scope I site env (.call ts c)
      inferFirstReturn ((c.name, b) :: env) rest
    else if c.name == "return" then
      match c.args with
      | value :: _ => do
        let operand ← I.operand site env value
        return some operand.kind
      | [] => inferFirstReturn env rest
    else do
      match ← firstReturnIn I site env c.blocks with
      | some k => return some k
      | none => inferFirstReturn env rest
  | _ :: rest => inferFirstReturn env rest

end

def Inferrer.atDepth (scope : Scope) : Nat → Inferrer
  | 0 => { operand := fun _ _ _ => .tooDeep, firstReturn := fun _ _ _ => .tooDeep }
  | n + 1 => {
      operand := fun site env e => inferOperand scope (atDepth scope n) site env e
      firstReturn := fun site env l => inferFirstReturn scope (atDepth scope n) site env l }

end FlatCode.Check
