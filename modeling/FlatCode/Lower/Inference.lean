import FlatCode.Lower.Basic

/-! The kinds of expressions that can be lowered. Widths are chosen from them before any operand is emitted. -/

namespace FlatCode.Lower

def Local.isArguments (l : Local) : Bool := l.type.shape == .array && l.type.kind == .string

def Local.collection? (l : Local) : Option BindingType :=
  if l.type.shape.isCollection && !l.isArguments then some { l.type with struct := none } else none

def isArguments (locals : Locals) : Expr → Bool
  | .name _ x => (locals.lookup x).any Local.isArguments
  | _ => false

def collection? (locals : Locals) : Expr → Except Error (Option BindingType)
  | .name _ x => .ok ((locals.lookup x).bind Local.collection?)
  | .call _ c => BindingType.ofLiteral? [] c
  | .literal .. => .ok none

def readable (locals : Locals) (x : String) : Except Error Local :=
  match locals.lookup x with
  | none => .error (.lowering (.unknownName x))
  | some l =>
    match l.collection? with
    | some type => .error (.lowering (.collectionAsValue type.text x))
    | none => if l.type.shape.isCollection then .error (.lowering (.arrayAsValue x)) else .ok l

def Local.operand (l : Local) : Operand :=
  if l.type.shape = .pointer then .pointer l.type.kind else .value l.type.kind

def addressable (locals : Locals) (x : String) : Except Error Local :=
  match locals.lookup x with
  | none => .error (.lowering (.unknownName x))
  | some l => if l.type.kind = .string then .error (.lowering .stringAddress) else .ok l

def reference? (locals : Locals) : Expr → Option Local
  | .name _ x =>
    match locals.lookup x with
    | some l => if l.type.shape = .reference then some l else none
    | none => none
  | _ => none

/-- Whether elements of a kind can be held in slots; an unknown kind is settled by the literal. -/
def isElement (k : Kind) : Bool := k == .unknown || k.width?.isSome

/-- Refuses the types of bindings that have no code. -/
def checkSupported (name : String) (type : BindingType) : Except Error Unit :=
  match type.shape with
  | .value => .ok ()
  | .pointer | .reference => if type.kind = .string then .error (.lowering .stringAddress) else .ok ()
  | shape =>
    if shape = .array ∧ type.kind = .string then .ok ()
    else if isElement type.kind && (shape != .map || isElement type.key) then .ok ()
    else .error (.lowering (.collectionElement name))

def mergeBranches (a b : Operand) : Except Error Operand :=
  if a.kind = .unknown then .ok b
  else if b.kind = .unknown then .ok a
  else if a = b then .ok a
  else if a.kind.isNumeric && b.kind.isNumeric && !a.isPointer && !b.isPointer then
    match ArithmeticOp.plus.resolve a b with
    | .ok r => .ok r.result
    | .error _ => .error (.type .branchMismatch)
  else .error (.type .branchMismatch)

structure Inferrer where
  operand : Site → Locals → Expr → Infer Operand
  firstReturn : Site → Locals → List Expr → Recall (Option Kind)

section
variable (scope : Scope) (I : Inferrer) (site : Site)

/-- The local that a declaration with the given initial value introduces; its slot is chosen later. -/
def inferLocal (locals : Locals) (e : Expr) (init : Option Expr) : Infer Local := do
  let name := e.boundName?.getD "?"
  let mutable := isMutable e.transforms
  match ← BindingType.declared? scope [] e.transforms with
  | some type =>
    checkSupported name type
    return { mutable, type }
  | none =>
    match init with
    | none => throw (.lowering (.untypedBinding name))
    | some init =>
      if isArguments locals init then return { mutable, type := { shape := .array, kind := .string } }
      match ← collection? locals init with
      | some type => return { mutable, type }
      | none =>
        match ← I.operand site locals init with
        | .pointer .string => throw (.lowering .stringAddress)
        | .value .unknown => throw (.lowering (.uninferredBinding name))
        | operand => return { mutable, type := .ofOperand operand (scope.built? init site.home) }

def inferLocals (locals : Locals) : List Expr → Infer Locals
  | [] => return locals
  | e :: rest =>
    match e.boundName? with
    | none => inferLocals locals rest
    | some name => do
      let l ← inferLocal scope I site locals e e.initial?
      inferLocals ((name, l) :: locals) rest

/-- The scope with one declaration more, if its type can be told. -/
def tryLocal (locals : Locals) (e : Expr) : Recall Locals := do
  match e.boundName? with
  | none => return locals
  | some name =>
    match ← (inferLocal scope I site locals e e.initial?).run with
    | .ok l => return (name, l) :: locals
    | .error _ => return locals

def inferParameters (locals : Locals) : List Expr → Recall Locals
  | [] => return locals
  | e :: rest => do inferParameters (← tryLocal scope I site locals e) rest

def receiverStruct? (locals : Locals) (receiver : Expr) : Option String :=
  match receiver with
  | .name _ x => (locals.lookup x).bind (·.type.struct)
  | _ => scope.built? receiver site.home

def callee (locals : Locals) (c : Call) : Infer Definition := do
  if c.isMethod then
    match c.args with
    | [] => throw (.callShape (.missingReceiver c.name))
    | receiver :: _ =>
      let owner ← match receiverStruct? scope site locals receiver with
        | some path => pure path
        | none => do
          let operand ← I.operand site locals receiver
          pure (Path.atRoot operand.kind.typeName)
      let path := owner ++ "/" ++ c.name
      match scope.get? path with
      | some d => return d
      | none => throw (.structural (.unknownCall path))
  else
    match scope.resolve? c.name site.home with
    | some d => return d
    | none => throw (.structural (.unknownCall c.name))

def inferResult (busy : List String) (d : Definition) : Recall Kind := do
  let site : Site := { home := d.path, busy }
  let locals ← inferParameters scope I site [] d.parameters
  return (← I.firstReturn site locals d.body).getD .unknown

def returnInfo (busy : List String) (d : Definition) : Infer ReturnInfo := d.returnInfo (inferResult scope I) busy

def inferCall (locals : Locals) (c : Call) : Infer Operand := do
  let d ← callee scope I site locals c
  if d.isStruct then return .value .int32
  else
    let info ← returnInfo scope I site.busy d
    if info.isVoid then throw (.lowering (.voidCall d.path))
    return .value info.kind

def inferBlock (locals : Locals) (body : List Expr) : Infer Operand :=
  match body.getLast? with
  | none => throw (.type .valuelessBlock)
  | some last => do
    let inner ← inferLocals scope I site locals body.dropLast
    if last.isBinding then throw (.type .valuelessBlock)
    if last.isCallTo "return" then return .unknown
    I.operand site inner last

def inferBranches (locals : Locals) : List Expr → Infer (List Operand)
  | [] => return []
  | branch :: rest => do
    match branch.body? with
    | none => throw (.callShape .branchEnvelope)
    | some body =>
      let operand ← inferBlock scope I site locals body
      return operand :: (← inferBranches locals rest)

def inferIf (locals : Locals) (c : Call) : Infer Operand := do
  match ← inferBranches scope I site locals (c.args.drop 1) with
  | [a, b] => mergeBranches a b
  | _ => throw (.callShape (.builtinArity c.name))

/-- What an index reads: an argument of the run, an element of a collection, or a byte of a string. -/
def inferIndex (locals : Locals) (c : Call) : Infer Operand := do
  let target ← c.argument 0
  if isArguments locals target then return .value .string
  match ← collection? locals target with
  | some type => return .value type.kind
  | none =>
    match ← I.operand site locals target with
    | .value .string => return .value .int32
    | _ => throw (.type (.notIndexable c.name))

def inferBuiltin (locals : Locals) (c : Call) : BuiltinClass → Infer Operand
  | .arithmetic op => do
    let l ← I.operand site locals (← c.argument 0)
    let r ← I.operand site locals (← c.argument 1)
    return (← op.resolve l r).result
  | .negate => do
    let operand ← I.operand site locals (← c.argument 0)
    return .value (← resolveNegate operand).kind
  | .comparison _ | .conjunction | .disjunction | .not => return .value .bool
  | .math _ => do
    let operands ← c.args.mapM (I.operand site locals)
    return .value (← resolveMath c.name operands).kind
  | .convert => do return .value (← c.convertTarget)
  | .location => do
    match ← c.argument 0 with
    | .name _ x => return .pointer (← addressable locals x).type.kind
    | _ => throw (.type .locationTarget)
  | .dereference => do
    let target ← c.argument 0
    match reference? locals target with
    | some l => return .value l.type.kind
    | none =>
      match ← I.operand site locals target with
      | .pointer k => return .value k
      | .value _ => throw (.type .dereferenceTarget)
  | .assign | .step _ => do
    let target ← c.argument 0
    match reference? locals target with
    | some l => return .value l.type.kind
    | none => I.operand site locals target
  | .ifElse => inferIf scope I site locals c
  | .block => inferBlock scope I site locals (c.body.getD [])
  | .count => return .value .int32
  | .index _ => inferIndex I site locals c
  | .collection _ => throw (.lowering (.collectionLiteral c.name))
  | .heap => throw (.lowering (.heap c.name))
  | .pathspace => throw (.lowering (.pathspace c.name))
  | .ret | .repeatLoop | .countedLoop | .whileLoop | .forLoop | .print .. => throw (.type (.noValue c.name))

def inferOperand (locals : Locals) : Expr → Infer Operand
  | .literal _ l => return .value (Kind.ofLiteral l)
  | .name _ x => do return (← readable locals x).operand
  | .call _ c =>
    if c.isBinding then throw (.structural (.bindingAsValue c.name))
    else match c.builtin? with
      | some b => inferBuiltin scope I site locals c b.cls
      | none => inferCall scope I site locals c

def firstReturnIn (locals : Locals) : List (List Expr) → Recall (Option Kind)
  | [] => return none
  | body :: rest => do
    match ← I.firstReturn site locals body with
    | some k => return some k
    | none => firstReturnIn locals rest

/-- The first value that a block returns, in the order of its text; `none` if its kind cannot be told. -/
def inferFirstReturn (locals : Locals) : List Expr → Recall (Option Kind)
  | [] => return none
  | e :: rest =>
    match e with
    | .call _ c =>
      if c.isBinding then do inferFirstReturn (← tryLocal scope I site locals e) rest
      else if e.isCallTo "return" then
        match c.args with
        | value :: _ => do
          match ← (I.operand site locals value).run with
          | .ok operand => return some operand.kind
          | .error _ => return none
        | [] => inferFirstReturn locals rest
      else do
        match ← firstReturnIn I site locals c.blocks with
        | some k => return some k
        | none => inferFirstReturn locals rest
    | _ => inferFirstReturn locals rest

end

def Inferrer.atDepth (scope : Scope) : Nat → Inferrer
  | 0 => { operand := fun _ _ _ => ExceptT.mk Recall.tooDeep, firstReturn := fun _ _ _ => .tooDeep }
  | n + 1 => {
      operand := fun site locals e => inferOperand scope (atDepth scope n) site locals e
      firstReturn := fun site locals l => inferFirstReturn scope (atDepth scope n) site locals l }

end FlatCode.Lower
