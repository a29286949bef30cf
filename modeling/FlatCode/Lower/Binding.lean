import FlatCode.Lower.Collection

/-! Giving bindings and parameters their slots and initial values. -/

namespace FlatCode.Lower

section
variable (E : Emitter) (ctx : Context)

/-- The local of a declaration, before it has a slot. The type of a parameter that cannot be told is `i32`. The
    initial value is read in the scope `locals` of the given site. -/
def declaredLocal (site : Site) (locals : Locals) (e : Expr) (init : Option Expr) (parameter : Bool) :
    Lowering Local := do
  let typed := (← BindingType.declared? ctx.scope [] e.transforms).isSome
  let collection ← match init with
    | some init => do
      if isArguments locals init then pure true else pure (← collection? locals init).isSome
    | none => pure false
  let infer := Lower.infer (inferLocal ctx.scope ctx.inferrer site locals e init)
  match init with
  | none => infer
  | some init =>
    if parameter && !typed && !collection then
      if (← Lower.infer (ctx.inferrer.operand site locals init)) == .unknown then
        return { mutable := isMutable e.transforms, type := .scalar .int32 }
      else infer
    else infer

def bindArguments (locals : Locals) (init : Option Expr) : Except Error Local :=
  match init with
  | some (.name _ x) =>
    match locals.lookup x with
    | some l => if l.isArguments then .ok l else .error (.lowering .argumentArray)
    | none => .error (.lowering .argumentArray)
  | _ => .error (.lowering .argumentArray)

/-- A collection, held by its address. An element kind that is not declared is that of the initial value. -/
def bindCollection (locals : Locals) (name : String) (init : Option Expr) (l : Local) : Lowering Local := do
  match init with
  | none => throw (.lowering (.collectionWithoutValue name))
  | some init =>
    let slot ← newSlot
    let built ← emitCollection E ctx locals init
    let open_ := l.type.kind == .unknown || (l.type.shape == .map && l.type.key == .unknown)
    if !open_ && !sameLayout l.type built then throw (.type (.bindingMismatch name))
    store slot
    return { l with slot, type := { built with struct := l.type.struct } }

/-- Leaves the index of a text, in the table or among the arguments, and says where the text comes from. -/
def emitText (locals : Locals) (init : Expr) : Lowering TextSource :=
  match init with
  | .literal _ (.string text) => do
    let index ← internText text
    emitWith .pushI64 (UInt64.ofNat index)
    return .table index
  | .literal .. => throw (.lowering .stringSource)
  | .name _ x =>
    match locals.lookup x with
    | none => throw (.lowering (.unknownString x))
    | some l =>
      if l.type.kind != .string then throw (.lowering (.unknownString x))
      else match l.text with
        | .none => throw (.lowering (.unknownString x))
        | .table index => do
          emitWith .pushI64 (UInt64.ofNat index)
          return .table index
        | .argument checked => do
          load l.slot
          return .argument checked
  | .call _ c =>
    if init.isCallTo "at" then do
      emitArgumentIndex E ctx locals c true
      return .argument true
    else if init.isCallTo "at_unsafe" then do
      emitArgumentIndex E ctx locals c false
      return .argument false
    else throw (.lowering .stringSource)

def bindText (locals : Locals) (name : String) (init : Option Expr) (l : Local) : Lowering Local := do
  let slot ← newSlot
  match init with
  | none => throw (.lowering (.stringWithoutValue name))
  | some init =>
    let text ← emitText E ctx locals init
    store slot
    return { l with slot, text }

def bindWord (locals : Locals) (init : Option Expr) (l : Local) : Lowering Local := do
  let slot ← newSlot
  match init with
  | some init =>
    let operand ← E.expr ctx locals init
    if l.type.shape = .value then coerce operand.kind l.type.kind
  | none => pushInt (l.type.kind.width?.getD .i32) 0
  store slot
  return { l with slot }

/-- Gives a declaration its slot and its initial value, which is read in the scope `locals` of the given site. -/
def bindLocal (site : Site) (locals : Locals) (e : Expr) (init : Option Expr) (parameter : Bool) :
    Lowering (String × Local) := do
  match e.boundName? with
  | none => throw (.structural .namelessBinding)
  | some name =>
    let l ← declaredLocal ctx site locals e init parameter
    let bound ←
      if l.isArguments then bindArguments locals init
      else if l.type.shape.isCollection then bindCollection E ctx locals name init l
      else if l.type.kind = .string ∧ l.type.shape = .value then bindText E ctx locals name init l
      else bindWord E ctx locals init l
    return (name, bound)

end
end FlatCode.Lower
