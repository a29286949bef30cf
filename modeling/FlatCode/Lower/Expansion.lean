import FlatCode.Arguments
import FlatCode.Lower.Binding

/-! Expansion of calls in place. Each expansion has fresh slots for its parameters and its result; a `return` in it
    stores the result and jumps to its end. A definition is not expanded inside itself. -/

namespace FlatCode.Lower

section
variable (E : Emitter) (ctx : Context)

/-- Binds parameters. Arguments are read in the scope of the caller, defaults in that of the parameters before. -/
def bindParameters (caller : Locals) (callee : Definition) (args : List Expr) (locals : Locals) :
    List (Expr × Filling) → Lowering Locals
  | [] => return locals
  | (param, filling) :: rest => do
    let bound ← match filling with
      | .argument i => bindLocal E ctx ctx.site caller param args[i]? true
      | .default => bindLocal E ctx { home := callee.path } locals param param.initial? true
    bindParameters caller callee args (bound :: locals) rest

def resultSlot (returns : ReturnInfo) : Lowering (Option Nat) :=
  if returns.isVoid then return none
  else do
    let slot ← newSlot
    pushInt (returns.kind.width?.getD .i32) 0
    store slot
    return some slot

/-- Lowers a body whose `return`s all lead to its end, and gives their exits. -/
def emitBody (locals : Locals) (body : List Expr) : Lowering (List Exit) := do
  let outer := (← get).exits
  modify fun s => { s with exits := [] }
  E.block ctx locals body
  let exits := (← get).exits
  exits.forM fun x => closeJump x.position
  modify fun s => { s with exits := outer }
  return exits

def noteExpansion (callee : String) (start : Nat) (exits : List Exit) : Lowering Unit := modify fun s =>
  { s with expansions := { callee, start, stop := s.code.size, exits } :: s.expansions }

def bodyContext (callee : Definition) (effects : EffectSet) (returns : ReturnInfo) (slot : Option Nat) : Context :=
  { ctx with
    home := callee.path
    effects
    expanding := callee.path :: ctx.expanding
    target := .expansion returns slot
    waiting := 0 }

/-- Expands a call; the result is the kind of the value, which is left on the stack if it is needed. -/
def expand (locals : Locals) (c : Call) (callee : Definition) (valueNeeded : Bool) : Lowering (Option Kind) := do
  if ctx.expanding.contains callee.path then throw (.lowering (.recursiveCall callee.path))
  if c.body.isSome then throw (.lowering .blockOnCall)
  let params ← callee.callParameters
  let fillings ← Arguments.order callee.path params c.args.length c.labels
  if callee.isStruct then
    if valueNeeded then emitWith .pushI32 0
    return some .int32
  let returns ← ctx.returnInfo callee
  if valueNeeded && returns.isVoid then throw (.lowering (.voidCall callee.path))
  let effects ← EffectSet.active callee.transforms ctx.defaults callee.path
  let start ← here
  let calleeLocals ← bindParameters E ctx locals callee c.args [] (params.zip fillings)
  let slot ← resultSlot returns
  let exits ← emitBody E (bodyContext ctx callee effects returns slot) calleeLocals callee.body
  noteExpansion callee.path start exits
  match slot with
  | none => return none
  | some slot =>
    if valueNeeded then load slot
    return some (if returns.kind = .unknown then .int32 else returns.kind)

end
end FlatCode.Lower
