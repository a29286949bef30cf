import FlatCode.Effect.Set
import FlatCode.Lower.Inference

/-! What lowering depends on, and how expressions are emitted as operands. -/

namespace FlatCode.Lower

/-- Where a `return` leads: out of the run, or to the end of an expansion, whose result goes to a slot. -/
inductive Target where
  | run (returns : ReturnInfo)
  | expansion (returns : ReturnInfo) (slot : Option Nat)

/-- What is known where an expression is lowered: the definition it stands in, the effects in force, the definitions
    that are being expanded, where a `return` leads, and how many operands of the body wait on the stack. -/
structure Context where
  scope : Scope
  inferrer : Inferrer
  defaults : EffectSet
  home : String
  effects : EffectSet
  expanding : List String
  target : Target
  waiting : Nat := 0

namespace Context
variable (ctx : Context)

def inside (e : Expr) : Except Error Context := do
  return { ctx with effects := ← ctx.effects.inside ctx.home e }

/-- The context behind an operand that waits on the stack. -/
def behind : Context := { ctx with waiting := ctx.waiting + 1 }

def site : Site := { home := ctx.home }

def operand (locals : Locals) (e : Expr) : Lowering Operand := infer (ctx.inferrer.operand ctx.site locals e)

def callee (locals : Locals) (c : Call) : Lowering Definition :=
  infer (Lower.callee ctx.scope ctx.inferrer ctx.site locals c)

def returnInfo (d : Definition) : Lowering ReturnInfo := infer (Lower.returnInfo ctx.scope ctx.inferrer [] d)

end Context

/-- Lowering to some depth: of expressions, which leave one word on the stack, and of statements, which leave none
    and may bring names into scope. -/
structure Emitter where
  expr : Context → Locals → Expr → Lowering Operand
  statement : Context → Locals → Expr → Lowering Locals

namespace Emitter
variable (E : Emitter) (ctx : Context)

def statements (locals : Locals) : List Expr → Lowering Locals
  | [] => return locals
  | e :: rest => do statements (← E.statement ctx locals e) rest

def block (locals : Locals) (body : List Expr) : Lowering Unit := do
  let _ ← E.statements ctx locals body

def exprAt (locals : Locals) (e : Expr) (w : Width) : Lowering Unit := do
  let operand ← E.expr ctx locals e
  coerce operand.kind w.kind

def condition (locals : Locals) (fault : TypeError) (e : Expr) : Lowering Unit := do
  if !(← E.expr ctx locals e).isCondition then throw (.type fault)

/-- Emits a block for the value of its last statement. After a `return` in its place a word is pushed, so that both
    ways through a branch agree. -/
def blockValue (locals : Locals) (body : List Expr) : Lowering Operand :=
  match body.getLast? with
  | none => throw (.type .valuelessBlock)
  | some last => do
    let inner ← E.statements ctx locals body.dropLast
    if last.isBinding then throw (.type .valuelessBlock)
    if last.isCallTo "return" then
      let _ ← E.statement ctx inner last
      emitWith .pushI32 0
      return .unknown
    E.expr ctx inner last

end Emitter
end FlatCode.Lower
