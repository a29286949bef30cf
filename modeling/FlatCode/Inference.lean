import FlatCode.Binding
import FlatCode.Returns

/-! The results of definitions. A declared result is taken as it is; any other is inferred from the body and
    remembered. While a result is being inferred, it counts as unknown inside the same body. -/

namespace FlatCode

abbrev ReturnCache := List (String × ReturnInfo)

/-- A computation that remembers results; it gives up when it gets too deep. -/
abbrev Recall (α : Type) := StateT ReturnCache Option α

def Recall.tooDeep {α : Type} : Recall α := fun _ => none

/-- A computation that may fail, and then keeps the results that it has found so far. -/
abbrev Infer (α : Type) := ExceptT Error (StateT ReturnCache Option) α

/-- Where an expression stands: in the definition at `home`, while the results of `busy` are being inferred. -/
structure Site where
  home : String
  busy : List String := []

def ReturnCache.remember (path : String) (info : ReturnInfo) : Recall ReturnInfo := do
  modify ((path, info) :: ·)
  return info

/-- What a definition returns; `infer` finds the kind of a result that is not declared. -/
def Definition.returnInfo (infer : List String → Definition → Recall Kind) (busy : List String) (d : Definition) :
    Infer ReturnInfo := do
  match (← get).lookup d.path with
  | some info => return info
  | none =>
    match ← ReturnInfo.declared? d with
    | some info => ReturnCache.remember d.path info
    | none =>
      if d.isStruct || !Returns.containsValue d.body then ReturnCache.remember d.path .void
      else if busy.contains d.path then return .value .unknown
      else ReturnCache.remember d.path (.value (← infer (d.path :: busy) d))

def Returns.branchBody (branch : Expr) : Except Error (List Expr) :=
  if Returns.isEnvelope branch then .ok (branch.body?.getD []) else .error (.callShape .branchEnvelope)

/-- A depth that suffices for checking any program, and for lowering one in which no default of a parameter calls a
    definition. Such calls are expanded where the parameter is bound, and may be nested deeper. -/
def Program.depth (p : Program) : Nat := (p.definitions.length + 1) * (2 * p.size + 8)

end FlatCode
