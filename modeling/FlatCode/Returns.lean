import FlatCode.Program.Basic

/-! Which statements are certain to leave the definition they stand in, and whether a `return` occurs at all. -/

namespace FlatCode.Returns

/-- A block without a call of its own, as in `then() { ... }`. -/
def isEnvelope : Expr → Bool
  | .call _ c => c.isPlain && c.args.isEmpty && c.templateArgs.isEmpty && !c.hasLabels && c.body.isSome
  | _ => false

mutual

/-- Whether a statement always returns: a `return`, an `if` both of whose branches do, or a `block` or `repeat`
    with a statement that does. A branch of an `if` may also be an envelope with a statement that does. -/
def leaves (asBranch : Bool) : Expr → Bool
  | .call _ ⟨name, args, labels, body, templateArgs, isBinding, isMethod⟩ =>
    let bare := args.isEmpty && templateArgs.isEmpty && !labels.any Option.isSome
    if isBinding || isMethod then false
    else if asBranch && bare && body.isSome then bodyLeaves body
    else if name == "return" then true
    else if name == "if" then
      match args with
      | [_, yes, no] => leaves true yes && leaves true no
      | _ => false
    else if name == "block" || name == "repeat" then bodyLeaves body
    else false
  | _ => false

def listLeaves : List Expr → Bool
  | [] => false
  | e :: rest => leaves false e || listLeaves rest

def bodyLeaves : Option (List Expr) → Bool
  | none => false
  | some l => listLeaves l

end

def always (stmt : Expr) : Bool := leaves false stmt

def blockAlways (stmts : List Expr) : Bool := listLeaves stmts

mutual

/-- Whether a `return` occurs in an expression, at any depth; with `valued` only one with an argument counts. -/
def occurs (valued : Bool) : Expr → Bool
  | .call _ ⟨name, args, _, body, _, isBinding, isMethod⟩ =>
    (!isBinding && !isMethod && name == "return" && (!valued || !args.isEmpty))
      || occursInList valued args || occursInBody valued body
  | _ => false

def occursInList (valued : Bool) : List Expr → Bool
  | [] => false
  | e :: rest => occurs valued e || occursInList valued rest

def occursInBody (valued : Bool) : Option (List Expr) → Bool
  | none => false
  | some l => occursInList valued l

end

def contains (stmts : List Expr) : Bool := occursInList false stmts

def containsValue (stmts : List Expr) : Bool := occursInList true stmts

end FlatCode.Returns
