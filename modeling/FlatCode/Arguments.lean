import FlatCode.Binding

/-! Matching the arguments of a call to parameters. Arguments are taken in order: a labelled one fills the first
    parameter of that name, any other the first free slot from a cursor on, which then moves past it. Slots left free take
    their defaults. -/

namespace FlatCode

/-- What fills a parameter: the argument with this index, or the parameter's own default. -/
inductive Filling where
  | argument (index : Nat)
  | default
deriving DecidableEq, Repr

namespace Arguments

def repeatedLabel? (seen : List String) : List (Option String) → Option String
  | [] => none
  | none :: rest => repeatedLabel? seen rest
  | some l :: rest => if seen.contains l then some l else repeatedLabel? (l :: seen) rest

/-- The first free slot from the cursor on, or one that no parameter has. -/
def nextFree (filled : List (Option Nat)) (cursor : Nat) : Nat :=
  cursor + (filled.drop cursor).findIdx Option.isNone

/-- The slot of one argument, that of its label or the next free one, and the cursor after it. `filled` has an entry for
    each parameter. -/
def slotFor (callee : String) (params : List Expr) (filled : List (Option Nat)) (cursor : Nat) (label : Option String) :
    Except Error (Nat × Nat) :=
  match label with
  | some name =>
    match params.findIdx? (·.boundName? == some name) with
    | none => .error (.callShape (.unknownLabel name))
    | some slot =>
      match filled[slot]? with
      | some (some _) => .error (.callShape (.labelTaken name))
      | _ => .ok (slot, cursor)
  | none =>
    let slot := nextFree filled cursor
    if slot < params.length then .ok (slot, slot + 1) else .error (.callShape (.argumentCount callee))

/-- Places arguments `i`, `i + 1`, ... with the given labels. -/
def place (callee : String) (params : List Expr) (filled : List (Option Nat)) (cursor i : Nat) :
    List (Option String) → Except Error (List (Option Nat))
  | [] => .ok filled
  | label :: rest => do
    let (slot, cursor') ← slotFor callee params filled cursor label
    place callee params (filled.set slot (some i)) cursor' (i + 1) rest

/-- What fills a parameter after all arguments are placed. -/
def fillingOf (callee : String) (param : Expr) : Option Nat → Except Error Filling
  | some i => .ok (.argument i)
  | none => if param.initial?.isSome then .ok .default else .error (.callShape (.argumentCount callee))

/-- The filling of each parameter, for `count` arguments with the given labels. -/
def order (callee : String) (params : List Expr) (count : Nat) (labels : List (Option String)) :
    Except Error (List Filling) :=
  match repeatedLabel? [] labels with
  | some name => .error (.callShape (.duplicateLabel name))
  | none => do
    let aligned := (List.range count).map fun i => (labels[i]?).join
    let filled ← place callee params (params.map fun _ => none) 0 0 aligned
    (params.zip filled).mapM fun (param, slot) => fillingOf callee param slot

end Arguments
end FlatCode
