import FlatCode.Program.Basic
import FlatCode.Json.Number
import FlatCode.Json.Reader
import FlatCode.Json.Printer

/-! Programs as JSON. A record is an object, or an array of its fields in order from which the last ones may be
    missing; unknown fields of an object are skipped, known ones stand at most once. A value of an enumeration
    is an object with one field. Arrays and objects nest to a limited depth, which skipped values do not use. -/

namespace FlatCode

namespace Json

/-- The values of the named fields of a record; `none` at a name whose field is missing. -/
def slots? (names : List String) : Json → Option (List (Option Json))
  | .object fields =>
    if fields.all fun (key, _) => key.isSome then
      names.mapM fun name =>
        match valuesAt name fields with
        | [] => some none
        | [v] => some (some v)
        | _ => none
    else none
  | .array elements =>
    if elements.length ≤ names.length then
      some (elements.map some ++ List.replicate (names.length - elements.length) none)
    else none
  | _ => none

def variant? : Json → Option (String × Json)
  | .object [(some key, v)] => some (key, v)
  | _ => none

/-- A field that must be present. -/
def required {α : Type} (read : Json → Option α) (slot : Option Json) : Option α := slot.bind read

/-- A field that stands for `default` when it is missing. -/
def optional {α : Type} (default : α) (read : Json → Option α) : Option Json → Option α
  | none => some default
  | some j => read j

def nullable {α : Type} (read : Json → Option α) : Json → Option (Option α)
  | .null => some none
  | j => (read j).map some

/-- An array; `room` is the number of arrays and objects that may still nest. -/
def list? {α : Type} (room : Nat) (read : Nat → Json → Option α) : Json → Option (List α)
  | .array elements =>
    match room with
    | 0 => none
    | room + 1 => elements.mapM (read room)
  | _ => none

def strings? (room : Nat) : Json → Option (List String) := list? room fun _ => string?

def labels? (room : Nat) : Json → Option (List (Option String)) := list? room fun _ => nullable string?

end Json

open Json

/-! ### Reading -/

namespace Transform

def ofJson? (room : Nat) (j : Json) : Option Transform :=
  match room with
  | 0 => none
  | room + 1 => do
    match ← slots? ["name", "template_args", "arguments"] j with
    | [name, templateArgs, arguments] =>
      return {
        name := ← required string? name
        templateArgs := ← optional [] (strings? room) templateArgs
        arguments := ← optional [] (strings? room) arguments }
    | _ => none

def listOfJson? (room : Nat) : Json → Option (List Transform) := list? room ofJson?

end Transform

namespace Literal

/-- A case of an enumeration without a value: its name, or an object with its name over `null`. -/
def caseName? (room : Nat) : Json → Option String
  | .string text => text
  | j =>
    match room, variant? j with
    | _ + 1, some (name, .null) => some name
    | _, _ => none

def intWidth? (room : Nat) (j : Json) : Option IntWidth := do
  match ← caseName? room j with
  | "I32" => some .i32
  | "I64" => some .i64
  | _ => none

def floatWidth? (room : Nat) (j : Json) : Option FloatWidth := do
  match ← caseName? room j with
  | "F32" => some .f32
  | "F64" => some .f64
  | _ => none

def sized? {α β : Type} (room : Nat) (value : Json → Option α) (width : Nat → Json → Option β) (j : Json) :
    Option (α × β) :=
  match room with
  | 0 => none
  | room + 1 => do
    match ← slots? ["value", "width"] j with
    | [v, w] => return (← required value v, ← required (width room) w)
    | _ => none

def ofJson? (room : Nat) (j : Json) : Option Literal :=
  match room with
  | 0 => none
  | room + 1 => do
    let (name, v) ← variant? j
    match name with
    | "Int" => (sized? room int64? intWidth? v).map fun (n, w) => .int n w
    | "UInt" => (uint64? v).map .uint
    | "Float" => (sized? room double? floatWidth? v).map fun (x, w) => .float x w
    | "Bool" => (bool? v).map .bool
    | "String" => (string? v).map .string
    | _ => none

end Literal

/-- An expression without its transforms: a literal, a name or a call. -/
def Expr.kind : Expr → Literal ⊕ String ⊕ Call
  | .literal _ l => .inl l
  | .name _ x => .inr (.inl x)
  | .call _ c => .inr (.inr c)

def Expr.ofKind (ts : List Transform) : Literal ⊕ String ⊕ Call → Expr
  | .inl l => .literal ts l
  | .inr (.inl x) => .name ts x
  | .inr (.inr c) => .call ts c

mutual

/-- An expression: a record of its kind and its transforms. -/
def Expr.ofJson? (room : Nat) (j : Json) : Option Expr :=
  match room with
  | 0 => none
  | room + 1 => do
    match ← slots? ["kind", "transforms"] j with
    | [kind, transforms] =>
      return .ofKind (← optional [] (Transform.listOfJson? room) transforms) (← required (Expr.kindOfJson? room) kind)
    | _ => none

def Expr.kindOfJson? (room : Nat) (j : Json) : Option (Literal ⊕ String ⊕ Call) :=
  match room with
  | 0 => none
  | room + 1 => do
    let (name, v) ← variant? j
    match name with
    | "Literal" => (Literal.ofJson? room v).map .inl
    | "Name" => (string? v).map (.inr <| .inl ·)
    | "Call" => (Call.ofJson? room v).map (.inr <| .inr ·)
    | _ => none

def Call.ofJson? (room : Nat) (j : Json) : Option Call :=
  match room with
  | 0 => none
  | room + 1 => do
    match ← slots? ["name", "args", "arg_names", "body", "template_args", "is_binding", "is_method_call"] j with
    | [name, args, labels, body, templateArgs, isBinding, isMethod] =>
      return {
        name := ← required string? name
        args := ← optional [] (Expr.listOfJson? room) args
        labels := ← optional [] (labels? room) labels
        body := ← optional none (nullable (Expr.listOfJson? room)) body
        templateArgs := ← optional [] (strings? room) templateArgs
        isBinding := ← optional false bool? isBinding
        isMethod := ← optional false bool? isMethod }
    | _ => none

def Expr.listOfJson? (room : Nat) (j : Json) : Option (List Expr) :=
  match room, j with
  | room + 1, .array elements => elements.mapM (Expr.ofJson? room)
  | _, _ => none

end

def Definition.ofJson? (room : Nat) (j : Json) : Option Definition :=
  match room with
  | 0 => none
  | room + 1 => do
    let names := ["full_path", "transforms", "template_args", "parameters", "statements", "return_expr"]
    match ← slots? names j with
    | [path, transforms, templateArgs, parameters, statements, result] =>
      return {
        path := ← required string? path
        transforms := ← optional [] (Transform.listOfJson? room) transforms
        templateArgs := ← optional [] (strings? room) templateArgs
        parameters := ← optional [] (Expr.listOfJson? room) parameters
        statements := ← optional [] (Expr.listOfJson? room) statements
        result := ← optional none (nullable (Expr.ofJson? room)) result }
    | _ => none

def Execution.ofJson? (room : Nat) (j : Json) : Option Execution :=
  match room with
  | 0 => none
  | room + 1 => do
    match ← slots? ["full_path", "transforms", "arguments", "argument_names", "body"] j with
    | [path, transforms, arguments, labels, body] =>
      return {
        path := ← required string? path
        transforms := ← optional [] (Transform.listOfJson? room) transforms
        arguments := ← optional [] (Expr.listOfJson? room) arguments
        labels := ← optional [] (labels? room) labels
        body := ← optional [] (Expr.listOfJson? room) body }
    | _ => none

namespace Program

/-- How many arrays and objects may nest in a program. -/
def nestingLimit : Nat := 127

def ofJson? (room : Nat) (j : Json) : Option Program :=
  match room with
  | 0 => none
  | room + 1 => do
    match ← slots? ["imports", "definitions", "executions"] j with
    | [imports, definitions, executions] =>
      return {
        imports := ← optional [] (strings? room) imports
        definitions := ← optional [] (list? room Definition.ofJson?) definitions
        executions := ← optional [] (list? room Execution.ofJson?) executions }
    | _ => none

def parse? (text : String) : Option Program := (Json.parse text).toOption.bind (ofJson? nestingLimit)

end Program

/-! ### Writing -/

namespace Json

def ofOption {α : Type} (write : α → Json) : Option α → Json
  | none => .null
  | some a => write a

def labelList (l : List (Option String)) : Json := .array (l.map (ofOption str))

end Json

def Transform.toJson (t : Transform) : Json :=
  record [("name", str t.name), ("template_args", strs t.templateArgs), ("arguments", strs t.arguments)]

def Transform.listToJson (l : List Transform) : Json := .array (l.map Transform.toJson)

def IntWidth.caseName : IntWidth → String
  | .i32 => "I32"
  | .i64 => "I64"

def FloatWidth.caseName : FloatWidth → String
  | .f32 => "F32"
  | .f64 => "F64"

def Literal.toJson : Literal → Json
  | .int n w => record [("Int", record [("value", ofInt n.toInt), ("width", str w.caseName)])]
  | .uint n => record [("UInt", ofInt n.toNat)]
  | .float x w => record [("Float", record [("value", ofDouble x), ("width", str w.caseName)])]
  | .bool b => record [("Bool", .bool b)]
  | .string s => record [("String", str s)]

mutual

def Expr.toJson : Expr → Json
  | .literal ts v =>
    record [("kind", record [("Literal", v.toJson)]), ("transforms", Transform.listToJson ts)]
  | .name ts x => record [("kind", record [("Name", str x)]), ("transforms", Transform.listToJson ts)]
  | .call ts c => record [("kind", record [("Call", Call.toJson c)]), ("transforms", Transform.listToJson ts)]

def Call.toJson : Call → Json
  | ⟨callee, args, ls, body, templateArgs, isBinding, isMethod⟩ =>
    record [
      ("name", str callee), ("args", .array (Expr.listToJson args)), ("arg_names", labelList ls),
      ("body", Expr.bodyToJson body), ("template_args", strs templateArgs), ("is_binding", .bool isBinding),
      ("is_method_call", .bool isMethod)]

def Expr.listToJson : List Expr → List Json
  | [] => []
  | e :: l => e.toJson :: Expr.listToJson l

def Expr.bodyToJson : Option (List Expr) → Json
  | none => .null
  | some l => .array (Expr.listToJson l)

end

def Definition.toJson (d : Definition) : Json :=
  record [
    ("full_path", str d.path), ("transforms", Transform.listToJson d.transforms),
    ("template_args", strs d.templateArgs), ("parameters", .array (Expr.listToJson d.parameters)),
    ("statements", .array (Expr.listToJson d.statements)), ("return_expr", ofOption Expr.toJson d.result)]

def Execution.toJson (e : Execution) : Json :=
  record [
    ("full_path", str e.path), ("transforms", Transform.listToJson e.transforms),
    ("arguments", .array (Expr.listToJson e.arguments)), ("argument_names", labelList e.labels),
    ("body", .array (Expr.listToJson e.body))]

def Program.toJson (p : Program) : Json :=
  record [
    ("imports", strs p.imports), ("definitions", .array (p.definitions.map Definition.toJson)),
    ("executions", .array (p.executions.map Execution.toJson))]

def Program.render (p : Program) : String := p.toJson.pretty

end FlatCode
