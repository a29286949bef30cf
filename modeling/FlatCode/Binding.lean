import FlatCode.Builtin
import FlatCode.Program.Transform
import FlatCode.Scope

/-! Types of bindings, fields and results, as their transforms declare them. -/

namespace FlatCode

inductive Shape where
  | value
  | pointer
  | reference
  | map
  | array
  | vector
deriving DecidableEq, Repr

namespace Shape

def isCollection : Shape → Bool
  | .array | .vector | .map => true
  | _ => false

end Shape

def CollectionForm.shape : CollectionForm → Shape
  | .array => .array
  | .vector => .vector
  | .map => .map

/-- The type of a binding: its shape, the kind of its value, target or elements, the kind of its keys, and the
    struct it holds. -/
structure BindingType where
  shape : Shape
  kind : Kind
  key : Kind := .unknown
  struct : Option String := none
deriving DecidableEq, Repr

namespace BindingType

def scalar (k : Kind) : BindingType := { shape := .value, kind := k }

def ofOperand (o : Operand) (struct : Option String) : BindingType :=
  { shape := if o.isPointer then .pointer else .value, kind := o.target, struct }

/-- The names reserved for numbers of arbitrary precision. -/
def softwareNumerics : List String := ["integer", "decimal", "complex"]

def checkSoftwareNumeric (name : String) : Except Error Unit :=
  if softwareNumerics.contains name then .error (.type (.softwareNumeric name)) else .ok ()

/-- The kind that a template argument names; template parameters in scope are unknown. -/
def element (templates : List String) (name : String) : Except Error Kind :=
  if templates.contains name then .ok .unknown
  else do
    checkSoftwareNumeric name
    match Kind.ofTypeName? name with
    | some k => return k
    | none => throw (.type (.unsupportedBindingType name))

def firstTemplate (name : String) : List String → Except Error String
  | [] => .error (.type (.missingTemplate name))
  | t :: _ => .ok t

/-- The type of a collection with the given template arguments. -/
def collection (templates : List String) (form : CollectionForm) (name : String) (args : List String) :
    Except Error BindingType :=
  match form with
  | .map =>
    match args with
    | [key, value] => do
      let kind ← element templates value
      let key ← element templates key
      return { shape := .map, kind, key }
    | _ => .error (.type .mapTypes)
  | form => do
    let t ← firstTemplate name args
    return { shape := form.shape, kind := ← element templates t }

def form? : String → Option CollectionForm
  | "array" => some .array
  | "vector" => some .vector
  | "map" => some .map
  | _ => none

/-- The type that a collection literal builds; `none` for any other call. -/
def ofLiteral? (templates : List String) (c : Call) : Except Error (Option BindingType) :=
  match form? c.name with
  | some form => if c.isPlain then (collection templates form c.name c.templateArgs).map some else .ok none
  | none => .ok none

def ofTransform (scope : Scope) (templates : List String) (t : Transform) : Except Error BindingType := do
  checkSoftwareNumeric t.name
  match t.name with
  | "Pointer" =>
    return { shape := .pointer, kind := ← element templates (← firstTemplate t.name t.templateArgs) }
  | "Reference" =>
    return { shape := .reference, kind := ← element templates (← firstTemplate t.name t.templateArgs) }
  | name =>
    match form? name with
    | some form => collection templates form name t.templateArgs
    | none =>
      if templates.contains name then return scalar .unknown
      else match Kind.ofTypeName? name with
        | some k => return scalar k
        | none =>
          match scope.struct? name with
          | some path => return { scalar .int32 with struct := some path }
          | none => throw (.type (.unsupportedBindingType t.render))

def text (t : BindingType) : String :=
  match t.shape with
  | .map => "map<" ++ t.key.typeName ++ ", " ++ t.kind.typeName ++ ">"
  | .vector => "vector<" ++ t.kind.typeName ++ ">"
  | _ => "array<" ++ t.kind.typeName ++ ">"

/-- The transforms that qualify a binding and do not name its type. -/
def qualifiers : List String := ["mut", "static", "public", "private", "package", "effects"]

/-- The type that the first transform other than a qualifier names. -/
def declared? (scope : Scope) (templates : List String) (transforms : List Transform) :
    Except Error (Option BindingType) :=
  match transforms.find? fun t => !qualifiers.contains t.name with
  | some t => (ofTransform scope templates t).map some
  | none => .ok none

end BindingType

def isMutable (transforms : List Transform) : Bool := transforms.any (·.name == "mut")

def isStatic (transforms : List Transform) : Bool := transforms.any (·.name == "static")

def CallOf.convertTarget {ε : Type} (c : CallOf ε) : Except Error Kind := do
  let target ← BindingType.firstTemplate "convert" c.templateArgs
  BindingType.checkSoftwareNumeric target
  match Kind.ofTypeName? target with
  | none | some .string => throw (.type (.convertTarget target))
  | some k => return k

def Scope.built? (scope : Scope) (e : Expr) (home : String) : Option String :=
  match e with
  | .call _ c =>
    if c.isPlain && (Builtin.lookup? c.name).isNone then
      match scope.resolve? c.name home with
      | some d => if d.isStruct then some d.path else none
      | none => none
    else none
  | _ => none

/-- What a definition returns. -/
structure ReturnInfo where
  isVoid : Bool
  isArray : Bool
  kind : Kind
deriving DecidableEq, Repr

namespace ReturnInfo

def void : ReturnInfo := ⟨true, false, .unknown⟩

def value (k : Kind) : ReturnInfo := ⟨false, false, k⟩

def declared? (d : Definition) : Except Error (Option ReturnInfo) :=
  match d.transforms.reverse.find? (·.name == "return") with
  | none => .ok none
  | some t =>
    match t.templateArgs with
    | [] => .error (.type (.untypedReturn d.path))
    | type :: _ =>
      if type == "void" then .ok (some void)
      else if d.templateArgs.contains type then .ok (some (value .unknown))
      else do
        BindingType.checkSoftwareNumeric type
        match Kind.ofTypeName? type with
        | some k => return some (value k)
        | none =>
          let parsed := Transform.parse type
          match parsed.templateArgs.head?.bind Kind.ofTypeName? with
          | some k =>
            if parsed.name == "array" then return some ⟨false, true, k⟩
            else throw (.type (.unsupportedReturn d.path))
          | none => throw (.type (.unsupportedReturn d.path))

end ReturnInfo

namespace Definition

def fields (d : Definition) : Except Error (List Expr) :=
  if d.statements.all (·.isBinding) then .ok (d.statements.filter fun e => !isStatic e.transforms)
  else .error (.structural (.nonField d.path))

/-- The bindings that the arguments of a call fill. -/
def callParameters (d : Definition) : Except Error (List Expr) :=
  if d.isStruct then d.fields else .ok d.parameters

end Definition
end FlatCode
