import FlatCode.Error
import FlatCode.Path

/-! Looking up definitions. An import gives each immediate child of a namespace an alias at the root; a relative
    name is searched from the caller's namespace outward, then among the aliases. -/

namespace FlatCode

/-- The definitions of a program, no two under one path, and the aliases that its imports make. -/
structure Scope where
  definitions : List Definition
  aliases : List (String × String)

namespace Scope

/-- The path of the first definition whose path occurred before it. -/
def firstRepeated? (seen : List String) : List Definition → Option String
  | [] => none
  | d :: rest => if seen.contains d.path then some d.path else firstRepeated? (d.path :: seen) rest

/-- Aliases `d` at the root, unless a definition or another alias stands there. -/
def addAlias (definitions : List Definition) (aliases : List (String × String)) (d : Definition) :
    Except Error (List (String × String)) :=
  let name := Path.last d.path
  let rootPath := Path.atRoot name
  if definitions.any (·.path == rootPath) then .error (.structural (.importConflict name))
  else
    match aliases.lookup rootPath with
    | none => .ok ((rootPath, d.path) :: aliases)
    | some existing =>
      if existing == d.path then .ok aliases else .error (.structural (.importConflict name))

def addImport (definitions : List Definition) (aliases : List (String × String)) (text : String) :
    Except Error (List (String × String)) :=
  let space := Path.ofImport text
  let children := definitions.filter fun d => Path.parent d.path == space
  if children.isEmpty && !definitions.any (·.path == space) then .error (.structural (.unknownImport space))
  else children.foldlM (addAlias definitions) aliases

def build (p : Program) : Except Error Scope :=
  match firstRepeated? [] p.definitions with
  | some path => .error (.structural (.duplicateDefinition path))
  | none => (p.imports.foldlM (addImport p.definitions) []).map fun aliases => ⟨p.definitions, aliases⟩

variable (s : Scope)

def at? (path : String) : Option Definition := s.definitions.find? (·.path == path)

def get? (path : String) : Option Definition := s.at? path <|> (s.aliases.lookup path).bind s.at?

/-- The definition that a call of `name` means inside the definition at `home`. -/
def resolve? (name home : String) : Option Definition :=
  if Path.isAbsolute name then s.get? name
  else (Path.enclosing home).findSome? (fun space => s.at? (space ++ "/" ++ name)) <|> s.get? (Path.atRoot name)

def struct? (name : String) : Option String :=
  match s.resolve? name "/" with
  | some d => if d.isStruct then some d.path else none
  | none => none

end Scope
end FlatCode
