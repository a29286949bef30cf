import FlatCode.Program.Basic
import FlatCode.Text.Blank

/-! The text of a transform: a name, `name<a, b>` or `name(a, b)`. A comma inside angle brackets does not
    separate. -/

namespace FlatCode.Transform

/-- The parts of a list between the commas outside angle brackets, each trimmed. `depth` counts the open
    brackets, without a bound (no text has 2³¹ of them), and `part` holds the part so far, last character first. A blank
    last part is dropped. -/
def splitParts (depth : Int) (part : List Char) : List Char → List (List Char)
  | [] =>
    let last := Text.trimChars part.reverse
    if last.isEmpty then [] else [last]
  | c :: rest =>
    if c = '<' then splitParts (depth + 1) (c :: part) rest
    else if c = '>' then splitParts (depth - 1) (c :: part) rest
    else if c = ',' ∧ depth = 0 then Text.trimChars part.reverse :: splitParts 0 [] rest
    else splitParts depth (c :: part) rest

def split (cs : List Char) : List String := (splitParts 0 [] cs).map String.ofList

/-- The name before the first `opening` and the list between it and a final `closing`. -/
def bracketed? (opening closing : Char) (cs : List Char) : Option (String × List String) :=
  match cs.span (· != opening) with
  | (_, []) => none
  | (name, _ :: inner) =>
    if inner.getLast? = some closing then
      some (String.ofList (Text.trimChars name), split inner.dropLast)
    else none

def parse (text : String) : Transform :=
  let cs := Text.trimChars text.toList
  match bracketed? '<' '>' cs with
  | some (name, templateArgs) => { name, templateArgs }
  | none =>
    match bracketed? '(' ')' cs with
    | some (name, arguments) => { name, arguments }
    | none => { name := String.ofList cs }

def listText (opening closing : String) (l : List String) : String :=
  if l.isEmpty then "" else opening ++ ", ".intercalate l ++ closing

def render (t : Transform) : String :=
  t.name ++ listText "<" ">" t.templateArgs ++ listText "(" ")" t.arguments

def effects (names : List String) : Transform := { name := "effects", arguments := names }

end FlatCode.Transform
