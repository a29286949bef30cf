import FlatCode.Text.Blank

/-! Slash-separated paths of definitions. -/

namespace FlatCode.Path

/-- The namespace of a path: what stands before its last slash, or nothing. -/
def parent (path : String) : String :=
  String.ofList ((path.toList.reverse.dropWhile (· != '/')).drop 1).reverse

def last (path : String) : String := String.ofList (path.toList.reverse.takeWhile (· != '/')).reverse

/-- The namespaces around a path given last character first, innermost first; the root, which has the empty
    path, is always the last of them. -/
def enclosingReversed : List Char → List String
  | [] => [""]
  | c :: rest =>
    if c = '/' then
      String.ofList rest.reverse :: if rest.isEmpty then [] else enclosingReversed rest
    else enclosingReversed rest

def enclosing (path : String) : List String := enclosingReversed path.toList.reverse

def isAbsolute (path : String) : Bool := path.toList.head? == some '/'

/-- The path at the root with the given last segment. -/
def atRoot (name : String) : String := "/" ++ name

/-- A path given last character first, without the `/*` at its end, however often it stands there. -/
def dropStars : List Char → List Char
  | '*' :: '/' :: rest => dropStars rest
  | cs => cs

/-- The namespace that an import names: trimmed, without `/*` and slashes at its end, and absolute. -/
def ofImport (text : String) : String :=
  let cs := ((dropStars (Text.trimChars text.toList).reverse).dropWhile (· == '/')).reverse
  if cs.head? == some '/' then String.ofList cs else atRoot (String.ofList cs)

end FlatCode.Path
