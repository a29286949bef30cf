/-! Why a text is not JSON, and where. -/

namespace FlatCode.Json

inductive Cause where
  | unfinishedValue
  | unfinishedList
  | unfinishedObject
  | unfinishedString
  | value
  | word
  | number
  | listEnd
  | objectEnd
  | key
  | colon
  | escape
  | control
  | trailing
deriving DecidableEq, Repr

def Cause.message : Cause → String
  | .unfinishedValue => "EOF while parsing a value"
  | .unfinishedList => "EOF while parsing a list"
  | .unfinishedObject => "EOF while parsing an object"
  | .unfinishedString => "EOF while parsing a string"
  | .value => "expected value"
  | .word => "expected ident"
  | .number => "invalid number"
  | .listEnd => "expected `,` or `]`"
  | .objectEnd => "expected `,` or `\x7d`"
  | .key => "key must be a string"
  | .colon => "expected `:`"
  | .escape => "invalid escape"
  | .control => "control character (\\u0000-\\u001F) found while parsing a string"
  | .trailing => "trailing characters"

/-- Where reading stopped: the text from the first character that does not fit. -/
structure Stop where
  cause : Cause
  rest : List Char
deriving DecidableEq, Repr

structure Place where
  line : Nat := 1
  column : Nat := 0
deriving DecidableEq, Repr

def Place.after (p : Place) (c : Char) (size : Nat) : Place :=
  if c = '\n' then { line := p.line + 1 } else { p with column := p.column + size }

structure Fault where
  cause : Cause
  place : Place
deriving DecidableEq, Repr

def Fault.message (f : Fault) : String :=
  f.cause.message ++ " at line " ++ toString f.place.line ++ " column " ++ toString f.place.column

def Stop.fault (s : Stop) (text : List Char) : Fault :=
  let before := text.take (text.length - s.rest.length)
  let place := before.foldl (fun p c => p.after c c.utf8Size) {}
  { cause := s.cause, place := s.rest.head?.elim place fun c => place.after c 1 }

end FlatCode.Json
