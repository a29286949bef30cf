/-! JSON values. Numbers keep the text they were written with, and objects keep the order and the repetitions
    of their fields, so that a reader of records can decide what to accept. -/

namespace FlatCode

/-- The text of a string literal; `none` when an unpaired surrogate escape leaves it without one. -/
abbrev JsonText := Option String

inductive Json where
  | null
  | bool (value : Bool)
  | number (literal : String)
  | string (text : JsonText)
  | array (elements : List Json)
  | object (fields : List (JsonText × Json))
deriving Inhabited

namespace Json

def str (s : String) : Json := .string (some s)

def strs (l : List String) : Json := .array (l.map str)

def record (fields : List (String × Json)) : Json := .object (fields.map fun (k, v) => (some k, v))

def valuesAt (key : String) (fields : List (JsonText × Json)) : List Json :=
  fields.filterMap fun (k, v) => if k = some key then some v else none

def get? (key : String) : Json → Option Json
  | .object fields => (valuesAt key fields).getLast?
  | _ => none

end Json
end FlatCode
