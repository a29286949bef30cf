import FlatCode.Json.Basic

/-! Writing JSON over several lines, two spaces deeper for each level. -/

namespace FlatCode.Json

/-- How a character is written inside a string literal: quotes, backslashes and controls are escaped. -/
def escapeChar (c : Char) : List Char :=
  if c = '"' then ['\\', '"']
  else if c = '\\' then ['\\', '\\']
  else if c = '\x08' then ['\\', 'b']
  else if c = '\x0c' then ['\\', 'f']
  else if c = '\n' then ['\\', 'n']
  else if c = '\r' then ['\\', 'r']
  else if c = '\t' then ['\\', 't']
  else if c.toNat < 0x20 then
    ['\\', 'u', '0', '0', Nat.digitChar (c.toNat / 16), Nat.digitChar (c.toNat % 16)]
  else [c]

/-- A string literal. One without a text is written as a surrogate escape that stands alone. -/
def literalText : JsonText → List Char
  | some s => '"' :: s.toList.flatMap escapeChar ++ ['"']
  | none => ['"', '\\', 'u', 'd', '8', '0', '0', '"']

def newLine (level : Nat) : List Char := '\n' :: List.replicate (2 * level) ' '

mutual

/-- The characters of a value that stands at a level. -/
def chars (level : Nat) : Json → List Char
  | .null => ['n', 'u', 'l', 'l']
  | .bool true => ['t', 'r', 'u', 'e']
  | .bool false => ['f', 'a', 'l', 's', 'e']
  | .number literal => literal.toList
  | .string text => literalText text
  | .array [] => ['[', ']']
  | .array (v :: l) =>
    '[' :: newLine (level + 1) ++ chars (level + 1) v ++ elementChars (level + 1) l ++ newLine level ++ [']']
  | .object [] => ['\x7b', '\x7d']
  | .object ((k, v) :: l) =>
    '\x7b' :: newLine (level + 1) ++ literalText k ++ [':', ' '] ++ chars (level + 1) v
      ++ fieldChars (level + 1) l ++ newLine level ++ ['\x7d']

def elementChars (level : Nat) : List Json → List Char
  | [] => []
  | v :: l => ',' :: newLine level ++ chars level v ++ elementChars level l

def fieldChars (level : Nat) : List (JsonText × Json) → List Char
  | [] => []
  | (k, v) :: l => ',' :: newLine level ++ literalText k ++ [':', ' '] ++ chars level v ++ fieldChars level l

end

def pretty (j : Json) : String := String.ofList (chars 0 j)

end FlatCode.Json
