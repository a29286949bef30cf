import FlatCode.Text.Printable

/-! Quoted strings in listings: a quote, a backslash and the common controls are written with a backslash, other
    unprintable characters by their code point in braces. -/

namespace FlatCode.Text

/-- The escape by code point: lower-case hexadecimal digits in braces. -/
def codePointEscape (c : Char) : String :=
  "\\u\x7b" ++ String.ofList (Nat.toDigits 16 c.toNat) ++ "\x7d"

def quoteChar (c : Char) : String :=
  if c = '"' then "\\\""
  else if c = '\\' then "\\\\"
  else if c = '\n' then "\\n"
  else if c = '\r' then "\\r"
  else if c = '\t' then "\\t"
  else if c = '\x00' then "\\0"
  else if isPrintable c then c.toString
  else codePointEscape c

def quote (s : String) : String := "\"" ++ String.join (s.toList.map quoteChar) ++ "\""

def quoteList (l : List String) : String := "[" ++ ", ".intercalate (l.map quote) ++ "]"

end FlatCode.Text
