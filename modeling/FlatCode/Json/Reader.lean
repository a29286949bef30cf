import FlatCode.Json.Basic
import FlatCode.Json.Fault

/-! Reading JSON strictly: no comments, no trailing commas, no leading zeros or signs, no raw controls in
    strings, and nothing but white space after the value. -/

namespace FlatCode.Json

def isSpace (c : Char) : Bool := c = ' ' || c = '\n' || c = '\t' || c = '\r'

/-- The text from its first character that is not white space. -/
def skipSpace (cs : List Char) : List Char := cs.dropWhile isSpace

def isDigit (c : Char) : Bool := '0' ≤ c && c ≤ '9'

/-- What a part of a text stands for, with the text after it, or where reading stopped. -/
abbrev Read (α : Type) := Except Stop (α × List Char)

def stop {α : Type} (cause : Cause) (rest : List Char) : Read α := .error { cause, rest }

def digits1 (cs : List Char) : Read (List Char) :=
  match cs.span isDigit with
  | ([], rest) => stop .number rest
  | (ds, rest) => .ok (ds, rest)

/-- The whole part of a number: a zero, or digits that do not start with one. -/
def wholePart : List Char → Read (List Char)
  | '0' :: rest => if rest.head?.any isDigit then stop .number rest else .ok (['0'], rest)
  | cs => digits1 cs

def fractionPart : List Char → Read (List Char)
  | '.' :: rest => (digits1 rest).map fun (ds, r) => ('.' :: ds, r)
  | cs => .ok ([], cs)

def exponentSign : List Char → List Char × List Char
  | '+' :: rest => (['+'], rest)
  | '-' :: rest => (['-'], rest)
  | cs => ([], cs)

def exponentPart : List Char → Read (List Char)
  | c :: rest =>
    if c = 'e' ∨ c = 'E' then
      let (sign, rest) := exponentSign rest
      (digits1 rest).map fun (ds, r) => (c :: sign ++ ds, r)
    else .ok ([], c :: rest)
  | [] => .ok ([], [])

def unsignedNumber (cs : List Char) : Except Stop (List Char × List Char) := do
  let (whole, cs) ← wholePart cs
  let (fraction, cs) ← fractionPart cs
  let (exponent, cs) ← exponentPart cs
  return (whole ++ fraction ++ exponent, cs)

def numberLiteral : List Char → Read (List Char)
  | '-' :: cs => (unsignedNumber cs).map fun (n, rest) => ('-' :: n, rest)
  | cs => unsignedNumber cs

def hexValue? (c : Char) : Option Nat :=
  if '0' ≤ c && c ≤ '9' then some (c.toNat - '0'.toNat)
  else if 'a' ≤ c && c ≤ 'f' then some (c.toNat - 'a'.toNat + 10)
  else if 'A' ≤ c && c ≤ 'F' then some (c.toNat - 'A'.toNat + 10)
  else none

def hex4? (a b c d : Char) : Option Nat := do
  let a ← hexValue? a
  let b ← hexValue? b
  let c ← hexValue? c
  let d ← hexValue? d
  return ((a * 16 + b) * 16 + c) * 16 + d

def isHighSurrogate (n : Nat) : Bool := 0xD800 ≤ n && n < 0xDC00

def isLowSurrogate (n : Nat) : Bool := 0xDC00 ≤ n && n < 0xE000

def simpleEscape? (c : Char) : Option Char :=
  if c = '"' || c = '\\' || c = '/' then some c
  else if c = 'b' then some '\x08'
  else if c = 'f' then some '\x0c'
  else if c = 'n' then some '\n'
  else if c = 'r' then some '\r'
  else if c = 't' then some '\t'
  else none

/-- A string literal read so far: its characters, last first, or `none` once a surrogate escape stood alone, and
    a high surrogate that still waits for its low one. -/
structure Reading where
  chars : Option (List Char) := some []
  held : Option Nat := none

namespace Reading

def char (r : Reading) (c : Char) : Reading :=
  match r.held with
  | none => { chars := r.chars.map (c :: ·) }
  | some _ => { chars := none }

/-- The next escape names the UTF-16 unit `unit`. -/
def unit (r : Reading) (unit : Nat) : Reading :=
  if isHighSurrogate unit then
    { chars := if r.held.isSome then none else r.chars, held := some unit }
  else if isLowSurrogate unit then
    match r.held with
    | some high =>
      { chars := r.chars.map (Char.ofNat (0x10000 + (high - 0xD800) * 0x400 + (unit - 0xDC00)) :: ·) }
    | none => { chars := none }
  else r.char (Char.ofNat unit)

def text (r : Reading) : JsonText :=
  if r.held.isSome then none else r.chars.map fun cs => String.ofList cs.reverse

end Reading

def stringTail (r : Reading) : List Char → Read JsonText
  | [] => stop .unfinishedString []
  | '"' :: rest => .ok (r.text, rest)
  | '\\' :: 'u' :: a :: b :: c :: d :: rest =>
    match hex4? a b c d with
    | none => stop .escape (d :: rest)
    | some unit => stringTail (r.unit unit) rest
  | '\\' :: c :: rest =>
    match simpleEscape? c with
    | none => if c = 'u' then stop .unfinishedString [] else stop .escape (c :: rest)
    | some c => stringTail (r.char c) rest
  | c :: rest => if c.toNat < 0x20 then stop .control (c :: rest) else stringTail (r.char c) rest

def wordTail (v : Json) : List Char → List Char → Read Json
  | [], cs => .ok (v, cs)
  | _ :: _, [] => stop .unfinishedValue []
  | w :: ws, c :: cs => if c = w then wordTail v ws cs else stop .word (c :: cs)

mutual

/-- A value. Each level of the recursion reads at least one character, so `fuel` above the length of the text
    never runs out. -/
def value? (fuel : Nat) (cs : List Char) : Read Json :=
  match fuel with
  | 0 => stop .unfinishedValue cs
  | fuel + 1 =>
    match skipSpace cs with
    | [] => stop .unfinishedValue []
    | 'n' :: rest => wordTail .null ['u', 'l', 'l'] rest
    | 't' :: rest => wordTail (.bool true) ['r', 'u', 'e'] rest
    | 'f' :: rest => wordTail (.bool false) ['a', 'l', 's', 'e'] rest
    | '"' :: rest => (stringTail {} rest).map fun (t, r) => (.string t, r)
    | '[' :: rest =>
      match skipSpace rest with
      | [] => stop .unfinishedList []
      | ']' :: rest => .ok (.array [], rest)
      | rest => (elements? fuel rest).map fun (l, r) => (.array l, r)
    | '\x7b' :: rest =>
      match skipSpace rest with
      | [] => stop .unfinishedObject []
      | '\x7d' :: rest => .ok (.object [], rest)
      | rest => (fields? fuel rest).map fun (l, r) => (.object l, r)
    | c :: rest =>
      if c = '-' ∨ isDigit c then (numberLiteral (c :: rest)).map fun (n, r) => (.number (String.ofList n), r)
      else stop .value (c :: rest)

def elements? (fuel : Nat) (cs : List Char) : Read (List Json) :=
  match fuel with
  | 0 => stop .unfinishedList cs
  | fuel + 1 =>
    match value? fuel cs with
    | .error s => .error s
    | .ok (v, rest) =>
      match skipSpace rest with
      | [] => stop .unfinishedList []
      | ',' :: rest => (elements? fuel rest).map fun (l, r) => (v :: l, r)
      | ']' :: rest => .ok ([v], rest)
      | rest => stop .listEnd rest

def fields? (fuel : Nat) (cs : List Char) : Read (List (JsonText × Json)) :=
  match fuel with
  | 0 => stop .unfinishedObject cs
  | fuel + 1 =>
    match skipSpace cs with
    | [] => stop .unfinishedObject []
    | '"' :: rest =>
      match stringTail {} rest with
      | .error s => .error s
      | .ok (key, rest) =>
        match skipSpace rest with
        | [] => stop .unfinishedObject []
        | ':' :: rest =>
          match value? fuel rest with
          | .error s => .error s
          | .ok (v, rest) =>
            match skipSpace rest with
            | [] => stop .unfinishedObject []
            | ',' :: rest => (fields? fuel rest).map fun (l, r) => ((key, v) :: l, r)
            | '\x7d' :: rest => .ok ([(key, v)], rest)
            | rest => stop .objectEnd rest
        | rest => stop .colon rest
    | rest => stop .key rest

end

/-- The value that a whole text writes, or what is wrong with the text. -/
def parse (text : String) : Except Fault Json :=
  let cs := text.toList
  match value? (cs.length + 1) cs with
  | .error s => .error (s.fault cs)
  | .ok (v, rest) =>
    match skipSpace rest with
    | [] => .ok v
    | rest => .error (Stop.fault { cause := .trailing, rest } cs)

end FlatCode.Json
