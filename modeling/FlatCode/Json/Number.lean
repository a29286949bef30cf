import FlatCode.Json.Basic
import FlatCode.Decimal.Scaled
import FlatCode.Decimal.Style

/-! Reading numbers out of number literals. A literal without a fraction and an exponent is an integer, except
    `-0`, which only a floating-point number can hold. -/

namespace FlatCode.Json

def natOfDigits? : List Char → Option Nat
  | [] => none
  | cs => if cs.all Char.isDigit then some (cs.foldl (fun n c => 10 * n + (c.toNat - '0'.toNat)) 0) else none

def intOfLiteral? (literal : String) : Option Int :=
  match literal.toList with
  | ['-', '0'] => none
  | '-' :: ds => (natOfDigits? ds).map fun n => -(n : Int)
  | ds => (natOfDigits? ds).map fun n => (n : Int)

def digitValues? (cs : List Char) : Option (List Nat) :=
  cs.mapM fun c => if c.isDigit then some (c.toNat - '0'.toNat) else none

def exponentOf? : List Char → Option Int
  | [] => some 0
  | '-' :: ds => (natOfDigits? ds).map fun n => -(n : Int)
  | '+' :: ds => (natOfDigits? ds).map fun n => (n : Int)
  | ds => (natOfDigits? ds).map fun n => (n : Int)

/-- The bits of the double that a literal is read as; `none` when its magnitude is too large. -/
def doubleOfLiteral? (literal : String) : Option UInt64 := do
  let (negative, cs) := match literal.toList with
    | '-' :: cs => (true, cs)
    | cs => (false, cs)
  let (mantissa, exponent) := cs.span fun c => c != 'e' && c != 'E'
  let (whole, fraction) := mantissa.span (· != '.')
  let whole ← digitValues? whole
  let fraction ← digitValues? (fraction.drop 1)
  let bits ← Decimal.scaled whole fraction (← exponentOf? (exponent.drop 1))
  return UInt64.ofNat (bits + if negative then 2 ^ 63 else 0)

def int64? : Json → Option Int64
  | .number literal => do
    let n ← intOfLiteral? literal
    if -(2 ^ 63) ≤ n ∧ n < 2 ^ 63 then some (Int64.ofInt n) else none
  | _ => none

def uint64? : Json → Option UInt64
  | .number literal => do
    let n ← intOfLiteral? literal
    if 0 ≤ n ∧ n < 2 ^ 64 then some (UInt64.ofNat n.toNat) else none
  | _ => none

def double? : Json → Option UInt64
  | .number literal => doubleOfLiteral? literal
  | _ => none

def bool? : Json → Option Bool
  | .bool b => some b
  | _ => none

def string? : Json → Option String
  | .string text => text
  | _ => none

/-- Shortest digits with at least one place after the point, positional from `1e-5` up to `1e16`. -/
def doubleStyle : Decimal.Style where
  positional e := -5 ≤ e && e < 16
  pointZero := true
  exponentMark := "e+"
  tie := .toEven

/-- The number with the given bits in double precision; JSON has no other than finite ones, and `null` stands for
    the rest. -/
def ofDouble (bits : UInt64) : Json :=
  match Decimal.Format.double.magnitude bits.toNat with
  | .finite .. => .number (doubleStyle.text .double bits.toNat)
  | _ => .null

def intLiteral (n : Int) : String :=
  let digits := String.ofList (Nat.toDigits 10 n.natAbs)
  if n < 0 then "-" ++ digits else digits

def ofInt (n : Int) : Json := .number (intLiteral n)

end FlatCode.Json
