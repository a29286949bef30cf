import FlatCode.Decimal.Nearest

/-! Reading a decimal by scaling. The leading digits that fit a word make a significand, which is rounded to double
    precision and then multiplied or divided by a power of ten that is a rounded number itself. With few digits
    and a small power each step is exact and the result is the nearest number; otherwise it may lie beside it. -/

namespace FlatCode.Decimal

/-- Appends digits to a number as long as it fits a word; the second part counts the digits left over. -/
def appendDigits (n : Nat) : List Nat → Nat × Nat
  | [] => (n, 0)
  | d :: ds => if 10 * n + d < 2 ^ 64 then appendDigits (10 * n + d) ds else (n, ds.length + 1)

namespace Format

def fraction (f : Format) (bits : Nat) : Nat × Nat :=
  match f.magnitude bits with
  | .finite m q _ => (m * 2 ^ q.toNat, 2 ^ (-q).toNat)
  | _ => (0, 1)

def rounded (f : Format) (num den : Nat) : Option Nat :=
  if num = 0 then some 0 else f.nearestFraction num den

def product (f : Format) (a b : Nat) : Option Nat :=
  let (m, d) := f.fraction a
  let (n, e) := f.fraction b
  f.rounded (m * n) (d * e)

/-- The magnitude nearest to the quotient of two; `none` when it is too large. -/
def quotient (f : Format) (a b : Nat) : Option Nat :=
  let (m, d) := f.fraction a
  let (n, e) := f.fraction b
  f.rounded (m * e) (d * n)

end Format

/-- The exponent of the greatest power of ten in double precision. -/
def greatestPower : Nat := 308

def powerOfTen (e : Nat) : Nat := (Format.double.nearest 1 e).getD 0

def scaleUp (bits e : Nat) : Option Nat :=
  if e ≤ greatestPower then Format.double.product bits (powerOfTen e)
  else if bits = 0 then some 0
  else none

/-- The magnitude of a rounded word over `10 ^ e`, in two steps if the power is too large for one. What is left of
    a word after two of the greatest steps is less than half of the least magnitude. -/
def scaleDown (bits e : Nat) : Option Nat :=
  if e ≤ greatestPower then Format.double.quotient bits (powerOfTen e)
  else if e ≤ 2 * greatestPower then do
    let bits ← Format.double.quotient bits (powerOfTen greatestPower)
    Format.double.quotient bits (powerOfTen (e - greatestPower))
  else some 0

/-- The magnitude that the digits before and after a point and an exponent are read as; `none` when it is too
    large. -/
def scaled (whole fraction : List Nat) (exponent : Int) : Option Nat := do
  let (n, left) := appendDigits 0 whole
  let (n, cut) := appendDigits n fraction
  let exponent := exponent + left - (fraction.length - cut : Nat)
  let bits ← Format.double.nearest n 0
  if 0 ≤ exponent then scaleUp bits exponent.toNat else scaleDown bits (-exponent).toNat

end FlatCode.Decimal
