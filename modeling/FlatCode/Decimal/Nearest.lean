import FlatCode.Decimal.Shortest

/-! The binary floating-point number nearest to a decimal; a half goes to the even neighbour. -/

namespace FlatCode.Decimal

/-- `num / den` rounded to a natural number; a half goes to the even neighbour. -/
def roundDiv (num den : Nat) : Nat :=
  let quotient := num / den
  let twice := 2 * (num % den)
  if twice < den then quotient
  else if den < twice then quotient + 1
  else quotient + quotient % 2

/-- The bits of the magnitude nearest to the positive fraction `num / den`; `none` when that is beyond the
    greatest finite one. The significand is rounded at the place where it has `fractionBits + 1` bits, or at
    the least place of the format. -/
def Format.nearestFraction (f : Format) (num den : Nat) : Option Nat :=
  let size : Int := (num.log2 : Int) - den.log2
  let first := max (size - f.fractionBits - 1) f.leastPlace
  let scaled (place : Int) : Nat × Nat := (num * 2 ^ (-place).toNat, den * 2 ^ place.toNat)
  let (n, d) := scaled first
  let place := if 2 ^ (f.fractionBits + 1) ≤ n / d then first + 1 else first
  let (n, d) := scaled place
  let significand := roundDiv n d
  let offset := (place - f.leastPlace).toNat
  let bits := offset * 2 ^ f.fractionBits + significand
  if f.topExponent ≤ bits / 2 ^ f.fractionBits then none else some bits

/-- The bits of the magnitude nearest to `m * 10 ^ e`; `none` when it is too large. Exponents far outside the
    format are settled without raising ten to them. -/
def Format.nearest (f : Format) (m : Nat) (e : Int) : Option Nat :=
  let reach : Int := 2 ^ f.exponentBits
  if m = 0 then some 0
  else if reach < e + digitCount m then none
  else if e + digitCount m < -reach then some 0
  else f.nearestFraction (m * 10 ^ e.toNat) (10 ^ (-e).toNat)

end FlatCode.Decimal
