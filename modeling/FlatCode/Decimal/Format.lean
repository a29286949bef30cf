/-! Binary floating-point formats: how a bit pattern splits into sign, exponent and significand. -/

-- Powers are the core library's, whatever algebra is imported beside a format.
attribute [instance (1100), default_instance (10001)] instPowNat

namespace FlatCode.Decimal

/-- A binary interchange format by the sizes of its two magnitude fields. -/
structure Format where
  fractionBits : Nat
  exponentBits : Nat
deriving DecidableEq, Repr

namespace Format

def single : Format := ⟨23, 8⟩

def double : Format := ⟨52, 11⟩

def leastPlace (f : Format) : Int := 2 - 2 ^ (f.exponentBits - 1) - f.fractionBits

def topExponent (f : Format) : Nat := 2 ^ f.exponentBits - 1

end Format

/-- What a bit pattern stands for, without its sign. A finite magnitude is `significand * 2 ^ place`; the
    gap below it is half as wide as the one above it when `narrowBelow` holds. -/
inductive Magnitude where
  | notANumber
  | infinite
  | finite (significand : Nat) (place : Int) (narrowBelow : Bool)
deriving DecidableEq, Repr

def Format.isNegative (f : Format) (bits : Nat) : Bool := bits.testBit (f.fractionBits + f.exponentBits)

def Format.magnitude (f : Format) (bits : Nat) : Magnitude :=
  let fraction := bits % 2 ^ f.fractionBits
  let exponent := bits / 2 ^ f.fractionBits % 2 ^ f.exponentBits
  if exponent = f.topExponent then
    if fraction = 0 then .infinite else .notANumber
  else if exponent = 0 then
    .finite fraction f.leastPlace false
  else
    .finite (2 ^ f.fractionBits + fraction) (f.leastPlace + (exponent - 1 : Nat)) (fraction = 0 && 1 < exponent)

end FlatCode.Decimal
