import FlatCode.Decimal.Shortest

/-! Writing a binary floating-point number in shortest digits, by the decisions of a style: where positional
    writing ends, whether a whole number keeps a point, how an exponent is signed. -/

namespace FlatCode.Decimal

structure Style where
  /-- Whether a number whose leading digit has this decimal exponent is written positionally. -/
  positional : Int → Bool
  /-- Whether a whole number is written with a final `.0`. -/
  pointZero : Bool
  /-- The mark and sign of a positive exponent. -/
  exponentMark : String
  tie : Tie

def zeros (n : Nat) : String := String.ofList (List.replicate n '0')

def Style.positionalText (s : Style) (d : Nat) (e : Int) : String :=
  let digits := Nat.toDigits 10 d
  let text := String.ofList digits
  let point : Int := digits.length + e
  if point ≤ 0 then "0." ++ zeros (-point).toNat ++ text
  else if 0 ≤ e then text ++ zeros e.toNat ++ (if s.pointZero then ".0" else "")
  else String.ofList (digits.take point.toNat) ++ "." ++ String.ofList (digits.drop point.toNat)

/-- The digits of `d * 10 ^ e` with one digit before the point and an exponent. -/
def Style.exponentText (s : Style) (d : Nat) (e : Int) : String :=
  let digits := Nat.toDigits 10 d
  let exponent : Int := e + digits.length - 1
  let mantissa := match digits with
    | [] => ""
    | [c] => String.ofList [c]
    | c :: rest => String.ofList (c :: '.' :: rest)
  let power := String.ofList (Nat.toDigits 10 exponent.natAbs)
  mantissa ++ (if exponent < 0 then "e-" else s.exponentMark) ++ power

/-- The text of the number with the given bits. A result that is not a number has no sign. -/
def Style.text (s : Style) (f : Format) (bits : Nat) : String :=
  let sign := if f.isNegative bits then "-" else ""
  match f.magnitude bits with
  | .notANumber => "NaN"
  | .infinite => sign ++ "inf"
  | .finite 0 _ _ => sign ++ (if s.pointZero then "0.0" else "0")
  | .finite m q narrowBelow =>
    let (d, e) := shortest m q narrowBelow s.tie
    if s.positional (e + digitCount d - 1) then sign ++ s.positionalText d e
    else sign ++ s.exponentText d e

end FlatCode.Decimal
