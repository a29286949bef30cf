import FlatCode.Decimal.Format

/-! The decimal with the fewest digits that reads back as a given binary magnitude. Everything is compared
    exactly, over natural numbers. -/

namespace FlatCode.Decimal

inductive Tie where
  | up
  | toEven
deriving DecidableEq, Repr

def digitCount (n : Nat) : Nat := (Nat.toDigits 10 n).length

/-- The decimal exponent of the leading digit of the positive fraction `num / den`. -/
def leadingExponent (num den : Nat) : Int :=
  if den ≤ num then (digitCount (num / den) : Int) - 1
  else -(digitCount ((den + num - 1) / num - 1) : Int)

/-- A number without its final zeros, and how many there were (at most `fuel` are removed). -/
def stripZeros : Nat → Nat → Nat × Nat
  | 0, n => (n, 0)
  | fuel + 1, n =>
    if n % 10 = 0 then
      let (m, k) := stripZeros fuel (n / 10)
      (m, k + 1)
    else (n, 0)

/-- Of the multiples of `10 ^ p` next to `m * 2 ^ q`, the nearest that reads back as it. The reals that read
    back reach half a gap to each side, the ends included for an even `m`. -/
def onGrid (m : Nat) (q : Int) (narrowBelow : Bool) (tie : Tie) (p : Int) : Option Nat :=
  let r := q - 2
  let unit := 10 ^ p.toNat * 2 ^ (-r).toNat
  let scale := 2 ^ r.toNat * 10 ^ (-p).toNat
  let value := 4 * m * scale
  let low := (4 * m - if narrowBelow then 1 else 2) * scale
  let high := (4 * m + 2) * scale
  let reads (d : Nat) : Bool :=
    if m % 2 = 0 then low ≤ d * unit && d * unit ≤ high else low < d * unit && d * unit < high
  let below := value / unit
  let above := below + 1
  match reads below, reads above with
  | false, false => none
  | true, false => some below
  | false, true => some above
  | true, true =>
    let down := value - below * unit
    let up := above * unit - value
    if down < up then some below
    else if up < down then some above
    else match tie with
      | .up => some above
      | .toEven => if below % 2 = 0 then some below else some above

/-- Digits `d` and exponent `e` of the shortest decimal `d * 10 ^ e` that reads back as `m * 2 ^ q`, for a
    positive `m`; no binary format here needs more than seventeen digits. -/
def shortest (m : Nat) (q : Int) (narrowBelow : Bool) (tie : Tie) : Nat × Int :=
  let lead := leadingExponent (m * 2 ^ q.toNat) (2 ^ (-q).toNat)
  let attempt (n : Nat) : Option (Nat × Int) :=
    let p := lead - n
    (onGrid m q narrowBelow tie p).map fun d =>
      let (d, k) := stripZeros 17 d
      (d, p + k)
  ((List.range 17).findSome? attempt).getD (m, 0)

end FlatCode.Decimal
