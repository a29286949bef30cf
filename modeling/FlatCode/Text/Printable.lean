import FlatCode.Text.Combining
import FlatCode.Text.Unassigned

/-! Characters that stand for themselves in a listing. -/

namespace FlatCode.Text

/-- The characters without a shape of their own, in ranges: controls, format characters, separators other than the
    space, and private use. -/
def shapeless : List (Nat × Nat) :=
  [
    (0x0, 32), (0x7F, 34), (0xAD, 1), (0x600, 6), (0x61C, 1), (0x6DD, 1), (0x70F, 1), (0x890, 2), (0x8E2, 1),
    (0x1680, 1), (0x180E, 1), (0x2000, 16), (0x2028, 8), (0x205F, 6), (0x2066, 10), (0x3000, 1), (0xE000, 6400),
    (0xFEFF, 1), (0xFFF9, 3), (0x110BD, 1), (0x110CD, 1), (0x13430, 16), (0x1BCA0, 4), (0x1D173, 8), (0xE0001, 1),
    (0xE0020, 96), (0xF0000, 65534), (0x100000, 65534)
  ]

def inRanges (ranges : List (Nat × Nat)) (c : Char) : Bool :=
  ranges.any fun (first, count) => first ≤ c.toNat && c.toNat < first + count

def isPrintable (c : Char) : Bool := !(inRanges shapeless c || inRanges combining c || inRanges unassigned c)

end FlatCode.Text
