/-! White space and trimming, on characters and on strings. -/

namespace FlatCode.Text

/-- The characters with the Unicode property White_Space. -/
def isBlank (c : Char) : Bool :=
  let n := c.toNat
  (9 ≤ n && n ≤ 13) || n == 0x20 || n == 0x85 || n == 0xA0 || n == 0x1680 || (0x2000 ≤ n && n ≤ 0x200A)
    || n == 0x2028 || n == 0x2029 || n == 0x202F || n == 0x205F || n == 0x3000

/-- The list without its longest final run of elements that satisfy `p`. -/
def dropTail {α : Type} (p : α → Bool) (l : List α) : List α := (l.reverse.dropWhile p).reverse

def trimChars (cs : List Char) : List Char := dropTail isBlank (cs.dropWhile isBlank)

def trim (s : String) : String := String.ofList (trimChars s.toList)

end FlatCode.Text
