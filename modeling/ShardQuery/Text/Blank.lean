/-!
Characters that count as blank around a text.
-/

namespace ShardQuery.Text

/-- The white space of Unicode. -/
def isBlank (c : Char) : Bool :=
  let n := c.toNat
  (9 ≤ n && n ≤ 13) || (0x2000 ≤ n && n ≤ 0x200a) ||
    n ∈ [0x20, 0x85, 0xa0, 0x1680, 0x2028, 0x2029, 0x202f, 0x205f, 0x3000]

def dropBlanks (cs : List Char) : List Char := cs.dropWhile isBlank

/-- Drops the blanks at both ends. -/
def trim (cs : List Char) : List Char := (dropBlanks (dropBlanks cs).reverse).reverse

end ShardQuery.Text
