/-!
# Blank characters

The characters with the Unicode property `White_Space`, and the removal of blanks at both ends of a
line.
-/

namespace LazyLisp.Text

/-- The code points with the property `White_Space`, as inclusive ranges in order. -/
def blankRanges : List (Nat × Nat) :=
  [(0x09, 0x0D), (0x20, 0x20), (0x85, 0x85), (0xA0, 0xA0), (0x1680, 0x1680), (0x2000, 0x200A),
    (0x2028, 0x2029), (0x202F, 0x202F), (0x205F, 0x205F), (0x3000, 0x3000)]

/-- Whether a character has the property. -/
def isBlank (c : Char) : Bool := blankRanges.any fun r => r.1 ≤ c.toNat && c.toNat ≤ r.2

/-- The text without the blanks at its ends. -/
def trim (s : String) : String :=
  let chars := s.toList.dropWhile isBlank
  String.ofList (chars.reverse.dropWhile isBlank).reverse

end LazyLisp.Text
