/-!
# Blank characters

The characters that count as white space around a selector: those with the Unicode property
`White_Space`, and the zero-width no-break space. `trim` takes them off both ends of a text.
-/

namespace NestedStyles

/-- Code point ranges of blank characters, ends included. -/
def blankRanges : List (Nat × Nat) :=
  [(0x9, 0xD), (0x20, 0x20), (0x85, 0x85), (0xA0, 0xA0), (0x1680, 0x1680), (0x2000, 0x200A),
    (0x2028, 0x2029), (0x202F, 0x202F), (0x205F, 0x205F), (0x3000, 0x3000), (0xFEFF, 0xFEFF)]

/-- Whether a character counts as white space. -/
def isBlank (c : Char) : Bool :=
  blankRanges.any fun range => range.1 ≤ c.toNat && c.toNat ≤ range.2

/-- A text without the blank characters at its end. -/
def trimEnd (s : List Char) : List Char := (s.reverse.dropWhile isBlank).reverse

/-- A text without the blank characters at its ends. -/
def trim (s : List Char) : List Char := trimEnd (s.dropWhile isBlank)

end NestedStyles
