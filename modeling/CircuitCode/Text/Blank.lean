/-!
# Blank characters

The characters with the Unicode property White_Space, and the texts that neither start nor end
with one of them.
-/

namespace CircuitCode

/-- The characters with the property White_Space, as ranges of code points with both ends. -/
def blankRanges : List (Nat × Nat) :=
  [(0x9, 0xD), (0x20, 0x20), (0x85, 0x85), (0xA0, 0xA0), (0x1680, 0x1680), (0x2000, 0x200A),
    (0x2028, 0x2029), (0x202F, 0x202F), (0x205F, 0x205F), (0x3000, 0x3000)]

/-- Whether a character is blank. -/
def isBlank (c : Char) : Bool :=
  blankRanges.any fun range => range.1 ≤ c.toNat && c.toNat ≤ range.2

/-- A text without the blanks at its end. -/
def trimEnd (text : List Char) : List Char :=
  (text.reverse.dropWhile isBlank).reverse

/-- Whether a text neither starts nor ends with a blank. -/
def isTrimmed (text : List Char) : Bool :=
  !text.head?.any isBlank && !text.getLast?.any isBlank

end CircuitCode
