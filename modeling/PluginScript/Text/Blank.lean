import PluginScript.Text

/-! # Blank characters

The white space that may stand inside and in front of argument lists is the Unicode property
`White_Space`, as a table of code point ranges.
-/

namespace PluginScript.Text

/-- The code points with the property `White_Space`, as closed ranges in increasing order. -/
def blankRanges : List (Nat × Nat) :=
  [(0x09, 0x0D), (0x20, 0x20), (0x85, 0x85), (0xA0, 0xA0), (0x1680, 0x1680), (0x2000, 0x200A),
    (0x2028, 0x2029), (0x202F, 0x202F), (0x205F, 0x205F), (0x3000, 0x3000)]

/-- Whether a character is white space. -/
def isBlank (c : Char) : Bool :=
  blankRanges.any fun range => decide (range.1 ≤ c.toNat) && decide (c.toNat ≤ range.2)

/-- A text without the blanks at its end. -/
def trimEnd (text : Text) : Text :=
  (text.reverse.dropWhile isBlank).reverse

/-- A text without the blanks at its ends. -/
def trim (text : Text) : Text :=
  trimEnd (text.dropWhile isBlank)

example : (blankRanges.map fun range => range.2 + 1 - range.1).sum = 25 := by decide

end PluginScript.Text
