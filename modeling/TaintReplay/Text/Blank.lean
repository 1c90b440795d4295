/-!
# Blank characters

Signatures and type names come from text files, so the blanks around and
inside them are those of the Unicode property `White_Space`. The property is a
short closed list, given here in full. It holds more than the ASCII blanks
(no-break spaces, the ideographic space, the line and paragraph separators)
and excludes some characters that look blank, such as the zero-width space and
the information separators U+001C to U+001F.

All functions work on lists of characters; `trim` is the same on strings.
-/

namespace TaintReplay.Text

/-- Whether a character has the property `White_Space`. -/
def isBlank (c : Char) : Bool :=
  let n := c.toNat
  (0x09 ≤ n && n ≤ 0x0D) || n == 0x20 || n == 0x85 || n == 0xA0 || n == 0x1680 ||
    (0x2000 ≤ n && n ≤ 0x200A) || n == 0x2028 || n == 0x2029 || n == 0x202F || n == 0x205F ||
    n == 0x3000

/-- Drops the blanks at the end. -/
def trimEnd (cs : List Char) : List Char := (cs.reverse.dropWhile isBlank).reverse

/-- Drops the blanks at both ends. -/
def trimChars (cs : List Char) : List Char := trimEnd (cs.dropWhile isBlank)

/-- Drops the blanks at both ends of a string. -/
def trim (s : String) : String := String.ofList (trimChars s.toList)

/-- Whether a string has no other characters than blanks. -/
def isBlankText (s : String) : Bool := s.toList.all isBlank

end TaintReplay.Text
