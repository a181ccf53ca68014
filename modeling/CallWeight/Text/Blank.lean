/-! # Blank characters

White space as text trimming sees it, and the slightly smaller class that may surround a number.
-/

namespace CallWeight.Text

/-- The code points of blank characters, in ascending order. -/
def blankCodePoints : List Nat := [
  0x9, 0xa, 0xb, 0xc, 0xd, 0x1c, 0x1d, 0x1e, 0x1f, 0x20, 0x85, 0xa0, 0x1680, 0x2000, 0x2001, 0x2002,
  0x2003, 0x2004, 0x2005, 0x2006, 0x2007, 0x2008, 0x2009, 0x200a, 0x2028, 0x2029, 0x202f, 0x205f,
  0x3000]

def isBlank (c : Char) : Bool := blankCodePoints.contains c.toNat

/-- Blanks around a number: the information separators U+001C to U+001F do not count there. -/
def isNumberBlank (c : Char) : Bool :=
  isBlank c && !(0x1c ≤ c.toNat && c.toNat ≤ 0x1f)

end CallWeight.Text
