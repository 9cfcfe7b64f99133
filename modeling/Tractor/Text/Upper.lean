/-
  Tractor.Text.Upper — upper case for the letters of codes.

  A code holds ASCII characters only. The long s is the one other character whose upper
  case is a single ASCII letter that a code may hold, and no character becomes several
  that form a part of a code. So upper case is needed for the ASCII letters and the
  long s alone, and every other character stays and makes its text no code.
-/

namespace Tractor.Text

/-- The upper case of an ASCII letter or of the long s. -/
def upperChar (c : Char) : Char := if c.toNat = 0x17F then 'S' else c.toUpper

def upper (cs : List Char) : List Char := cs.map upperChar

end Tractor.Text
