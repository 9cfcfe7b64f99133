/-
  Tractor.Text.Blank — blanks, and the pieces of a text between them.

  Blank are the characters with the white-space property and the four information
  separators U+001C to U+001F. The zero-width space, the word joiner and the Mongolian
  vowel separator are not blank.

  - `strip`: a text without the blanks at its ends.
  - `pieces`: what lies between separators.
  - `words`: the longest stretches without a blank.
-/

namespace Tractor.Text

/-- White space and the information separators. -/
def isBlank (c : Char) : Bool :=
  let n := c.toNat
  (0x09 ≤ n && n ≤ 0x0D) || (0x1C ≤ n && n ≤ 0x20) || n == 0x85 || n == 0xA0 || n == 0x1680 ||
    (0x2000 ≤ n && n ≤ 0x200A) || n == 0x2028 || n == 0x2029 || n == 0x202F || n == 0x205F || n == 0x3000

def trim (kind : Char → Bool) (cs : List Char) : List Char :=
  ((cs.dropWhile kind).reverse.dropWhile kind).reverse

def strip (cs : List Char) : List Char := trim isBlank cs

/-- The text between separators, one piece more than there are separators. -/
def pieces (separator : Char → Bool) : List Char → List (List Char)
  | [] => [[]]
  | c :: cs =>
    if separator c then [] :: pieces separator cs
    else match pieces separator cs with
      | [] => [[c]]
      | p :: ps => (c :: p) :: ps

def words (cs : List Char) : List (List Char) := (pieces isBlank cs).filter (!·.isEmpty)

end Tractor.Text
