/-
  Tractor.Text.Numeral — whole numbers as they are typed.

  A numeral is an optional sign and decimal digits of any script, which may be mixed;
  a single underscore may stand between two digits. Blanks around it do not count, but
  the information separators are not blanks here. More than 4300 digits are no numeral.

  - `digit?`: the value of a decimal digit.
  - `digits?`: the values of the digits of an unsigned numeral.
  - `integer?`: the value of a numeral.
  - `decimal`: the plain numeral of a number.
-/

import Tractor.Text.Blank

namespace Tractor.Text

/-- The zeros of the scripts with decimal digits; the other nine digits follow each. -/
def zeros : List Nat := [
  0x30, 0x660, 0x6F0, 0x7C0, 0x966, 0x9E6, 0xA66, 0xAE6, 0xB66, 0xBE6, 0xC66, 0xCE6, 0xD66,
  0xDE6, 0xE50, 0xED0, 0xF20, 0x1040, 0x1090, 0x17E0, 0x1810, 0x1946, 0x19D0, 0x1A80, 0x1A90,
  0x1B50, 0x1BB0, 0x1C40, 0x1C50, 0xA620, 0xA8D0, 0xA900, 0xA9D0, 0xA9F0, 0xAA50, 0xABF0,
  0xFF10, 0x104A0, 0x10D30, 0x11066, 0x110F0, 0x11136, 0x111D0, 0x112F0, 0x11450, 0x114D0,
  0x11650, 0x116C0, 0x11730, 0x118E0, 0x11950, 0x11C50, 0x11D50, 0x11DA0, 0x11F50, 0x16A60,
  0x16AC0, 0x16B50, 0x1D7CE, 0x1D7D8, 0x1D7E2, 0x1D7EC, 0x1D7F6, 0x1E140, 0x1E2F0, 0x1E4F0,
  0x1E950, 0x1FBF0]

def digit? (c : Char) : Option Nat :=
  (zeros.find? fun z => z ≤ c.toNat && c.toNat ≤ z + 9).map (c.toNat - ·)

def plainDigits? (cs : List Char) : Option (List Nat) := if cs.isEmpty then none else cs.mapM digit?

/-- The values of the digits, where single underscores may stand between digits. -/
def digits? (cs : List Char) : Option (List Nat) :=
  ((pieces (· == '_') cs).mapM plainDigits?).map List.flatten

def maxDigits : Nat := 4300

def ofDigits (ds : List Nat) : Nat := ds.foldl (fun n d => 10 * n + d) 0

def natural? (cs : List Char) : Option Nat :=
  (digits? cs).bind fun ds => if ds.length ≤ maxDigits then some (ofDigits ds) else none

def signed? : List Char → Option Int
  | '+' :: cs => (natural? cs).map Int.ofNat
  | '-' :: cs => (natural? cs).map fun n => -Int.ofNat n
  | cs => (natural? cs).map Int.ofNat

/-- A blank that may stand around a numeral. -/
def isPadding (c : Char) : Bool := isBlank c && !(0x1C ≤ c.toNat && c.toNat ≤ 0x1F)

def integer? (cs : List Char) : Option Int := signed? (trim isPadding cs)

def decimal : Int → List Char
  | .ofNat n => Nat.toDigits 10 n
  | .negSucc n => '-' :: Nat.toDigits 10 (n + 1)

end Tractor.Text
