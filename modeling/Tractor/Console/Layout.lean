/-
  Tractor.Console.Layout — grids and long texts as lines of at most 80 characters.

  A text is wrapped between words, and a word longer than a line is cut. A column is as
  wide as its longest cell and a space on each side; where the grid would be wider than
  the page, its second column gives way and its cells are wrapped. The title stands
  centred above, the header is ruled off, and a blank line goes before and after.

  - `wrap`: a text in lines of a width.
  - `Grid.lines`: the lines of a grid.
  - `paragraph`: the lines of a text that fills the page.
-/

import Tractor.Console.Grid

namespace Tractor.Console

def pageWidth : Nat := 80

/-! ## Wrapping -/

/-- The words of a text, each with the spaces after it. -/
def spacedWords : List Char → List (List Char)
  | [] => []
  | c :: cs =>
    match spacedWords cs with
    | [] => [[c]]
    | w :: ws => if c == ' ' && w.head? != some ' ' then [c] :: w :: ws else (c :: w) :: ws

def trimEnd (cs : List Char) : List Char := (cs.reverse.dropWhile (· == ' ')).reverse

/-- At most `n` pieces of a width; the last one may be shorter. -/
def cut (width : Nat) : Nat → List Char → List (List Char)
  | 0, _ => []
  | n + 1, cs => if cs.isEmpty then [] else cs.take width :: cut width n (cs.drop width)

/-- The lines that are finished, the last one first, and the line being filled. -/
structure Filling where
  finished : List (List Char)
  line : List Char

/-- Put a word on the line if it fits, and else on the next; cut it if it fits on none. -/
def Filling.add (width : Nat) (f : Filling) (word : List Char) : Filling :=
  let length := (trimEnd word).length
  if f.line.length + length ≤ width then { f with line := f.line ++ word }
  else
    let finished := if f.line.isEmpty then f.finished else f.line :: f.finished
    if width < length then
      match (cut width word.length word).reverse with
      | last :: before => ⟨before ++ finished, last⟩
      | [] => ⟨finished, []⟩
    else ⟨finished, word⟩

def wrap (width : Nat) (cs : List Char) : List (List Char) :=
  let f := (spacedWords cs).foldl (Filling.add width) ⟨[], []⟩
  (f.line :: f.finished).reverse

def wrapTrimmed (width : Nat) (cs : List Char) : List (List Char) := (wrap width cs).map trimEnd

/-! ## Placing -/

def spaces (n : Nat) : List Char := List.replicate n ' '

def justified (width : Nat) (cs : List Char) : Justify → List Char
  | .left => cs ++ spaces (width - cs.length)
  | .right => spaces (width - cs.length) ++ cs

/-- The line in the middle of a width, an odd space at its right. -/
def centred (width : Nat) (cs : List Char) : List Char :=
  let missing := width - cs.length
  spaces (missing / 2) ++ cs ++ spaces (missing - missing / 2)

/-! ## Grids -/

def Column.longest (c : Column) : Nat :=
  (c.cells.map fun cell => cell.text.length).foldl max c.header.length

def rowLine (left right : List Char) : List Char :=
  [' ', ' '] ++ left ++ [' ', ' ', ' '] ++ right ++ [' ', ' ']

structure Frame where
  first : Nat
  second : Nat
  deriving DecidableEq, Repr

namespace Frame

/-- Room for the longest texts, as far as the page has it; a line takes seven spaces more. -/
def ofGrid (g : Grid) : Frame :=
  let first := g.first.longest
  ⟨first, min g.second.longest (pageWidth - 7 - first)⟩

def width (f : Frame) : Nat := f.first + f.second + 7

/-- The lines of a row of the grid; the shorter cell is filled up with blank lines. -/
def rowLines (f : Frame) (g : Grid) (left right : String) : List (List Char) :=
  let ls := wrapTrimmed f.first left.toList
  let rs := wrapTrimmed f.second right.toList
  (List.range (max ls.length rs.length)).map fun i =>
    rowLine (justified f.first (ls.getD i []) g.first.justify)
      (justified f.second (rs.getD i []) g.second.justify)

def titleLines (f : Frame) (title : String) : List (List Char) :=
  (wrapTrimmed f.width title.toList).map (centred f.width)

def rule (f : Frame) : List Char := ' ' :: List.replicate (f.width - 2) '─' ++ [' ']

end Frame

def Grid.lines (g : Grid) : List String :=
  let f := Frame.ofGrid g
  let header := f.rowLines g g.first.header g.second.header
  let body := (g.first.cells.zip g.second.cells).flatMap fun (a, b) => f.rowLines g a.text b.text
  (f.titleLines g.title ++ [spaces f.width] ++ header ++ [f.rule] ++ body ++ [spaces f.width]).map
    String.ofList

/-- The lines of a text that fills the page; what reaches beyond it is spaces. -/
def paragraph (text : String) : List String :=
  (wrap pageWidth text.toList).map fun line => String.ofList (line.take pageWidth)

end Tractor.Console
