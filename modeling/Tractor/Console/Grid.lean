/-
  Tractor.Console.Grid — listings and hands as two columns under a title.

  A listing numbers its shapes from one; an empty listing has a single row that says
  so. A hand has a row for each card with its count. Some cells carry a style, which
  shows only in the markup of the cell.
-/

import Tractor.Hand.Tally
import Tractor.Shape.Written

namespace Tractor.Console

inductive Justify where
  | left
  | right
  deriving DecidableEq, Repr

structure Cell where
  text : String
  style : Option String
  deriving DecidableEq, Repr

def Cell.markup (c : Cell) : String :=
  match c.style with
  | none => c.text
  | some style => "[" ++ style ++ "]" ++ c.text ++ "[/" ++ style ++ "]"

structure Column where
  header : String
  justify : Justify
  cells : List Cell
  deriving DecidableEq, Repr

/-- Two columns of equally many cells under a title. -/
structure Grid where
  title : String
  first : Column
  second : Column
  deriving DecidableEq, Repr

namespace Grid

def rows (g : Grid) : Nat := g.first.cells.length

def symbol : Suit → String
  | .spades => "♠"
  | .hearts => "♥"
  | .diamonds => "♦"
  | .clubs => "♣"

def style : Suit → String
  | .spades => "cyan"
  | .hearts => "red"
  | .diamonds => "magenta"
  | .clubs => "green"

/-- A card by its rank and the symbol of its suit, or a joker by its code. -/
def cardCell : Card → Cell
  | .joker j => ⟨j.value, some "magenta"⟩
  | .suited r s => ⟨r.value ++ symbol s, some (style s)⟩

def numberCell (n : Int) : Cell := ⟨String.ofList (Text.decimal n), none⟩

def ofShapes (title : String) (shapes : List Shape) : Grid :=
  let numbers := if shapes.isEmpty then [⟨"-", none⟩]
    else (List.range shapes.length).map fun i => numberCell (Int.ofNat (i + 1))
  let shown := if shapes.isEmpty then [⟨"no shapes", some "dim"⟩]
    else shapes.map fun s => ⟨String.ofList s.shown, none⟩
  ⟨title, ⟨"#", .right, numbers⟩, ⟨"Shape", .left, shown⟩⟩

def ofPiles (title : String) (piles : List Pile) : Grid :=
  ⟨title, ⟨"Card", .left, piles.map fun p => cardCell p.1⟩,
    ⟨"Count", .right, piles.map fun p => numberCell p.2⟩⟩

end Grid

end Tractor.Console
