/-
  Tractor.Shape.Written — shapes as text, shown and typed.

  A shape is shown as its runs with a space between each two, a run as its sizes in
  square brackets, with a comma and a space between each two. It is typed without
  brackets: runs between blanks, sizes between commas, each size a numeral.

  - `Shape.shown`, `Run.shown`: the text shown.
  - `Shape.ofText`: the shape typed, or the fault of the leftmost bad run.
-/

import Tractor.Shape.Basic
import Tractor.Text.Numeral

namespace Tractor

def Run.shown (r : Run) : List Char := '[' :: [',', ' '].intercalate (r.map Text.decimal) ++ [']']

def Shape.shown (s : Shape) : List Char := [' '].intercalate (s.map Run.shown)

inductive ShapeFault where
  /-- A size that is no numeral. -/
  | badRun (typed : String)
  /-- A size below one. -/
  | badSize (typed : String)
  /-- No run at all. -/
  | noRun
  deriving DecidableEq, Repr

def ShapeFault.message : ShapeFault → String
  | badRun typed => "invalid run '" ++ typed ++ "'"
  | badSize typed => "tuple sizes must be positive in '" ++ typed ++ "'"
  | noRun => "shape must contain at least one run"

def Run.ofTyped (typed : List Char) : Except ShapeFault Run :=
  match (Text.pieces (· == ',') typed).mapM Text.integer? with
  | none => .error (.badRun (String.ofList typed))
  | some sizes => if sizes.any (· < 1) then .error (.badSize (String.ofList typed)) else .ok sizes

def Shape.ofTyped (typed : List Char) : Except ShapeFault Shape :=
  match Text.words typed with
  | [] => .error .noRun
  | runs => runs.mapM Run.ofTyped

def Shape.ofText (text : String) : Except ShapeFault Shape := ofTyped text.toList

end Tractor
