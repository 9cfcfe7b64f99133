/-
  Tractor.Shape.Follow — the shapes that may follow a lead, one refinement at a time.

  Each run of the lead has a ladder: its current decomposition and the simpler ones
  below it, nearest first. A step moves the run with the most refinements left down by
  one; of several the one that the previous step ordered first moves. After each step
  the union of all current decompositions may be played, unless new adjacency is not
  allowed and a run led as a single tuple now holds a run of several tuples; the step
  is then made and nothing emitted.

  - `Ladder.descent`: the states after each step.
  - `Ladder.emissions`: the shapes emitted on the way.
-/

import Tractor.Shape.Decomposition

namespace Tractor

structure Ladder where
  current : Shape
  /-- The refinements still to come, nearest first. -/
  rest : List Shape
  /-- Whether the run was led as a single tuple. -/
  single : Bool
  deriving DecidableEq, Repr

namespace Ladder

/-- The decompositions that come after `[r]`; none when `[r]` is not among them. -/
def refinements (r : Run) (all : List Shape) : List Shape := (all.dropWhile (· != [r])).drop 1

def start (r : Run) (all : List Shape) : Ladder :=
  ⟨[r.sorted], refinements r.sorted all, decide (r.length = 1)⟩

/-- Refine the run with the most refinements left. -/
def step (ladders : List Ladder) : Option (List Ladder) :=
  -- the sort is stable: ladders that tie stay as the step before left them
  match ladders.mergeSort fun a b => decide (b.rest.length ≤ a.rest.length) with
  | ⟨_, s :: rest, single⟩ :: others => some (⟨s, rest, single⟩ :: others)
  | _ => none

def states : Nat → List Ladder → List (List Ladder)
  | 0, _ => []
  | n + 1, ladders =>
    match step ladders with
    | none => []
    | some after => after :: states n after

def left (ladders : List Ladder) : Nat := ladders.foldr (fun l n => l.rest.length + n) 0

/-- The states after each step until no refinement is left. -/
def descent (ladders : List Ladder) : List (List Ladder) := states (left ladders) ladders

/-- Whether no single tuple has become a run of several, where that matters. -/
def admissible (newAdjacency : Bool) (ladders : List Ladder) : Bool :=
  newAdjacency || ladders.all fun l => !l.single || l.current.all fun r => r.length == 1

def union (ladders : List Ladder) : Shape := Shape.canonical (ladders.flatMap Ladder.current)

def emissions (newAdjacency : Bool) (ladders : List Ladder) : List Shape :=
  ((descent ladders).filter (admissible newAdjacency)).map union

end Ladder

def ladders (lead : Shape) : List Ladder :=
  lead.map fun r => Ladder.start r (decompositions r.cards.toNat)

/-- The shapes that may follow a lead of non-empty runs with positive sizes. -/
def follows (lead : Shape) (newAdjacency : Bool) : List Shape :=
  Ladder.emissions newAdjacency (ladders lead)

end Tractor
