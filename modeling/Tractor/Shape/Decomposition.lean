/-
  Tractor.Shape.Decomposition — every shape a number of cards can take.

  Single cards need not be adjacent to anything, so each is a run of its own; the
  larger tuples of a partition are laid out in every shape they can form. Larger
  tuples come first, then longer runs, then fewer runs.

  - `Decomposition.listed`: the shapes in order, before repeats are dropped.
  - `decompositions`: every shape of `n` cards, the most demanding first.
-/

import Tractor.Shape.Arrangement
import Tractor.Shape.Partition

namespace Tractor

namespace Decomposition

def large (p : Run) : Run := p.takeWhile (· != 1)

def singles (p : Run) : Shape := (p.dropWhile (· != 1)).map ([·])

def withSingles (p : Run) (layouts : List Shape) : List Shape :=
  layouts.map fun s => Shape.canonical (s ++ singles p)

def ofPartition (p : Run) : List Shape :=
  if (large p).isEmpty then [singles p] else withSingles p (layouts (large p))

def listed (n : Nat) : List Shape := (partitions n).flatMap ofPartition

end Decomposition

/-- Every shape of `n` cards, the most demanding first. -/
def decompositions (n : Nat) : List Shape := Shape.distinct (Decomposition.listed n)

end Tractor
