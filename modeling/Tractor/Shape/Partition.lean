/-
  Tractor.Shape.Partition — the ways to split a number of cards into tuples.

  A partition is written as the run of its tuple sizes from large to small. The
  partitions of `n + 1` cards come from those of `n`: one more card raises some tuple
  by one or lies alone. Every partition arises that way, once for each of its distinct
  sizes, so sorting and dropping repeats leaves each one once, largest first.

  - `Partition.additions`: what one more card makes of a partition.
  - `Partition.grown`: all additions to a list of partitions, repeats included.
  - `partitions`: the partitions of `n` cards in descending order.
-/

import Tractor.Shape.Basic

namespace Tractor

namespace Partition

/-- Raise by one the first tuple of each size, leaving out the sizes in `seen`. -/
def raisings (seen : Run) : Run → List Run
  | [] => []
  | x :: xs =>
    if seen.contains x then (raisings seen xs).map (x :: ·)
    else ((x + 1) :: xs) :: (raisings (x :: seen) xs).map (x :: ·)

/-- One more card: in a tuple of each size in turn, then alone. -/
def additions (p : Run) : List Run := raisings [] p ++ [p ++ [1]]

def grown (ps : List Run) : List Run := ps.flatMap additions

def next (ps : List Run) : List Run :=
  -- once they are sorted, equal partitions are neighbours
  ((grown ps).mergeSort fun a b => Run.le b a).eraseReps

end Partition

def partitions : Nat → List Run
  | 0 => [[]]
  | n + 1 => Partition.next (partitions n)

end Tractor
