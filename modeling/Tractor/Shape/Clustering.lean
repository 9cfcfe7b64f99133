/-
  Tractor.Shape.Clustering — the ways to split positions into clusters.

  A clustering of `k` positions is a list of non-empty clusters of the positions below
  `k`. Those of `k + 1` come from those of `k`: the new position joins a cluster or
  stands alone. Each arises once. They are listed with large clusters first, and of
  equally large ones with few clusters first; a tie keeps the order in which they arose.

  - `placements`: what one more position makes of a clustering.
  - `clusterings`: the clusterings of `k` positions in that order.
-/

namespace Tractor

abbrev Clustering := List (List Nat)

namespace Clustering

def largest (c : Clustering) : Nat := (c.map List.length).foldl max 0

/-- Large clusters first, then few clusters. -/
def before (c d : Clustering) : Bool :=
  decide (d.largest < c.largest) || (decide (c.largest = d.largest) && decide (c.length ≤ d.length))

/-- Put position `k` into each cluster in turn, then into one of its own. -/
def placements (k : Nat) : Clustering → List Clustering
  | [] => [[[k]]]
  | c :: cs => ((c ++ [k]) :: cs) :: (placements k cs).map (c :: ·)

def extended (k : Nat) (cs : List Clustering) : List Clustering := cs.flatMap (placements k)

def next (k : Nat) (cs : List Clustering) : List Clustering :=
  ((extended k cs).mergeSort before).eraseReps

end Clustering

def clusterings : Nat → List Clustering
  | 0 => [[]]
  | k + 1 => Clustering.next k (clusterings k)

end Tractor
