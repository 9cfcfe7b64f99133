/-
  Tractor.Shape.Arrangement — the shapes that given tuple sizes can form.

  A clustering of the positions of the sizes says which tuples are adjacent; within a
  cluster the tuples may stand in any order. A cluster of equal sizes has one order
  only, so a clustering of such clusters gives one shape at once, which is also what
  the general way gives.

  - `arrangements`: the orders of a list of sizes, each once.
  - `Clustering.arrangedInFull`: the shapes of a clustering, the general way.
  - `Clustering.arranged`: the same shapes, at once where there is only one.
  - `layouts`: every shape over all sizes, up to the order of its runs.
-/

import Tractor.Shape.Basic
import Tractor.Shape.Clustering

namespace Tractor

/-- The orders of `n` of the values; a value that occurs twice is chosen once. -/
def arrangementsOfLength : Nat → Run → List Run
  | 0, _ => [[]]
  | n + 1, values =>
    values.eraseDups.flatMap fun v => (arrangementsOfLength n (values.erase v)).map (v :: ·)

def arrangements (values : Run) : List Run := arrangementsOfLength values.length values

/-- One member of each list, the first list varying slowest. -/
def choices {α : Type} : List (List α) → List (List α)
  | [] => [[]]
  | xs :: rest =>
    let tails := choices rest
    xs.flatMap fun x => tails.map (x :: ·)

def Run.isUniform : Run → Bool
  | [] => true
  | v :: vs => vs.all (· == v)

namespace Clustering

def groups (c : Clustering) (values : Run) : Shape :=
  c.map fun cluster => cluster.map fun i => values.getD i 0

def arrangedInFull (c : Clustering) (values : Run) : List Shape :=
  choices ((c.groups values).map arrangements)

/-- The shapes of a clustering; where every cluster is uniform there is only one. -/
def arranged (c : Clustering) (values : Run) : List Shape :=
  if (c.groups values).all Run.isUniform then [c.groups values] else c.arrangedInFull values

end Clustering

def layoutsOver (cs : List Clustering) (values : Run) : List Shape :=
  Shape.distinct (cs.flatMap fun c => c.arranged values)

def layouts (values : Run) : List Shape := layoutsOver (clusterings values.length) values

end Tractor
