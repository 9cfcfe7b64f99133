/-
  Tractor.Shape.Listing — the listings on request, and what is refused.

  A request gives any integers. A listing is refused when its number of cards or
  positions, or one of its tuple sizes, is too small; a lead that holds an empty run
  has nothing to follow it, whatever its other runs hold.

  - `Fault`: why a listing is refused; `Fault.message` is its wording.
  - `listPartitions`, `listClusterings`, `listLayouts`, `listDecompositions`,
    `listFollows`: each checks its request and gives the listing.
-/

import Tractor.Shape.Follow

namespace Tractor

inductive Fault where
  /-- Partitions of fewer cards than one. -/
  | partitionSize
  /-- Clusterings of fewer positions than one. -/
  | clusteringSize
  /-- Layouts of no tuple at all. -/
  | noValues
  /-- Layouts of a tuple below two cards. -/
  | smallValue
  /-- Decompositions of fewer cards than one. -/
  | cardCount
  /-- A lead with a tuple below one card. -/
  | tupleSize
  deriving DecidableEq, Repr

def Fault.message : Fault → String
  | partitionSize => "num must be positive"
  | clusteringSize => "length must be positive"
  | noValues => "values must not be empty"
  | smallValue => "sequential runs only take tuple sizes above one"
  | cardCount => "num_cards must be positive"
  | tupleSize => "tuple sizes must be positive"

def listPartitions (n : Int) : Except Fault (List Run) :=
  if n < 1 then .error .partitionSize else .ok (partitions n.toNat)

def listClusterings (k : Int) : Except Fault (List Clustering) :=
  if k < 1 then .error .clusteringSize else .ok (clusterings k.toNat)

def listLayouts (values : Run) : Except Fault (List Shape) :=
  if values.isEmpty then .error .noValues
  else if values.any (· ≤ 1) then .error .smallValue
  else .ok (layouts values)

def listDecompositions (n : Int) : Except Fault (List Shape) :=
  if n < 1 then .error .cardCount else .ok (decompositions n.toNat)

def listFollows (lead : Shape) (newAdjacency : Bool) : Except Fault (List Shape) :=
  -- an empty run is noticed before any size is looked at
  if lead.any List.isEmpty then .ok []
  else if lead.any (List.any · (· < 1)) then .error .tupleSize
  else .ok (follows lead newAdjacency)

end Tractor
