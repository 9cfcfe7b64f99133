/-
  Tractor.Memo.Session — the listings with finished results kept between requests.

  A session keeps three tables: partitions, clusterings and decompositions. A listing
  is taken from its table, or built and recorded; building asks for smaller listings
  in the same way, each with its own check. The one clustering of a single position is
  never recorded. Every record that stores, and every list of decompositions that is
  built, is noted in the log.

  - `Session.serve`: one request, its answer and the session after it.
  - `Request.answer`: the answer without any table.
-/

import Tractor.Memo.Table
import Tractor.Shape.Listing

namespace Tractor

inductive Table where
  | partitions
  | clusterings
  | decompositions
  deriving DecidableEq, Repr

def Table.name : Table → String
  | partitions => "partitions"
  | clusterings => "adjacency_assignments"
  | decompositions => "full_decompositions"

inductive Event where
  /-- The table stored a value for the key. -/
  | stored (table : Table) (key : Int)
  /-- So many decompositions were built for so many cards. -/
  | built (count : Nat) (cards : Int)
  deriving DecidableEq, Repr

def Event.message : Event → String
  | stored table key => Memo.storedMessage table.name key
  | built count cards => "built " ++ toString count ++ " decompositions for " ++ toString cards ++ " cards"

structure Session where
  partitions : Memo (List Run)
  clusterings : Memo (List Clustering)
  decompositions : Memo (List Shape)
  /-- What the last request noted, in order. -/
  log : List Event

/-- Work that may read and fill the tables and may be refused. -/
abbrev Caching := ExceptT Fault (StateM Session)

/-- Where a session keeps the values of one table. -/
structure Slot (α : Type) where
  table : Table
  read : Session → Memo α
  write : Session → Memo α → Session

namespace Slot

def partitions : Slot (List Run) := ⟨.partitions, Session.partitions, fun s m => { s with partitions := m }⟩

def clusterings : Slot (List Clustering) :=
  ⟨.clusterings, Session.clusterings, fun s m => { s with clusterings := m }⟩

def decompositions : Slot (List Shape) :=
  ⟨.decompositions, Session.decompositions, fun s m => { s with decompositions := m }⟩

end Slot

namespace Session

def empty : Session := ⟨.empty, .empty, .empty, []⟩

def note (s : Session) (e : Event) : Session := { s with log := s.log ++ [e] }

def record {α : Type} (s : Session) (slot : Slot α) (key : Int) (value : α) : α × Session :=
  let (kept, memo, stored) := (slot.read s).record key (some value)
  (kept.getD value, if stored then (slot.write s memo).note (.stored slot.table key) else s)

def clear (s : Session) : Table → Session
  | .partitions => { s with partitions := .empty }
  | .clusterings => { s with clusterings := .empty }
  | .decompositions => { s with decompositions := .empty }

end Session

namespace Caching

/-- The value kept for the key, or the value built now, which is recorded. -/
def remember {α : Type} (slot : Slot α) (key : Int) (build : Caching α) : Caching α := do
  match (slot.read (← get)).get? key with
  | some value => return value
  | none =>
    let value ← build
    modifyGet fun s => s.record slot key value

def partitions (n : Int) : Caching (List Run) :=
  if n < 1 then throw .partitionSize
  else remember .partitions n do
    let smaller ← if n = 1 then pure [[]] else partitions (n - 1)
    return Partition.next smaller
termination_by n.toNat

def clusterings (k : Int) : Caching (List Clustering) :=
  if k < 1 then throw .clusteringSize
  else if k = 1 then return [[[0]]]
  else remember .clusterings k do
    let smaller ← clusterings (k - 1)
    return Clustering.next (k - 1).toNat smaller
termination_by k.toNat

/-- The layouts of tuples above one card; they are not kept themselves. -/
def layouts (values : Run) : Caching (List Shape) :=
  if values.isEmpty then throw .noValues
  else if values.any (· ≤ 1) then throw .smallValue
  else do
    let cs ← clusterings values.length
    return layoutsOver cs values

def ofPartition (p : Run) : Caching (List Shape) :=
  if (Decomposition.large p).isEmpty then return [Decomposition.singles p]
  else do
    let shapes ← layouts (Decomposition.large p)
    return Decomposition.withSingles p shapes

def decompositions (n : Int) : Caching (List Shape) :=
  if n < 1 then throw .cardCount
  else remember .decompositions n do
    let ps ← partitions n
    let listed ← ps.mapM ofPartition
    let shapes := Shape.distinct listed.flatten
    modify fun s => s.note (.built shapes.length n)
    return shapes

def ladder (r : Run) : Caching Ladder := do
  let all ← decompositions r.cards
  return Ladder.start r all

def follows (lead : Shape) (newAdjacency : Bool) : Caching (List Shape) :=
  if lead.any List.isEmpty then return []
  else if lead.any (List.any · (· < 1)) then throw .tupleSize
  else do
    let ladders ← lead.mapM ladder
    return Ladder.emissions newAdjacency ladders

end Caching

inductive Request where
  | partitions (n : Int)
  | clusterings (k : Int)
  | layouts (values : Run)
  | decompositions (n : Int)
  | follows (lead : Shape) (newAdjacency : Bool)
  | clear (table : Table)
  deriving DecidableEq, Repr

inductive Answer where
  | runs (rs : List Run)
  | clusterings (cs : List Clustering)
  | shapes (ss : List Shape)
  | cleared
  deriving DecidableEq, Repr

namespace Request

/-- The answer that needs no table. -/
def answer : Request → Except Fault Answer
  | partitions n => (listPartitions n).map .runs
  | clusterings k => (listClusterings k).map .clusterings
  | layouts values => (listLayouts values).map .shapes
  | decompositions n => (listDecompositions n).map .shapes
  | follows lead newAdjacency => (listFollows lead newAdjacency).map .shapes
  | clear _ => .ok .cleared

def run : Request → Caching Answer
  | partitions n => .runs <$> Caching.partitions n
  | clusterings k => .clusterings <$> Caching.clusterings k
  | layouts values => .shapes <$> Caching.layouts values
  | decompositions n => .shapes <$> Caching.decompositions n
  | follows lead newAdjacency => .shapes <$> Caching.follows lead newAdjacency
  | clear table => do
    modify fun s => s.clear table
    return .cleared

end Request

/-- Answer a request; the log afterwards holds what this request noted. -/
def Session.serve (s : Session) (q : Request) : Except Fault Answer × Session :=
  q.run.run.run { s with log := [] }

end Tractor
