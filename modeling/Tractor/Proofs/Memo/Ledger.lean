/-
  Tractor.Proofs.Memo.Ledger — what a session keeps and notes, in three numbers.

  Partitions and clusterings are built from smaller ones, which are recorded first. So the
  table of partitions has the keys `1` to `p`, that of clusterings the keys `2` to `a`, and
  only the decompositions are a list of sizes: these make up a `Ledger`. A session that
  holds to its ledger (`Session.Holds`) keeps for each of these keys what the listing
  gives without any table.

  - `Ledger.ask`, `Ledger.notes`: the decompositions of one size are asked for. Their
    partitions have up to half as many larger tuples, so clusterings are needed up to there.
  - `Ledger.after`, `Ledger.noted`: any request, and what it notes.
  - `Ledger.storedUpTo_append`: keys stored up to one bound and then up to another are
    stored up to the greater one.
-/

import Tractor.Memo.Session
import Tractor.Proofs.Memo.Table
import Tractor.Proofs.Shape.Follow

namespace Tractor

/-- The greatest keys of partitions and clusterings, and the sizes of decompositions. The
    one clustering of a single position counts as kept, though it is never recorded. -/
structure Ledger where
  partitions : Nat
  clusterings : Nat
  decompositions : List Int
  one_le : 1 ≤ clusterings

structure Session.Holds (s : Session) (b : Ledger) : Prop where
  partitions : s.partitions.Keeps (fun k => 1 ≤ k ∧ k ≤ b.partitions) fun k => Tractor.partitions k.toNat
  clusterings : s.clusterings.Keeps (fun k => 2 ≤ k ∧ k ≤ b.clusterings) fun k => Tractor.clusterings k.toNat
  decompositions : s.decompositions.Keeps (fun k => 1 ≤ k ∧ k ∈ b.decompositions) fun k => Tractor.decompositions k.toNat

theorem Session.Holds.note {s : Session} {b : Ledger} (h : s.Holds b) (e : Event) : (s.note e).Holds b :=
  ⟨h.partitions, h.clusterings, h.decompositions⟩

namespace Ledger

def empty : Ledger := ⟨0, 1, [], Nat.le_refl 1⟩

def addPartitions (b : Ledger) (n : Nat) : Ledger := { b with partitions := max b.partitions n }

def addClusterings (b : Ledger) (k : Nat) : Ledger :=
  { b with clusterings := max b.clusterings k, one_le := Nat.le_trans b.one_le (Nat.le_max_left ..) }

def addDecompositions (b : Ledger) (n : Int) : Ledger := { b with decompositions := n :: b.decompositions }

theorem addPartitions_of_le {b : Ledger} {n : Nat} (h : n ≤ b.partitions) : b.addPartitions n = b := by
  rw [addPartitions, Nat.max_eq_left h]

theorem addClusterings_of_le {b : Ledger} {k : Nat} (h : k ≤ b.clusterings) : b.addClusterings k = b := by
  simp only [addClusterings, Nat.max_eq_left h]

@[simp] theorem addPartitions_zero (b : Ledger) : b.addPartitions 0 = b := addPartitions_of_le (Nat.zero_le _)

@[simp] theorem addClusterings_zero (b : Ledger) : b.addClusterings 0 = b := addClusterings_of_le (Nat.zero_le _)

theorem addClusterings_addClusterings (b : Ledger) (j k : Nat) :
    (b.addClusterings j).addClusterings k = b.addClusterings (max j k) := by
  simp only [addClusterings, Nat.max_assoc]

/-- The keys above `a` up to `c`, stored one after another. -/
def storedUpTo (table : Table) (a c : Nat) : List Event :=
  (List.range' (a + 1) (c - a)).map fun k : Nat => .stored table k

theorem storedUpTo_of_le (table : Table) {a c : Nat} (h : c ≤ a) : storedUpTo table a c = [] := by
  rw [storedUpTo, Nat.sub_eq_zero_of_le h]
  rfl

@[simp] theorem storedUpTo_zero (table : Table) (a : Nat) : storedUpTo table a 0 = [] :=
  storedUpTo_of_le table (Nat.zero_le a)

theorem storedUpTo_succ (table : Table) {a c : Nat} (h : a ≤ c) :
    storedUpTo table a (c + 1) = storedUpTo table a c ++ [.stored table (c + 1 : Nat)] := by
  have hlen : c + 1 - a = c - a + 1 := by omega
  have hlast : a + 1 + 1 * (c - a) = c + 1 := by omega
  rw [storedUpTo, hlen, List.range'_concat, List.map_append, hlast]
  rfl

/-- Storing up to `c` and then, from what is there, up to `d`. -/
theorem storedUpTo_append (table : Table) (a c d : Nat) :
    storedUpTo table a c ++ storedUpTo table (max a c) d = storedUpTo table a (max c d) := by
  by_cases hca : c ≤ a
  · rw [storedUpTo_of_le table hca, List.nil_append, Nat.max_eq_left hca]
    by_cases hda : d ≤ a
    · rw [storedUpTo_of_le table hda, storedUpTo_of_le table (by omega)]
    · rw [Nat.max_eq_right (by omega)]
  · rw [Nat.max_eq_right (by omega : a ≤ c)]
    by_cases hdc : d ≤ c
    · rw [storedUpTo_of_le table hdc, List.append_nil, Nat.max_eq_left hdc]
    · have hlen : d - a = (c - a) + (d - c) := by omega
      have hmid : c + 1 = a + 1 + 1 * (c - a) := by omega
      rw [Nat.max_eq_right (by omega : c ≤ d), storedUpTo, storedUpTo, storedUpTo, ← List.map_append, hlen, hmid,
        List.range'_append]

def ask (b : Ledger) (n : Int) : Ledger :=
  if n ∈ b.decompositions then b
  else ((b.addPartitions n.toNat).addClusterings (n.toNat / 2)).addDecompositions n

def notes (b : Ledger) (n : Int) : List Event :=
  if n ∈ b.decompositions then []
  else storedUpTo .partitions b.partitions n.toNat ++ storedUpTo .clusterings b.clusterings (n.toNat / 2) ++
    [.built (Tractor.decompositions n.toNat).length n, .stored .decompositions n]

def askAll (b : Ledger) (ns : List Int) : Ledger := ns.foldl ask b

def notesAll (b : Ledger) : List Int → List Event
  | [] => []
  | n :: ns => b.notes n ++ (b.ask n).notesAll ns

/-- After a request; one that is refused leaves the tables as they are. -/
def after (b : Ledger) : Request → Ledger
  | .partitions n => b.addPartitions n.toNat
  | .clusterings k => b.addClusterings k.toNat
  | .layouts values => if values.any (· ≤ 1) then b else b.addClusterings values.length
  | .decompositions n => if n < 1 then b else b.ask n
  | .follows lead _ => if lead.IsLead then b.askAll (lead.map Run.cards) else b
  | .clear .partitions => { b with partitions := 0 }
  | .clear .clusterings => { b with clusterings := 1, one_le := Nat.le_refl 1 }
  | .clear .decompositions => { b with decompositions := [] }

def noted (b : Ledger) : Request → List Event
  | .partitions n => storedUpTo .partitions b.partitions n.toNat
  | .clusterings k => storedUpTo .clusterings b.clusterings k.toNat
  | .layouts values => if values.any (· ≤ 1) then [] else storedUpTo .clusterings b.clusterings values.length
  | .decompositions n => if n < 1 then [] else b.notes n
  | .follows lead _ => if lead.IsLead then b.notesAll (lead.map Run.cards) else []
  | .clear _ => []

end Ledger

/-! ## One more entry -/

namespace Session.Holds

variable {s : Session} {b : Ledger}

theorem store_partitions {n : Nat} (h : s.Holds (b.addPartitions n)) (hn : b.partitions ≤ n) :
    Holds { s with partitions := ⟨s.partitions.entries.insert (n + 1 : Nat) (some (Tractor.partitions (n + 1)))⟩ }
      (b.addPartitions (n + 1)) := by
  refine ⟨h.partitions.insert (n + 1 : Nat) fun k => ?_, h.clusterings, h.decompositions⟩
  simp only [Ledger.addPartitions]
  omega

theorem store_clusterings {n : Nat} (h : s.Holds (b.addClusterings n)) (hn : b.clusterings ≤ n) :
    Holds { s with clusterings := ⟨s.clusterings.entries.insert (n + 1 : Nat) (some (Tractor.clusterings (n + 1)))⟩ }
      (b.addClusterings (n + 1)) := by
  have hone := b.one_le
  refine ⟨h.partitions, h.clusterings.insert (n + 1 : Nat) fun k => ?_, h.decompositions⟩
  simp only [Ledger.addClusterings]
  omega

theorem store_decompositions {n : Int} (h : s.Holds b) (hn : 1 ≤ n) :
    Holds { s with decompositions := ⟨s.decompositions.entries.insert n (some (Tractor.decompositions n.toNat))⟩ }
      (b.addDecompositions n) := by
  refine ⟨h.partitions, h.clusterings, h.decompositions.insert n fun k => ?_⟩
  simp only [Ledger.addDecompositions, List.mem_cons]
  by_cases hk : k = n
  · simp [hk, hn]
  · simp [hk]

end Session.Holds

end Tractor
