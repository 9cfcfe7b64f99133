/-
  Tractor.Proofs.Shape.OneRun — what follows a lead of one run.

  One ladder comes down one refinement at a time, so what is emitted are the refinements
  of the run, in order, less those in which a single tuple became a run of several where
  that is not allowed (`Ladder.emissions_singleton`, `follows_singleton`).

  A shape stands apart when no two of its tuples are at adjacent ranks. A partition has one
  such shape, its tuples as runs of their own (`filter_isApart_ofPartition`), so the
  decompositions that stand apart are the partitions in their order
  (`filter_isApart_decompositions`).

  - `follows_of_one_run`: a lead of several tuples, or with new adjacency of one, is
    followed by all decompositions that come after it; a single tuple without new adjacency
    by the partitions of its cards after the first.
  - `tuple_eq_of_length_refinements`: single tuples with as many refinements are equal.
    With a card more there are more decompositions, for each of the old ones gets a single
    card and the one tuple of all cards has none.
-/

import Tractor.Proofs.Shape.Course
import Tractor.Proofs.Shape.Listed

namespace Tractor

/-! ## Shapes that stand apart -/

namespace Shape

def isApart (s : Shape) : Bool := s.all fun r => r.length == 1

def apart (p : Run) : Shape := p.map ([·])

@[simp] theorem isApart_apart (p : Run) : isApart (apart p) = true := by simp [isApart, apart]

@[simp] theorem flatten_apart (p : Run) : (apart p).flatten = p := flatten_map_singleton p

@[simp] theorem apart_append (p q : Run) : apart (p ++ q) = apart p ++ apart q := List.map_append

theorem exists_eq_apart {s : Shape} (h : s.isApart = true) : ∃ p, s = apart p := by
  apply exists_eq_map_singleton
  simpa [isApart] using h

theorem descending_apart {p : Run} (h : p.Descending) : (apart p).Descending := by
  refine List.pairwise_map.mpr (h.imp ?_)
  intro v w hwv
  refine List.cons_le_cons_iff.mpr ?_
  by_cases heq : w = v
  · exact Or.inr ⟨heq, List.le_refl _⟩
  · exact Or.inl (by omega)

end Shape

namespace Decomposition

open Shape

theorem apart_mem_ofPartition {n : Int} {p : Run} (h : IsPartition n p) : apart p ∈ ofPartition p := by
  have hlarge : apart (large p) ∈ layouts (large p) := List.mem_of_getLast? (getLast?_layouts _)
  have hsplit : apart (large p) ++ singles p = apart p := by
    rw [singles, ← apart, ← apart_append, large, List.takeWhile_append_dropWhile]
  refine (mem_ofPartition h).mpr ⟨_, hlarge, ?_⟩
  rw [hsplit, canonical_of_descending (descending_apart h.descending)]

theorem eq_apart_of_mem_ofPartition {n : Int} {p : Run} {s : Shape} (h : IsPartition n p) (hs : s ∈ ofPartition p)
    (hapart : s.isApart = true) : s = apart p := by
  have hflat := flatten_perm_of_mem_ofPartition h hs
  have hdesc := (isDecomposition_of_mem_ofPartition h hs).descending
  obtain ⟨q, rfl⟩ := exists_eq_apart hapart
  rw [flatten_apart] at hflat
  exact hdesc.eq_of_perm (descending_apart h.descending) (hflat.map _)

theorem filter_isApart_ofPartition {n : Int} {p : Run} (h : IsPartition n p) :
    (ofPartition p).filter isApart = [apart p] := by
  refine filter_eq_singleton (nodup_ofPartition p) (apart_mem_ofPartition h) ?_
  intro s hs
  constructor
  · exact eq_apart_of_mem_ofPartition h hs
  · intro heq
    simp [heq]

end Decomposition

/-- The decompositions that stand apart are the partitions, in their order. -/
theorem filter_isApart_decompositions (n : Nat) :
    (decompositions n).filter Shape.isApart = (partitions n).map Shape.apart := by
  rw [decompositions_eq_listed, Decomposition.listed, List.filter_flatMap, List.map_eq_flatMap]
  refine List.flatMap_congr ?_
  intro p hp
  exact Decomposition.filter_isApart_ofPartition (mem_partitions.mp hp)

/-! ## One ladder -/

namespace Ladder

@[simp] theorem ordered_singleton (l : Ladder) : ordered [l] = [l] := List.mergeSort_singleton l

theorem admissible_singleton (newAdjacency : Bool) (l : Ladder) :
    admissible newAdjacency [l] = (newAdjacency || !l.single || l.current.isApart) := by
  simp [admissible, Shape.isApart, Bool.or_assoc]

theorem union_singleton (l : Ladder) : union [l] = l.current.canonical := by simp [union]

theorem emissions_singleton (newAdjacency : Bool) (l : Ladder) :
    emissions newAdjacency [l] =
      (l.rest.filter fun s => newAdjacency || !l.single || s.isApart).map Shape.canonical := by
  obtain ⟨current, rest, single⟩ := l
  induction rest generalizing current with
  | nil =>
    have hstep : step [⟨current, [], single⟩] = none := step_eq_none (by simp)
    simp [emissions, descent_of_no_step hstep]
  | cons s rest ih =>
    have hstep : step [⟨current, s :: rest, single⟩] = some [⟨s, rest, single⟩] :=
      step_eq_some (ordered_singleton _) (List.cons_ne_nil s rest)
    unfold emissions at ih ⊢
    rw [descent_of_step hstep, List.filter_cons, List.filter_cons, admissible_singleton]
    split
    · rw [List.map_cons, List.map_cons, union_singleton, ih s]
    · exact ih s

end Ladder

theorem follows_singleton (r : Run) (newAdjacency : Bool) :
    follows [r] newAdjacency =
      r.refinements.filter fun s => newAdjacency || !decide (r.length = 1) || s.isApart := by
  rw [follows, ladders, List.map_singleton, Ladder.emissions_singleton, rest_start, Ladder.start]
  -- a refinement is canonical already
  apply map_eq_self
  intro s hs
  have hs : s ∈ r.refinements := (List.mem_filter.mp hs).1
  exact Shape.canonical_of_descending (mem_decompositions.mp (List.mem_of_mem_drop hs)).descending

/-- All cards in one tuple, and after that its refinements. -/
theorem decompositions_eq_tuple_cons {n : Int} (hn : 1 ≤ n) :
    decompositions n.toNat = [[n]] :: Run.refinements [n] := by
  have hlegal : Run.Legal [n] := by simpa using (isDecomposition_tuple hn).legal
  have hcards : Run.cards [n] = n := by simp [Run.cards]
  obtain ⟨before, hsplit⟩ := Run.rungs_of_legal hlegal
  have hhead : (decompositions n.toNat).head? = some [[(n.toNat : Int)]] := head?_decompositions (by omega)
  have hnodup : (decompositions n.toNat).Nodup := Shape.nodup_distinct _
  rw [hcards, Run.rungs, Run.sorted_singleton] at hsplit
  rw [Int.toNat_of_nonneg (by omega), ← hsplit] at hhead
  rw [← hsplit] at hnodup ⊢
  cases before with
  | nil => rfl
  | cons s before =>
    -- the tuple would stand in two places
    obtain rfl : s = [[n]] := by simpa using hhead
    simp at hnodup

/-- A lead of one run, of which no tuple is a single card, is followed by the decompositions
    of its cards that come after it, unless it is a single tuple and new adjacency is not
    allowed; then it is followed by the partitions of its cards after the first, each tuple
    as a run of its own. -/
theorem follows_of_one_run :
    (∀ (r : Run) (newAdjacency : Bool), r ≠ [] → (∀ v ∈ r, 2 ≤ v) → 1 < r.length ∨ newAdjacency = true →
      ∃ all before shapes, listDecompositions r.cards = .ok all ∧ listFollows [r] newAdjacency = .ok shapes ∧
        all = before ++ [r.sorted] :: shapes ∧ all.Nodup) ∧
      (∀ newAdjacency, listFollows [[]] newAdjacency = .ok [] ∧
        listDecompositions (Run.cards []) = .error .cardCount) ∧
      ∀ n : Int, 1 ≤ n → ∃ ps, listPartitions n = .ok ([n] :: ps) ∧
        listFollows [[n]] false = .ok (ps.map fun p => p.map ([·])) := by
  refine ⟨?_, fun newAdjacency => ⟨rfl, rfl⟩, ?_⟩
  · intro r newAdjacency hne htwo hfree
    have hlegal : r.Legal := ⟨hne, Or.inr htwo⟩
    have hlead : Shape.IsLead [r] := ⟨by simpa using hne, by simpa using hlegal.positive⟩
    have hcards := hlead.one_le_cards List.mem_cons_self
    obtain ⟨before, hsplit⟩ := Run.rungs_of_legal hlegal
    refine ⟨decompositions r.cards.toNat, before, r.refinements, ?_, ?_, hsplit.symm, Shape.nodup_distinct _⟩
    · rw [listDecompositions, if_neg (by omega)]
    · rw [listFollows_eq hlead, follows_singleton, List.filter_eq_self.mpr]
      intro s _
      rcases hfree with hlen | hnew
      · have : r.length ≠ 1 := by omega
        simp [this]
      · simp [hnew]
  · intro n hn
    have hlead : Shape.IsLead [[n]] := ⟨by simp, by simpa using hn⟩
    have hfilter := filter_isApart_decompositions n.toNat
    have htuple : Shape.isApart [[n]] = true := rfl
    -- the tuple of all cards is the first decomposition and stands apart
    rw [decompositions_eq_tuple_cons hn, List.filter_cons_of_pos htuple] at hfilter
    obtain ⟨p, ps, hps, hp, hrest⟩ := List.map_eq_cons_iff.mp hfilter.symm
    obtain rfl : p = [n] := by simpa using congrArg List.flatten hp
    refine ⟨ps, ?_, ?_⟩
    · rw [listPartitions, if_neg (by omega), hps]
    · rw [listFollows_eq hlead, follows_singleton]
      exact congrArg Except.ok hrest.symm

/-- A pair before a triple is followed by all that comes after the triple before the pair; of
    four cards in one tuple the two pairs at adjacent ranks are passed over. -/
theorem follows_of_one_run_five :
    (∃ all before shapes, listDecompositions 5 = .ok all ∧ listFollows [[2, 3]] false = .ok shapes ∧
      all = before ++ [[3, 2]] :: shapes ∧ all.Nodup) ∧
      ∃ ps, listPartitions 4 = .ok ([4] :: ps) ∧ [2, 2] ∈ ps ∧
        listFollows [[4]] false = .ok (ps.map fun p => p.map ([·])) := by
  obtain ⟨hrun, -, htuple⟩ := follows_of_one_run
  have hsorted : Run.sorted [2, 3] = [3, 2] := Run.sorted_eq (by decide) (by decide)
  refine ⟨hsorted ▸ hrun [2, 3] false (by decide) (by decide) (Or.inl (by decide)), ?_⟩
  obtain ⟨ps, hps, hfollows⟩ := htuple 4 (by decide)
  have hpairs : [2, 2] ∈ [4] :: ps := by
    rw [← show partitions 4 = [4] :: ps from Except.ok.inj hps, mem_partitions]
    exact ⟨by decide, by decide, by decide⟩
  exact ⟨ps, hps, by simpa using hpairs, hfollows⟩

/-! ## How many refinements a single tuple has -/

theorem length_decompositions_succ_lt {n : Nat} (hn : 1 ≤ n) :
    (decompositions n).length < (decompositions (n + 1)).length := by
  have hsingle := congrArg List.length (filter_single_decompositions n)
  rw [List.length_map] at hsingle
  rw [← hsingle, List.length_filter_lt_length_iff_exists]
  refine ⟨[[((n + 1 : Nat) : Int)]], mem_decompositions.mpr (isDecomposition_tuple (by omega)), ?_⟩
  simp
  omega

theorem length_decompositions_lt {m n : Nat} (hm : 1 ≤ m) (h : m < n) :
    (decompositions m).length < (decompositions n).length := by
  induction n, h using Nat.le_induction with
  | base => exact length_decompositions_succ_lt hm
  | succ n hmn ih =>
    have := length_decompositions_succ_lt (n := n) (by omega)
    omega

theorem tuple_eq_of_length_refinements {v w : Int} (hv : 1 ≤ v) (hw : 1 ≤ w)
    (h : (Run.refinements [v]).length = (Run.refinements [w]).length) : v = w := by
  have hlength : (decompositions v.toNat).length = (decompositions w.toNat).length := by
    rw [decompositions_eq_tuple_cons hv, decompositions_eq_tuple_cons hw, List.length_cons, List.length_cons, h]
  rcases Nat.lt_trichotomy v.toNat w.toNat with hlt | heq | hlt
  · have := length_decompositions_lt (by omega) hlt
    omega
  · omega
  · have := length_decompositions_lt (by omega) hlt
    omega

end Tractor
