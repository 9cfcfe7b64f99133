/-
  Tractor.Proofs.Shape.Listed — the decompositions of `n` cards, partition by partition.

  No two shapes that are listed reorder one another: shapes of different partitions have
  different tuples, and inside a partition the layouts differ. So nothing is dropped, and
  the decompositions are the shapes of one partition after another
  (`decompositions_eq_listed`).

  One card more adds partitions and shapes, and to each of the old ones a single card:
  - `filter_single_partitions`: the partitions of `n + 1` cards with a single card are
    those of `n` cards, in their order, with one more single card at the end.
  - `Decomposition.ofPartition_append_single`: the larger tuples of such a partition are
    the same, so its shapes are too, but for the single card, which every other run
    comes before.
  - `filter_single_decompositions`, `listDecompositions_with_single_card`: so the
    decompositions with a single card are those of a card less.
-/

import Mathlib.Data.List.Sort
import Tractor.Proofs.Shape.Distinct
import Tractor.Proofs.Shape.Layout
import Tractor.Proofs.Shape.Profile

namespace Tractor

/-! ## Nothing is dropped -/

namespace Decomposition

theorem nodup_ofPartition (p : Run) : (ofPartition p).Nodup := by
  unfold ofPartition
  split
  · exact List.nodup_singleton _
  · have hlayouts : ((layouts (large p)).map Shape.canonical).Nodup := Shape.nodup_canonical_distinct _
    refine List.pairwise_map.mpr ((List.pairwise_map.mp hlayouts).imp ?_)
    intro s t hne heq
    have hperm : (s ++ singles p).Perm (t ++ singles p) := Shape.canonical_eq_iff.mp heq
    exact hne (Shape.canonical_eq_of_perm ((List.perm_append_right_iff _).mp hperm))

theorem nodup_listed (n : Nat) : (listed n).Nodup := by
  refine List.pairwise_flatMap.mpr ⟨fun p _ => nodup_ofPartition p, ?_⟩
  refine (nodup_partitions n).imp_of_mem ?_
  intro p q hp hq hne s hs t ht heq
  -- a shape has the tuples of its partition
  apply hne
  rw [← profile_of_mem_ofPartition (mem_partitions.mp hp) hs, heq,
    profile_of_mem_ofPartition (mem_partitions.mp hq) ht]

theorem map_canonical_listed (n : Nat) : (listed n).map Shape.canonical = listed n := by
  apply map_eq_self
  intro s hs
  exact Shape.canonical_of_descending (mem_listed.mp hs).descending

end Decomposition

theorem decompositions_eq_listed (n : Nat) : decompositions n = Decomposition.listed n := by
  apply Shape.distinct_of_nodup
  rw [Decomposition.map_canonical_listed]
  exact Decomposition.nodup_listed n

/-! ## One single card more -/

theorem IsPartition.append_single_lt {n : Int} {p q : Run} (hp : IsPartition n p) (hq : IsPartition n q)
    (h : List.lt q p) : List.lt (q ++ [1]) (p ++ [1]) := by
  rw [← Run.weaker_iff_lt hq.descending hp.descending] at h
  rw [← Run.weaker_iff_lt hq.append_single.descending hp.append_single.descending]
  exact h.append (Or.inr (List.Perm.refl _))

/-- The partitions that hold a single card are those of a card less, with a single card
    added to each. -/
theorem filter_single_partitions (n : Nat) :
    ((partitions (n + 1)).filter fun p => 1 ∈ p) = (partitions n).map (· ++ [1]) := by
  have : Std.Antisymm fun p q : Run => List.lt q p := ⟨fun p q hqp hpq => absurd hqp (List.lt_asymm hpq)⟩
  have : Std.Irrefl fun p q : Run => List.lt q p := ⟨List.lt_irrefl⟩
  -- both are strictly descending, so it is enough that they have the same members
  refine List.Pairwise.eq_of_mem_iff (r := fun p q => List.lt q p) ?_ ?_ fun q => ?_
  · exact (partitions_strictly_descending (n + 1)).filter _
  · refine List.pairwise_map.mpr ((partitions_strictly_descending n).imp_of_mem fun hp hq hqp => ?_)
    exact (mem_partitions.mp hp).append_single_lt (mem_partitions.mp hq) hqp
  · rw [List.mem_filter, List.mem_map, mem_partitions, decide_eq_true_eq]
    constructor
    · rintro ⟨hq, hone⟩
      have hq : IsPartition ((n : Int) + 1) q := hq
      obtain ⟨p, hp, rfl⟩ := hq.exists_append_single hone
      exact ⟨p, mem_partitions.mpr hp, rfl⟩
    · rintro ⟨p, hp, rfl⟩
      exact ⟨(mem_partitions.mp hp).append_single, List.mem_append_right p List.mem_cons_self⟩

/-- No run of cards comes after a single card. -/
theorem Run.single_le {r : Run} (hne : r ≠ []) (hpos : ∀ v ∈ r, 1 ≤ v) : List.le [1] r := by
  cases r with
  | nil => exact absurd rfl hne
  | cons v r =>
    have := hpos v List.mem_cons_self
    refine List.cons_le_cons_iff.mpr ?_
    by_cases h : v = 1
    · exact Or.inr ⟨h.symm, List.nil_le r⟩
    · exact Or.inl (by omega)

theorem Shape.canonical_append_single {s : Shape} (h : ∀ r ∈ s, List.le [1] r) :
    canonical (s ++ [[1]]) = s.canonical ++ [[1]] := by
  refine canonical_eq (s.canonical_perm.symm.append_right _) (List.pairwise_append.mpr ?_)
  refine ⟨s.canonical_descending, List.pairwise_singleton _ _, fun r hr t ht => ?_⟩
  rw [List.mem_singleton.mp ht]
  exact h r (s.canonical_perm.mem_iff.mp hr)

namespace Decomposition

section

variable {n : Int} {p : Run} (h : IsPartition n p)
include h

theorem large_append_single : large (p ++ [1]) = large p := by
  rw [large_eq_filter h.append_single, List.filter_append, large_eq_filter h]
  simp

theorem singles_append_single : singles (p ++ [1]) = singles p ++ [[1]] := by
  rw [singles_eq_filter h.append_single, List.filter_append, List.map_append, singles_eq_filter h]
  simp

theorem single_le_of_mem_layouts {s : Shape} (hs : s ∈ layouts (large p)) :
    ∀ r ∈ s ++ singles p, List.le [1] r := by
  obtain ⟨hne, hvalues⟩ := IsLayout.of_mem_layouts hs
  refine List.forall_mem_append.mpr ⟨fun r hr => Run.single_le (hne r hr) fun v hv => ?_, fun r hr => ?_⟩
  · have := two_le_of_mem_large h v (hvalues.mem_iff.mp (List.mem_flatten.mpr ⟨r, hr, hv⟩))
    omega
  · rw [eq_one_of_mem_singles h r hr]
    exact List.le_refl _

theorem ofPartition_append_single : ofPartition (p ++ [1]) = (ofPartition p).map (· ++ [[1]]) := by
  unfold ofPartition
  rw [large_append_single h]
  split
  · rw [singles_append_single h, List.map_singleton]
  · rw [withSingles, withSingles, List.map_map]
    refine List.map_congr_left fun s hs => ?_
    rw [singles_append_single h, ← List.append_assoc]
    exact Shape.canonical_append_single (single_le_of_mem_layouts h hs)

theorem single_mem_iff {s : Shape} (hs : s ∈ ofPartition p) : [1] ∈ s ↔ 1 ∈ p := by
  rw [← (flatten_perm_of_mem_ofPartition h hs).mem_iff, List.mem_flatten]
  constructor
  · exact fun hone => ⟨[1], hone, List.mem_cons_self⟩
  · rintro ⟨r, hr, hone⟩
    rcases ((isDecomposition_of_mem_ofPartition h hs).legal r hr).2 with rfl | htwo
    · exact hr
    · have := htwo 1 hone
      omega

end

end Decomposition

/-- The decompositions that hold a single card are those of a card less, with a single card
    added to each. -/
theorem filter_single_decompositions (n : Nat) :
    ((decompositions (n + 1)).filter fun s => [1] ∈ s) = (decompositions n).map (· ++ [[1]]) := by
  calc ((decompositions (n + 1)).filter fun s => [1] ∈ s)
      = ((partitions (n + 1)).filter fun p => 1 ∈ p).flatMap Decomposition.ofPartition := by
        rw [decompositions_eq_listed, Decomposition.listed]
        refine filter_flatMap_of_forall fun p hp s hs => decide_eq_decide.mpr ?_
        exact Decomposition.single_mem_iff (mem_partitions.mp hp) hs
    _ = (partitions n).flatMap fun p => Decomposition.ofPartition (p ++ [1]) := by
        rw [filter_single_partitions, List.flatMap_map]
    _ = (partitions n).flatMap fun p => (Decomposition.ofPartition p).map (· ++ [[1]]) :=
        List.flatMap_congr fun p hp => Decomposition.ofPartition_append_single (mem_partitions.mp hp)
    _ = (decompositions n).map (· ++ [[1]]) := by
        rw [decompositions_eq_listed, Decomposition.listed, List.map_flatMap]

/-- Of the decompositions of `n` cards those with a single card are, in their order, the
    decompositions of `n - 1` cards with a single card at the end of each. -/
theorem listDecompositions_with_single_card (n : Int) (hn : 2 ≤ n) :
    ∃ all fewer, listDecompositions n = .ok all ∧ listDecompositions (n - 1) = .ok fewer ∧
      (all.filter fun s => [1] ∈ s) = fewer.map (· ++ [[1]]) ∧
      (all.filter fun s => [1] ∈ s).map List.dropLast = fewer := by
  have hsingle := filter_single_decompositions (n - 1).toNat
  rw [show (n - 1).toNat + 1 = n.toNat by omega] at hsingle
  refine ⟨decompositions n.toNat, decompositions (n - 1).toNat, ?_, ?_, hsingle, ?_⟩
  · rw [listDecompositions, if_neg (by omega)]
  · rw [listDecompositions, if_neg (by omega)]
  · rw [hsingle, List.map_map]
    simp [Function.comp_def]

/-- Four cards may be two pairs at adjacent ranks, so five cards may be these and a single
    card. -/
theorem listDecompositions_with_single_card_five :
    (2 : Int) ≤ 5 ∧ ∃ all fewer, listDecompositions 5 = .ok all ∧ listDecompositions 4 = .ok fewer ∧
      (all.filter fun s => [1] ∈ s).map List.dropLast = fewer ∧ [[2, 2]] ∈ fewer ∧
      [[2, 2], [1]] ∈ all.filter fun s => [1] ∈ s := by
  obtain ⟨all, fewer, hall, hfewer, hsingle, hdrop⟩ := listDecompositions_with_single_card 5 (by decide)
  have hpairs : [[2, 2]] ∈ fewer := by
    obtain rfl : decompositions 4 = fewer := Except.ok.inj hfewer
    refine mem_decompositions.mpr ⟨?_, by decide, by decide⟩
    simp [Run.Legal]
  refine ⟨by decide, all, fewer, hall, hfewer, hdrop, hpairs, ?_⟩
  rw [hsingle]
  exact List.mem_map_of_mem hpairs

end Tractor
