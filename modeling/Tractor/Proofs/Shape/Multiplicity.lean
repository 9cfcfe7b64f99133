/-
  Tractor.Proofs.Shape.Multiplicity — how often each entry arises before repeats are
  dropped.

  A partition arises from every partition of a card less that it is an addition to. Those
  are the partitions it leaves when one of its sizes loses a card
  (`Partition.eq_lowered_of_mem_additions`, `IsPartition.lowered`), and different sizes
  leave different ones (`Partition.lowered_inj`). No partition has one addition twice
  (`Partition.nodup_additions`), so a partition arises once for each of its sizes
  (`Partition.count_grown`).

  A clustering arises once as a set of sets (`Clustering.extended_parts`), and no shape
  that is listed reorders another (`Decomposition.listed_not_perm`). What is dropped is
  therefore all in the partitions (`repeats_to_drop`).
-/

import Mathlib.Data.Finset.Card
import Tractor.Proofs.Shape.Listed
import Tractor.Proofs.Shape.Placement

namespace Tractor

/-! ## Partitions -/

namespace Partition

theorem nodup_raisings (seen p : Run) : (raisings seen p).Nodup := by
  induction p generalizing seen with
  | nil => exact List.nodup_nil
  | cons x xs ih =>
    rw [raisings_cons]
    refine List.nodup_append.mpr ⟨?_, (ih (x :: seen)).map List.cons_injective, fun q hq r hr => ?_⟩
    · split
      · exact List.nodup_nil
      · exact List.nodup_singleton _
    · -- the later raisings leave the first tuple as it is
      obtain ⟨s, -, rfl⟩ := List.mem_map.mp hr
      split at hq
      · cases hq
      · rw [List.mem_singleton.mp hq]
        simp

theorem length_of_mem_raisings {seen p q : Run} (h : q ∈ raisings seen p) : q.length = p.length := by
  obtain ⟨before, x, after, rfl, rfl, -⟩ := mem_raisings.mp h
  simp

/-- A raised tuple leaves as many tuples, a single card one more. -/
theorem nodup_additions (p : Run) : (additions p).Nodup := by
  refine List.nodup_append.mpr ⟨nodup_raisings [] p, List.nodup_singleton _, fun q hq r hr => ?_⟩
  rintro rfl
  have hlength := length_of_mem_raisings hq
  rw [List.mem_singleton.mp hr] at hlength
  simp at hlength

/-- The card that was added came to a tuple of some size, which is the last of that size:
    those after it are smaller than it was before. -/
theorem eq_lowered_of_mem_additions {n : Int} {p q : Run} (hp : IsPartition n p) (hq : q ∈ additions p) :
    ∃ v ∈ q, p = lowered v q := by
  rcases mem_additions.mp hq with rfl | ⟨before, x, after, rfl, rfl, -⟩
  · exact ⟨1, List.mem_append_right p List.mem_cons_self, by simp [lowered_append]⟩
  · obtain ⟨-, hx, -⟩ := List.pairwise_append.mp hp.descending
    have hafter : x + 1 ∉ after := fun hmem => by
      have := (List.pairwise_cons.mp hx).1 _ hmem
      omega
    have hpos := hp.positive x (List.mem_append_right _ List.mem_cons_self)
    refine ⟨x + 1, List.mem_append_right _ List.mem_cons_self, ?_⟩
    rw [lowered_append hafter, if_neg (by omega), Int.add_sub_cancel]

/-- With the tuple that loses a card put beside it, a run gets one of a card less. -/
theorem cons_lowered_perm {v : Int} {q : Run} (hv : v ∈ q) :
    (v :: lowered v q).Perm (if v = 1 then q else (v - 1) :: q) := by
  obtain ⟨before, after, rfl, hafter⟩ := exists_last hv
  rw [lowered_append hafter]
  split
  · exact List.perm_middle.symm
  · have hmiddle : (before ++ (v - 1) :: after).Perm ((v - 1) :: (before ++ after)) := List.perm_middle
    exact (hmiddle.cons v).trans ((List.Perm.swap ..).trans (List.perm_middle.symm.cons (v - 1)))

/-- Only the size that loses a card occurs less often. -/
theorem lowered_inj {v w : Int} {q : Run} (hv : v ∈ q) (hw : w ∈ q) (h : lowered v q = lowered w q) : v = w := by
  by_contra hne
  have hless : (lowered v q).count v + 1 = q.count v := by
    have := (cons_lowered_perm hv).count_eq v
    split at this <;> simpa using this
  have hnotless : q.count v ≤ (lowered w q).count v := by
    have := (cons_lowered_perm hw).count_eq v
    rw [List.count_cons_of_ne (Ne.symm hne)] at this
    rw [this]
    split
    · exact Nat.le_refl _
    · exact List.count_le_count_cons
  rw [h] at hless
  omega

/-- A partition of `n + 1` cards arises once for each of its sizes. -/
theorem count_grown {n : Nat} {q : Run} (h : IsPartition ((n : Int) + 1) q) :
    (grown (partitions n)).count q = q.toFinset.card := by
  -- `q` arises from itself with one card less in the last tuple of a size, for each size
  have hfrom : ((partitions n).filter fun p => q ∈ additions p).toFinset = q.toFinset.image (lowered · q) := by
    ext p
    simp only [List.mem_toFinset, List.mem_filter, decide_eq_true_eq, Finset.mem_image, mem_partitions]
    constructor
    · rintro ⟨hp, hq⟩
      obtain ⟨v, hv, rfl⟩ := eq_lowered_of_mem_additions hp hq
      exact ⟨v, hv, rfl⟩
    · rintro ⟨v, hv, rfl⟩
      exact h.lowered hv
  have hinj : Set.InjOn (lowered · q) (q.toFinset : Set Int) := fun v hv w hw heq =>
    lowered_inj (List.mem_toFinset.mp hv) (List.mem_toFinset.mp hw) heq
  calc (grown (partitions n)).count q
    _ = ((partitions n).filter fun p => q ∈ additions p).length := by
      rw [grown, count_flatMap_of_nodup nodup_additions, List.countP_eq_length_filter]
    _ = (q.toFinset.image (lowered · q)).card := by
      rw [← hfrom, List.toFinset_card_of_nodup ((nodup_partitions n).filter _)]
    _ = q.toFinset.card := Finset.card_image_of_injOn hinj

end Partition

/-! ## Clusterings -/

namespace Clustering

variable {k : Nat}

theorem AroseBefore.ne {smaller : List Clustering} {c d : Clustering} (hnodup : smaller.Nodup)
    (h : AroseBefore k smaller c d) : c ≠ d := by
  rintro rfl
  exact h.asymm hnodup h

theorem isClustering_of_mem_extended {c : Clustering} (h : c ∈ extended k (clusterings k)) : IsClustering (k + 1) c := by
  obtain ⟨d, hd, hc⟩ := List.mem_flatMap.mp h
  exact (mem_clusterings.mp hd).of_mem_placements hc

/-- No two clusterings that arise are the same sets of positions. -/
theorem extended_parts (k : Nat) : (extended k (clusterings k)).Pairwise fun c d => c.parts ≠ d.parts := by
  have hall : ∀ c ∈ clusterings k, IsClustering k c := fun _ hc => mem_clusterings.mp hc
  refine (extended_order hall).imp_of_mem fun {c d} hc hd h heq => h.ne (nodup_clusterings k) ?_
  exact (isClustering_of_mem_extended hc).eq_of_parts (isClustering_of_mem_extended hd) heq

theorem sorted_parts (k : Nat) :
    ((extended k (clusterings k)).mergeSort before).Pairwise fun c d => c.parts ≠ d.parts :=
  ((List.mergeSort_perm _ _).pairwise_iff Ne.symm).mpr (extended_parts k)

theorem eraseReps_sorted (k : Nat) :
    ((extended k (clusterings k)).mergeSort before).eraseReps = (extended k (clusterings k)).mergeSort before := by
  refine eraseReps_of_nodup ((sorted_parts k).imp fun hne heq => hne ?_)
  rw [heq]

end Clustering

/-! ## Shapes -/

theorem Decomposition.listed_not_perm (n : Nat) : (listed n).Pairwise fun s t => ¬ s.Perm t := by
  refine (nodup_listed n).imp_of_mem fun {s t} hs ht hne h => hne ?_
  exact (mem_listed.mp hs).descending.eq_of_perm (mem_listed.mp ht).descending h

/-! ## What is dropped -/

/-- Before repeats are dropped each partition is there once for each of its sizes, and one
    of these is kept. No two clusterings are the same sets of positions and no shape
    reorders another, so of these nothing is dropped. -/
theorem repeats_to_drop (n k m : Int) (hn : 2 ≤ n) (hk : 2 ≤ k) (hm : 1 ≤ m) :
    (∃ ps sorted, listPartitions (n - 1) = .ok ps ∧
        sorted = (Partition.grown ps).mergeSort (fun p q => Run.le q p) ∧
        listPartitions n = .ok sorted.eraseReps ∧
        ∀ p, IsPartition n p → sorted.count p = p.toFinset.card ∧ sorted.eraseReps.count p = 1) ∧
      (∃ cs sorted, listClusterings (k - 1) = .ok cs ∧
        sorted = (Clustering.extended (k - 1).toNat cs).mergeSort Clustering.before ∧
        (∀ c ∈ sorted, ∃ P : Finpartition (Finset.range k.toNat), P.parts = c.parts) ∧
        sorted.Pairwise (fun c d => c.parts ≠ d.parts) ∧
        sorted.eraseReps = sorted ∧ listClusterings k = .ok sorted) ∧
      ∃ ps shapes, listPartitions m = .ok ps ∧ shapes = ps.flatMap Decomposition.ofPartition ∧
        shapes.Pairwise (fun s t => ¬ s.Perm t) ∧
        Shape.distinct shapes = shapes ∧ listDecompositions m = .ok shapes := by
  refine ⟨?partitions, ?clusterings, ?shapes⟩
  case partitions =>
    obtain ⟨a, rfl⟩ : ∃ a : Nat, n = (a : Int) + 1 := ⟨(n - 1).toNat, by omega⟩
    refine ⟨partitions a, _, ?_, rfl, ?_, fun p hp => ⟨?_, ?_⟩⟩
    · rw [listPartitions, if_neg (by omega), Int.add_sub_cancel, Int.toNat_natCast]
    · rw [listPartitions, if_neg (by omega), Int.toNat_natCast_add_one]
      rfl
    · rw [(List.mergeSort_perm _ _).count_eq, Partition.count_grown hp]
    · exact List.count_eq_one_of_mem (nodup_partitions (a + 1)) (mem_partitions.mpr hp)
  case clusterings =>
    obtain ⟨b, rfl⟩ : ∃ b : Nat, k = (b : Int) + 1 := ⟨(k - 1).toNat, by omega⟩
    rw [Int.add_sub_cancel, Int.toNat_natCast, Int.toNat_natCast_add_one]
    refine ⟨clusterings b, _, ?_, rfl, fun c hc => ?_, Clustering.sorted_parts b, Clustering.eraseReps_sorted b, ?_⟩
    · rw [listClusterings, if_neg (by omega), Int.toNat_natCast]
    · exact (Clustering.isClustering_of_mem_extended (List.mem_mergeSort.mp hc)).exists_finpartition
    · rw [listClusterings, if_neg (by omega), Int.toNat_natCast_add_one, ← Clustering.eraseReps_sorted]
      rfl
  case shapes =>
    refine ⟨partitions m.toNat, _, ?_, rfl, Decomposition.listed_not_perm _, decompositions_eq_listed _, ?_⟩
    · rw [listPartitions, if_neg (by omega)]
    · rw [listDecompositions, if_neg (by omega), decompositions_eq_listed]
      rfl

/-- A triple, a pair and a single card arise three times, from each of the partitions that
    one card less in one of the tuples leaves; one is kept. -/
theorem repeats_to_drop_three :
    (2 : Int) ≤ 6 ∧ (2 : Int) ≤ 4 ∧ (1 : Int) ≤ 5 ∧ IsPartition 6 [3, 2, 1] ∧
      (∃ sorted : List Run, listPartitions 6 = .ok sorted.eraseReps ∧ sorted.count [3, 2, 1] = 3) ∧
      (∃ cs, listClusterings 4 = .ok cs ∧ cs.Pairwise fun c d => c.parts ≠ d.parts) ∧
      ∃ shapes, listDecompositions 5 = .ok shapes ∧ shapes.Pairwise fun s t => ¬ s.Perm t := by
  have hpartition : IsPartition 6 [3, 2, 1] := ⟨by decide, by decide, by decide⟩
  obtain ⟨⟨_, sorted, -, -, hok, hcount⟩, ⟨_, cs, -, -, -, hparts, -, hcs⟩, _, shapes, -, -, hperm, -, hshapes⟩ :=
    repeats_to_drop 6 4 5 (by decide) (by decide) (by decide)
  exact ⟨by decide, by decide, by decide, hpartition, ⟨sorted, hok, (hcount _ hpartition).1⟩, ⟨cs, hcs, hparts⟩, shapes,
    hshapes, hperm⟩

end Tractor
