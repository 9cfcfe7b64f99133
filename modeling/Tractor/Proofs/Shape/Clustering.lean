/-
  Tractor.Proofs.Shape.Clustering — the clusterings of `k` positions are the ways to
  split them into clusters, each written in ascending order.

  A clustering is written in one way: each cluster ascends, and the clusters stand in the
  order of their least positions (`IsClustering`). Position `k` is the greatest of
  `k + 1`, so it stands last in its cluster, and a cluster of its own stands last; taking
  it out leaves a clustering of `k` positions (`IsClustering.exists_placement`), from
  which it is placed again (`mem_placements`). `mem_clusterings` follows by induction.
  Any split of the positions, in whatever order, becomes one so written by sorting
  (`IsClustering.exists_of_split`).
-/

import Mathlib.Data.List.Perm.Basic
import Tractor.Shape.Clustering
import Tractor.Proofs.Shape.Lists
import Tractor.Proofs.Shape.Repeats
import Tractor.Proofs.Shape.Sorting

namespace Tractor

/-- Non-empty ascending clusters of the positions below `k`, by their least positions. -/
structure IsClustering (k : Nat) (c : Clustering) : Prop where
  nonempty : ∀ cl ∈ c, cl ≠ []
  ascending : ∀ cl ∈ c, cl.Pairwise (· < ·)
  ordered : (c.map fun cl => cl.headD 0).Pairwise (· < ·)
  positions : c.flatten.Perm (List.range k)

namespace Clustering

theorem mem_placements {k : Nat} {c d : Clustering} :
    d ∈ placements k c ↔ d = c ++ [[k]] ∨
      ∃ before cl after, c = before ++ cl :: after ∧ d = before ++ (cl ++ [k]) :: after := by
  induction c generalizing d with
  | nil => simp [placements]
  | cons cl₀ c ih =>
    rw [placements, List.mem_cons]
    constructor
    · rintro (rfl | h)
      · exact Or.inr ⟨[], cl₀, c, rfl, rfl⟩
      · obtain ⟨d', hd', rfl⟩ := List.mem_map.mp h
        rcases ih.mp hd' with rfl | ⟨before, cl, after, rfl, rfl⟩
        · exact Or.inl rfl
        · exact Or.inr ⟨cl₀ :: before, cl, after, rfl, rfl⟩
    · rintro (rfl | ⟨before, cl, after, hc, rfl⟩)
      · exact Or.inr (List.mem_map.mpr ⟨_, ih.mpr (Or.inl rfl), rfl⟩)
      · cases before with
        | nil =>
          obtain ⟨rfl, rfl⟩ := List.cons.inj hc
          exact Or.inl rfl
        | cons b before =>
          obtain ⟨rfl, rfl⟩ := List.cons.inj hc
          exact Or.inr (List.mem_map.mpr ⟨_, ih.mpr (Or.inr ⟨before, cl, after, rfl, rfl⟩), rfl⟩)

theorem mem_next {k : Nat} {cs : List Clustering} {d : Clustering} :
    d ∈ next k cs ↔ ∃ c ∈ cs, d ∈ placements k c := by
  rw [next, mem_eraseReps, List.mem_mergeSort, extended, List.mem_flatMap]

theorem headD_mem {cl : List Nat} (h : cl ≠ []) : cl.headD 0 ∈ cl := by
  cases cl with
  | nil => exact absurd rfl h
  | cons x cl => exact List.mem_cons_self

theorem headD_concat {cl : List Nat} (h : cl ≠ []) (k : Nat) : (cl ++ [k]).headD 0 = cl.headD 0 := by
  cases cl with
  | nil => exact absurd rfl h
  | cons x cl => rfl

theorem flatten_concat_perm (before after : Clustering) (cl : List Nat) (k : Nat) :
    (before ++ (cl ++ [k]) :: after).flatten.Perm ((before ++ cl :: after).flatten ++ [k]) := by
  simp only [List.flatten_append, List.flatten_cons, List.append_assoc]
  exact (List.perm_append_comm.append_left cl).append_left before.flatten

/-- An ascending cluster with the position `k` and none above it ends in `k`. -/
theorem exists_concat_of_greatest {cl : List Nat} {k : Nat} (hasc : cl.Pairwise (· < ·)) (hk : k ∈ cl)
    (hle : ∀ x ∈ cl, x ≤ k) : ∃ front, cl = front ++ [k] := by
  obtain ⟨front, rest, rfl⟩ := List.append_of_mem hk
  refine ⟨front, ?_⟩
  cases rest with
  | nil => rfl
  | cons x rest =>
    obtain ⟨-, h, -⟩ := List.pairwise_append.mp hasc
    have hlt := (List.pairwise_cons.mp h).1 x List.mem_cons_self
    have := hle x (List.mem_append_right _ (List.mem_cons_of_mem k List.mem_cons_self))
    omega

end Clustering

namespace IsClustering

open Clustering

theorem lt_of_mem {k : Nat} {c : Clustering} (h : IsClustering k c) {cl : List Nat} (hcl : cl ∈ c) {x : Nat}
    (hx : x ∈ cl) : x < k :=
  List.mem_range.mp (h.positions.mem_iff.mp (List.mem_flatten.mpr ⟨cl, hcl, hx⟩))

/-- The new position may stand alone; its cluster comes last. -/
theorem append_alone {k : Nat} {c : Clustering} (h : IsClustering k c) : IsClustering (k + 1) (c ++ [[k]]) := by
  refine ⟨?_, ?_, ?_, ?_⟩
  · exact List.forall_mem_append.mpr ⟨h.nonempty, by simp⟩
  · exact List.forall_mem_append.mpr ⟨h.ascending, by simp⟩
  · rw [List.map_append]
    refine List.pairwise_append.mpr ⟨h.ordered, List.pairwise_singleton _ _, fun x hx y hy => ?_⟩
    obtain ⟨cl, hcl, rfl⟩ := List.mem_map.mp hx
    rw [List.mem_singleton.mp hy]
    exact h.lt_of_mem hcl (headD_mem (h.nonempty cl hcl))
  · rw [List.flatten_append, List.range_succ]
    exact h.positions.append_right [k]

/-- The new position may join a cluster, whose least position is as before. -/
theorem join {k : Nat} {before after : Clustering} {cl : List Nat} (h : IsClustering k (before ++ cl :: after)) :
    IsClustering (k + 1) (before ++ (cl ++ [k]) :: after) := by
  have hlt : ∀ x ∈ cl, x < k := fun x hx => h.lt_of_mem (List.mem_append_right _ List.mem_cons_self) hx
  obtain ⟨hne, hasc, hord, hpos⟩ := h
  rw [List.forall_mem_append, List.forall_mem_cons] at hne hasc
  refine ⟨?_, ?_, ?_, ?_⟩
  · exact List.forall_mem_append.mpr ⟨hne.1, List.forall_mem_cons.mpr ⟨by simp, hne.2.2⟩⟩
  · refine List.forall_mem_append.mpr ⟨hasc.1, List.forall_mem_cons.mpr ⟨?_, hasc.2.2⟩⟩
    refine List.pairwise_append.mpr ⟨hasc.2.1, List.pairwise_singleton _ _, fun x hx y hy => ?_⟩
    rw [List.mem_singleton.mp hy]
    exact hlt x hx
  · rw [List.map_append, List.map_cons] at hord ⊢
    rw [headD_concat hne.2.1]
    exact hord
  · rw [List.range_succ]
    exact (flatten_concat_perm before after cl k).trans (hpos.append_right [k])

theorem of_mem_placements {k : Nat} {c d : Clustering} (h : IsClustering k c) (hd : d ∈ placements k c) :
    IsClustering (k + 1) d := by
  rcases mem_placements.mp hd with rfl | ⟨before, cl, after, rfl, rfl⟩
  · exact h.append_alone
  · exact h.join

/-- Taking out the greatest position leaves a clustering of the others. -/
theorem exists_placement {k : Nat} {d : Clustering} (h : IsClustering (k + 1) d) :
    ∃ c, IsClustering k c ∧ d ∈ placements k c := by
  have hlt : ∀ cl ∈ d, ∀ x ∈ cl, x < k + 1 := fun cl hcl x hx => h.lt_of_mem hcl hx
  obtain ⟨hne, hasc, hord, hpos⟩ := h
  obtain ⟨cl, hcl, hk⟩ := List.mem_flatten.mp (hpos.mem_iff.mpr (List.mem_range.mpr (Nat.lt_succ_self k)))
  obtain ⟨front, rfl⟩ := exists_concat_of_greatest (hasc cl hcl) hk fun x hx => Nat.le_of_lt_succ (hlt cl hcl x hx)
  obtain ⟨before, after, rfl⟩ := List.append_of_mem hcl
  rw [List.range_succ] at hpos
  rw [List.map_append, List.map_cons] at hord
  by_cases hfront : front = []
  · -- a cluster of its own is the last one: the least position of the next would be greater
    subst hfront
    have hafter : after = [] := by
      cases after with
      | nil => rfl
      | cons b after =>
        have hb : b ∈ before ++ ([] ++ [k]) :: b :: after := by simp
        have hkb : k < b.headD 0 := (List.pairwise_cons.mp (List.pairwise_append.mp hord).2.1).1 _ List.mem_cons_self
        have := hlt b hb _ (headD_mem (hne b hb))
        omega
    subst hafter
    rw [List.flatten_append] at hpos
    refine ⟨before, ⟨?_, ?_, ?_, ?_⟩, mem_placements.mpr (Or.inl rfl)⟩
    · exact (List.forall_mem_append.mp hne).1
    · exact (List.forall_mem_append.mp hasc).1
    · exact (List.pairwise_append.mp hord).1
    · exact (List.perm_append_right_iff [k]).mp hpos
  · -- a cluster that holds other positions keeps its least one
    rw [List.forall_mem_append, List.forall_mem_cons] at hne hasc
    rw [headD_concat hfront] at hord
    refine ⟨before ++ front :: after, ⟨?_, ?_, ?_, ?_⟩, mem_placements.mpr (Or.inr ⟨before, front, after, rfl, rfl⟩)⟩
    · exact List.forall_mem_append.mpr ⟨hne.1, List.forall_mem_cons.mpr ⟨hfront, hne.2.2⟩⟩
    · have hasc₀ := (List.pairwise_append.mp hasc.2.1).1
      exact List.forall_mem_append.mpr ⟨hasc.1, List.forall_mem_cons.mpr ⟨hasc₀, hasc.2.2⟩⟩
    · rw [List.map_append, List.map_cons]
      exact hord
    · exact (List.perm_append_right_iff [k]).mp ((flatten_concat_perm before after front k).symm.trans hpos)

/-- Clusters that share no position have different least positions. -/
theorem nodup_heads {c : Clustering} (hne : ∀ cl ∈ c, cl ≠ []) (h : c.flatten.Nodup) :
    (c.map fun cl => cl.headD 0).Nodup := by
  induction c with
  | nil => exact List.nodup_nil
  | cons cl c ih =>
    rw [List.forall_mem_cons] at hne
    rw [List.flatten_cons, List.nodup_append] at h
    refine List.nodup_cons.mpr ⟨fun hmem => ?_, ih hne.2 h.2.1⟩
    obtain ⟨b, hb, hbc⟩ := List.mem_map.mp hmem
    have hb' := List.mem_flatten.mpr ⟨b, hb, headD_mem (hne.2 b hb)⟩
    exact h.2.2 _ (headD_mem hne.1) _ hb' hbc.symm

/-- Every split of the positions is a clustering once it is sorted. -/
theorem exists_of_split {k : Nat} {c : Clustering} (hne : ∀ cl ∈ c, cl ≠ []) (hpos : c.flatten.Perm (List.range k)) :
    ∃ d, IsClustering k d ∧ ∃ e, d.Perm e ∧ List.Forall₂ List.Perm e c := by
  -- each cluster is sorted by itself, and then they are sorted by their least positions
  let e : Clustering := c.map fun cl => cl.mergeSort
  let d := e.mergeSort fun a b => decide (a.headD 0 ≤ b.headD 0)
  have hec : List.Forall₂ List.Perm e c :=
    List.forall₂_map_left_iff.mpr (List.forall₂_same.mpr fun cl _ => List.mergeSort_perm cl _)
  have hde : d.Perm e := List.mergeSort_perm e _
  have hflat : d.flatten.Perm (List.range k) := (hde.flatten.trans (List.Perm.flatten_congr hec)).trans hpos
  have hnodup : c.flatten.Nodup := hpos.nodup_iff.mpr List.nodup_range
  have hnee : ∀ cl ∈ e, cl ≠ [] := by
    intro cl hcl
    obtain ⟨b, hb, rfl⟩ := List.mem_map.mp hcl
    intro hnil
    exact hne b hb (List.perm_nil.mp (hnil ▸ (List.mergeSort_perm b _).symm))
  refine ⟨d, ⟨?_, ?_, ?_, hflat⟩, e, hde, hec⟩
  · exact fun cl hcl => hnee cl (hde.mem_iff.mp hcl)
  · intro cl hcl
    obtain ⟨b, hb, rfl⟩ := List.mem_map.mp (hde.mem_iff.mp hcl)
    have := map_mergeSort_ascending id (l := b) (by simpa using (List.nodup_flatten.mp hnodup).1 b hb)
    simpa using this
  · exact map_mergeSort_ascending _ (nodup_heads hnee ((List.Perm.flatten_congr hec).nodup_iff.mpr hnodup))

end IsClustering

theorem mem_clusterings {k : Nat} {c : Clustering} : c ∈ clusterings k ↔ IsClustering k c := by
  induction k generalizing c with
  | zero =>
    constructor
    · intro h
      rw [List.mem_singleton.mp h]
      exact ⟨fun cl hcl => absurd hcl List.not_mem_nil, fun cl hcl => absurd hcl List.not_mem_nil,
        List.Pairwise.nil, List.Perm.nil⟩
    · intro h
      exact List.mem_singleton.mpr (eq_nil_of_flatten_eq_nil h.nonempty (List.perm_nil.mp h.positions))
  | succ k ih =>
    rw [clusterings, Clustering.mem_next]
    constructor
    · rintro ⟨d, hd, hc⟩
      exact (ih.mp hd).of_mem_placements hc
    · intro h
      obtain ⟨d, hd, hc⟩ := h.exists_placement
      exact ⟨d, ih.mpr hd, hc⟩

end Tractor
