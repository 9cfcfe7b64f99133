/-
  Tractor.Proofs.Shape.Placement — the clusterings of `k` positions as sets of sets, each
  once, and which of two comes first.

  Position `k` can be taken out again: what a placement of it makes of a clustering is
  without it that clustering (`IsClustering.without_of_mem_placements`), and the placements
  of one clustering are told apart by the cluster that `k` is in (`map_seat_placements`).
  So the extended clusterings stand in the order of those they arose from and then of that
  cluster (`extended_order`). The sort puts large clusters first, then few, and leaves that
  order among the rest (`clusterings_order`); as no clustering stands before itself, none
  comes twice (`nodup_clusterings`).

  The clusters of a clustering are a partition of the positions
  (`IsClustering.exists_finpartition`). Each partition is written as a clustering
  (`exists_isClustering`), and in one way (`IsClustering.eq_of_parts`).
-/

import Mathlib.Order.Partition.Finpartition
import Mathlib.Data.Finset.Sort
import Tractor.Shape.Listing
import Tractor.Proofs.Shape.Clustering

namespace Tractor

/-! ## Taking a position out -/

namespace Clustering

/-- The clustering without position `k`, and without its cluster if that held nothing else. -/
def without (k : Nat) (c : Clustering) : Clustering :=
  (c.map fun cl => cl.filter (· != k)).filter fun cl => !cl.isEmpty

def seat (k : Nat) (c : Clustering) : Nat := c.findIdx fun cl => cl.contains k

variable {k : Nat} {c d : Clustering}

theorem without_append (k : Nat) (c d : Clustering) : without k (c ++ d) = without k c ++ without k d := by
  simp [without]

theorem without_cons {cl : List Nat} {front : List Nat} (h : cl.filter (· != k) = front) (hne : front ≠ [])
    (c : Clustering) : without k (cl :: c) = front :: without k c := by
  simp [without, h, hne]

theorem filter_eq_self_of_notMem {cl : List Nat} (h : k ∉ cl) : cl.filter (· != k) = cl := by
  refine List.filter_eq_self.mpr fun x hx => ?_
  rw [bne_iff_ne]
  intro hxk
  exact h (hxk ▸ hx)

theorem without_eq_self (hne : ∀ cl ∈ c, cl ≠ []) (hk : ∀ cl ∈ c, k ∉ cl) : without k c = c := by
  induction c with
  | nil => rfl
  | cons cl c ih =>
    rw [List.forall_mem_cons] at hne hk
    rw [without_cons (filter_eq_self_of_notMem hk.1) hne.1, ih hne.2 hk.2]

/-- The placements put `k` into the first cluster, the second and so on. -/
theorem map_seat_placements (hk : ∀ cl ∈ c, k ∉ cl) : (placements k c).map (seat k) = List.range (c.length + 1) := by
  induction c with
  | nil => simp [placements, seat]
  | cons cl c ih =>
    rw [List.forall_mem_cons] at hk
    have hjoined : seat k ((cl ++ [k]) :: c) = 0 := by simp [seat, List.findIdx_cons]
    have hlater : ∀ d : Clustering, seat k (cl :: d) = seat k d + 1 := fun d => by
      simp [seat, List.findIdx_cons, hk.1]
    rw [placements, List.map_cons, List.map_map, hjoined, List.length_cons, List.range_succ_eq_map, ← ih hk.2,
      List.map_map]
    exact congrArg _ (List.map_congr_left fun d _ => hlater d)

end Clustering

namespace IsClustering

open Clustering

variable {k : Nat} {c d : Clustering}

theorem notMem (h : IsClustering k c) : ∀ cl ∈ c, k ∉ cl := fun _ hcl hk => Nat.lt_irrefl k (h.lt_of_mem hcl hk)

theorem without_of_mem_placements (h : IsClustering k c) (hd : d ∈ placements k c) : d.without k = c := by
  rcases mem_placements.mp hd with rfl | ⟨before, cl, after, rfl, rfl⟩
  · rw [without_append, without_eq_self h.nonempty h.notMem]
    simp [without]
  · have hne := h.nonempty
    have hk := h.notMem
    rw [List.forall_mem_append, List.forall_mem_cons] at hne hk
    have hcl : (cl ++ [k]).filter (· != k) = cl := by
      rw [List.filter_append, filter_eq_self_of_notMem hk.2.1]
      simp
    rw [without_append, without_cons hcl hne.2.1, without_eq_self hne.1 hk.1, without_eq_self hne.2.2 hk.2.2]

theorem without (h : IsClustering (k + 1) d) : IsClustering k (d.without k) := by
  obtain ⟨c, hc, hd⟩ := h.exists_placement
  rw [hc.without_of_mem_placements hd]
  exact hc

end IsClustering

/-! ## Which of two comes first -/

namespace Clustering

/-- Position `k` was put into an earlier one of the clusterings, or into an earlier cluster of
    the same. -/
def AroseBefore (k : Nat) (smaller : List Clustering) (c d : Clustering) : Prop :=
  [c.without k, d.without k].Sublist smaller ∨ c.without k = d.without k ∧ c.seat k < d.seat k

/-- A larger cluster comes first, then fewer clusters, then what arose before. -/
def Precedes (k : Nat) (smaller : List Clustering) (c d : Clustering) : Prop :=
  d.largest < c.largest ∨
    c.largest = d.largest ∧ (c.length < d.length ∨ c.length = d.length ∧ AroseBefore k smaller c d)

theorem largest_le_iff {c : Clustering} {n : Nat} : c.largest ≤ n ↔ ∀ cl ∈ c, cl.length ≤ n := by
  simp [largest, foldl_max_le_iff]

theorem before_iff {c d : Clustering} :
    before c d = true ↔ d.largest < c.largest ∨ c.largest = d.largest ∧ c.length ≤ d.length := by
  simp [before]

theorem before_trans (a b c : Clustering) (hab : before a b = true) (hbc : before b c = true) : before a c = true := by
  rw [before_iff] at hab hbc ⊢
  omega

theorem before_total (a b : Clustering) : (before a b || before b a) = true := by
  rw [Bool.or_eq_true, before_iff, before_iff]
  omega

variable {k : Nat} {smaller : List Clustering} {c d : Clustering}

theorem AroseBefore.asymm (hnodup : smaller.Nodup) (h : AroseBefore k smaller c d) : ¬ AroseBefore k smaller d c := by
  have hirrefl := List.nodup_iff_sublist.mp hnodup
  rcases h with hcd | ⟨heq, hlt⟩
  · rintro (hdc | ⟨heq, -⟩)
    · exact not_pair_sublist_swap hnodup hcd hdc
    · exact hirrefl _ (heq ▸ hcd)
  · rintro (hdc | ⟨-, hgt⟩)
    · exact hirrefl _ (heq ▸ hdc)
    · omega

theorem Precedes.asymm (hnodup : smaller.Nodup) (h : Precedes k smaller c d) : ¬ Precedes k smaller d c := by
  rcases h with h | ⟨hlargest, h | ⟨hlength, h⟩⟩
  · unfold Precedes
    omega
  · unfold Precedes
    omega
  · rintro (h' | ⟨-, h' | ⟨-, h'⟩⟩)
    · omega
    · omega
    · exact h.asymm hnodup h'

theorem extended_order (hall : ∀ c ∈ smaller, IsClustering k c) :
    (extended k smaller).Pairwise (AroseBefore k smaller) := by
  refine List.pairwise_flatMap.mpr ⟨fun c hc => ?_, ?_⟩
  · have hseats : (placements k c).Pairwise fun x y => x.seat k < y.seat k := by
      rw [← List.pairwise_map, map_seat_placements (hall c hc).notMem]
      exact List.pairwise_lt_range
    refine hseats.imp_of_mem fun {x y} hx hy hlt => Or.inr ⟨?_, hlt⟩
    rw [(hall c hc).without_of_mem_placements hx, (hall c hc).without_of_mem_placements hy]
  · refine (pairwise_pair_sublist smaller).imp_of_mem fun {c d} hc hd hcd x hx y hy => Or.inl ?_
    rwa [(hall c hc).without_of_mem_placements hx, (hall d hd).without_of_mem_placements hy]

/-- The sort is stable: it leaves what ties in the order in which it arose. -/
theorem next_order (hall : ∀ c ∈ smaller, IsClustering k c) : (next k smaller).Pairwise (Precedes k smaller) := by
  have hsorted := pairwise_mergeSort before_trans before_total (extended_order hall)
  refine (hsorted.sublist (eraseReps_sublist _)).imp fun {c d} h => ?_
  obtain ⟨hbefore, htie⟩ := h
  rw [before_iff] at hbefore htie
  rcases hbefore with hlt | ⟨heq, hle⟩
  · exact Or.inl hlt
  · refine Or.inr ⟨heq, ?_⟩
    by_cases hlen : c.length = d.length
    · exact Or.inr ⟨hlen, htie (Or.inr ⟨heq.symm, hlen.ge⟩)⟩
    · exact Or.inl (by omega)

end Clustering

theorem clusterings_order (k : Nat) : (clusterings (k + 1)).Pairwise (Clustering.Precedes k (clusterings k)) :=
  Clustering.next_order fun _ hc => mem_clusterings.mp hc

theorem nodup_clusterings (k : Nat) : (clusterings k).Nodup := by
  induction k with
  | zero => exact List.nodup_cons.mpr ⟨List.not_mem_nil, List.nodup_nil⟩
  | succ k ih => exact (clusterings_order k).imp fun h heq => (heq ▸ h).asymm ih (heq ▸ h)

theorem clusterings_before (k : Nat) : (clusterings k).Pairwise fun c d => Clustering.before c d = true := by
  cases k with
  | zero => exact List.pairwise_singleton _ _
  | succ k =>
    have hsorted := List.pairwise_mergeSort Clustering.before_trans Clustering.before_total
    exact (hsorted _).sublist (eraseReps_sublist _)

theorem IsClustering.length_le {k : Nat} {c : Clustering} (h : IsClustering k c) : ∀ cl ∈ c, cl.length ≤ k := by
  intro cl hcl
  have hlen := (List.sublist_flatten_of_mem hcl).length_le
  rwa [h.positions.length_eq, List.length_range] at hlen

theorem IsClustering.eq_range {k : Nat} {cl : List Nat} (h : IsClustering k [cl]) : cl = List.range k := by
  have hperm : cl.Perm (List.range k) := by simpa using h.positions
  exact eq_of_perm_of_ascending id hperm (h.ascending cl List.mem_cons_self) List.pairwise_lt_range

/-- The first clustering is one cluster of all positions. -/
theorem head?_clusterings {k : Nat} (hk : k ≠ 0) : (clusterings k).head? = some [List.range k] := by
  have hmem : IsClustering k [List.range k] := ⟨by simpa using hk, by simpa using List.pairwise_lt_range, by simp, by simp⟩
  refine head?_eq_of_pairwise (clusterings_before k) (mem_clusterings.mpr hmem) fun c hc hbefore => ?_
  have hc := mem_clusterings.mp hc
  have hlargest : c.largest ≤ k := Clustering.largest_le_iff.mpr hc.length_le
  have hall : Clustering.largest [List.range k] = k := by simp [Clustering.largest]
  rw [Clustering.before_iff, hall, List.length_singleton] at hbefore
  match c, hc, hbefore with
  | [], hc, _ => exact absurd (List.range_eq_nil.mp (List.nil_perm.mp hc.positions)) hk
  | [cl], hc, _ => rw [hc.eq_range]
  | _ :: _ :: _, _, hbefore =>
    simp only [List.length_cons] at hbefore
    omega

/-! ## Sets of sets -/

def Clustering.parts (c : Clustering) : Finset (Finset Nat) := (c.map List.toFinset).toFinset

namespace Clustering

theorem mem_parts {c : Clustering} {s : Finset Nat} : s ∈ c.parts ↔ ∃ cl ∈ c, cl.toFinset = s := by
  simp [parts]

theorem parts_perm {c d : Clustering} (h : c.Perm d) : c.parts = d.parts :=
  List.toFinset_eq_of_perm _ _ (h.map _)

theorem parts_congr {c d : Clustering} (h : List.Forall₂ List.Perm c d) : c.parts = d.parts := by
  have hmap : c.map List.toFinset = d.map List.toFinset :=
    map_eq_map_of_forall₂ (h.imp fun _ _ hcl => List.toFinset_eq_of_perm _ _ hcl)
  rw [parts, parts, hmap]

end Clustering

namespace IsClustering

open Clustering

variable {k : Nat} {c d : Clustering}

theorem heads_ascending (h : IsClustering k c) : c.Pairwise fun cl cl' => cl.headD 0 < cl'.headD 0 :=
  List.pairwise_map.mp h.ordered

theorem nodup (h : IsClustering k c) : c.Nodup := by
  refine List.Pairwise.imp ?_ h.heads_ascending
  rintro cl cl' hlt rfl
  exact Nat.lt_irrefl _ hlt

theorem eq_of_mem_of_mem (h : IsClustering k c) {cl cl' : List Nat} (hcl : cl ∈ c) (hcl' : cl' ∈ c) {x : Nat}
    (hx : x ∈ cl) (hx' : x ∈ cl') : cl = cl' := by
  have hnodup : c.flatten.Nodup := h.positions.nodup_iff.mpr List.nodup_range
  have hdisjoint := (List.nodup_flatten.mp hnodup).2
  have : Std.Symm (List.Disjoint (α := Nat)) := ⟨fun _ _ => List.Disjoint.symm⟩
  by_contra hne
  exact hdisjoint.forall hcl hcl' hne hx hx'

theorem exists_finpartition (h : IsClustering k c) : ∃ P : Finpartition (Finset.range k), P.parts = c.parts := by
  refine ⟨Finpartition.ofExistsUnique c.parts ?_ ?_ ?_, rfl⟩
  · intro s hs x hx
    obtain ⟨cl, hcl, rfl⟩ := mem_parts.mp hs
    exact Finset.mem_range.mpr (h.lt_of_mem hcl (List.mem_toFinset.mp hx))
  · intro x hx
    have hmem : x ∈ c.flatten := h.positions.mem_iff.mpr (List.mem_range.mpr (Finset.mem_range.mp hx))
    obtain ⟨cl, hcl, hxcl⟩ := List.mem_flatten.mp hmem
    refine ⟨cl.toFinset, ⟨mem_parts.mpr ⟨cl, hcl, rfl⟩, List.mem_toFinset.mpr hxcl⟩, ?_⟩
    rintro s ⟨hs, hxs⟩
    obtain ⟨cl', hcl', rfl⟩ := mem_parts.mp hs
    rw [h.eq_of_mem_of_mem hcl' hcl (List.mem_toFinset.mp hxs) hxcl]
  · intro hempty
    obtain ⟨cl, hcl, heq⟩ := mem_parts.mp hempty
    exact h.nonempty cl hcl (List.toFinset_eq_empty_iff _ |>.mp heq)

theorem mem_of_parts_eq (hc : IsClustering k c) (hd : IsClustering k d) (h : c.parts = d.parts) {cl : List Nat}
    (hcl : cl ∈ c) : cl ∈ d := by
  obtain ⟨cl', hcl', heq⟩ := mem_parts.mp (h ▸ mem_parts.mpr ⟨cl, hcl, rfl⟩)
  have hasc := hc.ascending cl hcl
  have hasc' := hd.ascending cl' hcl'
  have hperm := List.perm_of_nodup_nodup_toFinset_eq (hasc'.imp Nat.ne_of_lt) (hasc.imp Nat.ne_of_lt) heq
  rw [← eq_of_perm_of_ascending id hperm hasc' hasc]
  exact hcl'

/-- Sets of positions are written in one way: each ascends, and the least positions ascend. -/
theorem eq_of_parts (hc : IsClustering k c) (hd : IsClustering k d) (h : c.parts = d.parts) : c = d := by
  have hperm : c.Perm d := (List.perm_ext_iff_of_nodup hc.nodup hd.nodup).mpr fun _ =>
    ⟨hc.mem_of_parts_eq hd h, hd.mem_of_parts_eq hc h.symm⟩
  exact eq_of_perm_of_ascending _ hperm hc.heads_ascending hd.heads_ascending

end IsClustering

section

variable {k : Nat} (P : Finpartition (Finset.range k))

noncomputable def Clustering.ofParts : Clustering := P.parts.toList.map fun s => s.sort

namespace Clustering

theorem parts_ofParts : (ofParts P).parts = P.parts := by
  ext s
  simp [ofParts, mem_parts]

theorem ofParts_nonempty : ∀ cl ∈ ofParts P, cl ≠ [] := by
  intro cl hcl hnil
  obtain ⟨s, hs, rfl⟩ := List.mem_map.mp hcl
  obtain ⟨x, hx⟩ := P.nonempty_of_mem_parts (Finset.mem_toList.mp hs)
  rw [← Finset.mem_sort (· ≤ ·), hnil] at hx
  exact List.not_mem_nil hx

theorem nodup_flatten_ofParts : (ofParts P).flatten.Nodup := by
  refine List.nodup_flatten.mpr ⟨fun cl hcl => ?_, List.pairwise_map.mpr ?_⟩
  · obtain ⟨s, -, rfl⟩ := List.mem_map.mp hcl
    exact Finset.sort_nodup _ _
  · refine P.parts.nodup_toList.pairwise_of_forall_ne fun s hs t ht hst x hxs hxt => ?_
    have hdisjoint := P.disjoint (Finset.mem_toList.mp hs) (Finset.mem_toList.mp ht) hst
    exact Finset.disjoint_left.mp hdisjoint ((Finset.mem_sort _).mp hxs) ((Finset.mem_sort _).mp hxt)

theorem flatten_ofParts_perm : (ofParts P).flatten.Perm (List.range k) := by
  refine (List.perm_ext_iff_of_nodup (nodup_flatten_ofParts P) List.nodup_range).mpr fun x => ?_
  rw [List.mem_range, ← Finset.mem_range, ← P.biUnion_parts]
  simp [ofParts]

end Clustering

theorem exists_isClustering : ∃ c, IsClustering k c ∧ c.parts = P.parts := by
  obtain ⟨d, hd, e, hde, hec⟩ :=
    IsClustering.exists_of_split (Clustering.ofParts_nonempty P) (Clustering.flatten_ofParts_perm P)
  refine ⟨d, hd, ?_⟩
  rw [Clustering.parts_perm hde, Clustering.parts_congr hec, Clustering.parts_ofParts]

end

/-! ## The listing -/

theorem clusterings_one : clusterings 1 = [[[0]]] := by
  rw [clusterings, clusterings, Clustering.next, Clustering.extended, List.flatMap_singleton, Clustering.placements,
    List.mergeSort_singleton]
  rfl

/-- The listing of `k` positions gives each partition of them once, written in ascending
    clusters by their least positions; of two entries a larger cluster comes first, then
    fewer clusters, and then the order is that of the entries for one position less, from
    which they differ in the cluster of the last position. -/
theorem listClusterings_exact (k : Int) (hk : 1 ≤ k) :
    ∃ cs, listClusterings k = .ok cs ∧ cs.Nodup ∧ (∀ c, c ∈ cs ↔ IsClustering k.toNat c) ∧
      (∀ c ∈ cs, ∃ P : Finpartition (Finset.range k.toNat), P.parts = c.parts) ∧
      (∀ P : Finpartition (Finset.range k.toNat), ∃! c, c ∈ cs ∧ c.parts = P.parts) ∧
      ∀ c ∈ cs, ∀ d ∈ cs, c ≠ d → ∃ smaller, listClusterings (k - 1) = .ok smaller ∧
        c.without (k - 1).toNat ∈ smaller ∧ d.without (k - 1).toNat ∈ smaller ∧
        ([c, d].Sublist cs ↔ Clustering.Precedes (k - 1).toNat smaller c d) := by
  obtain ⟨m, rfl⟩ : ∃ m : Nat, k = (m + 1 : Nat) := ⟨k.toNat - 1, by omega⟩
  have hlast : ((m + 1 : Nat) - 1 : Int).toNat = m := by omega
  rw [hlast, Int.toNat_natCast]
  refine ⟨clusterings (m + 1), ?_, nodup_clusterings _, fun _ => mem_clusterings, ?_, ?_, ?_⟩
  · rw [listClusterings, if_neg (by omega), Int.toNat_natCast]
  · intro c hc
    exact (mem_clusterings.mp hc).exists_finpartition
  · intro P
    obtain ⟨c, hc, hparts⟩ := exists_isClustering P
    refine ⟨c, ⟨mem_clusterings.mpr hc, hparts⟩, ?_⟩
    rintro d ⟨hd, hdparts⟩
    exact (mem_clusterings.mp hd).eq_of_parts hc (hdparts.trans hparts.symm)
  · intro c hc d hd hne
    have hm : m ≠ 0 := by
      rintro rfl
      rw [clusterings_one, List.mem_singleton] at hc hd
      exact hne (hc.trans hd.symm)
    refine ⟨clusterings m, ?_, ?_, ?_, ?_⟩
    · rw [listClusterings, if_neg (by omega), hlast]
    · exact mem_clusterings.mpr (mem_clusterings.mp hc).without
    · exact mem_clusterings.mpr (mem_clusterings.mp hd).without
    · exact pair_sublist_iff (clusterings_order m) (fun _ _ h => h.asymm (nodup_clusterings m)) hc hd hne

/-- Two clusterings of four positions have equally large clusters and as many; without
    position 3 the first has the larger one, so it comes first. -/
theorem listClusterings_exact_four :
    (1 : Int) ≤ 4 ∧ ∃ cs, listClusterings 4 = .ok cs ∧ [[[0], [1, 2], [3]], [[0, 3], [1], [2]]].Sublist cs := by
  obtain ⟨cs₃, hok₃, -, hmem₃, -, -, horder₃⟩ := listClusterings_exact 3 (by decide)
  obtain ⟨cs₄, hok₄, -, hmem₄, -, -, horder₄⟩ := listClusterings_exact 4 (by decide)
  refine ⟨by decide, cs₄, hok₄, ?_⟩
  have hc : IsClustering 4 [[0], [1, 2], [3]] := ⟨by decide, by decide, by decide, by decide⟩
  have hd : IsClustering 4 [[0, 3], [1], [2]] := ⟨by decide, by decide, by decide, by decide⟩
  obtain ⟨smaller, hok, hc', hd', hiff⟩ := horder₄ _ ((hmem₄ _).mpr hc) _ ((hmem₄ _).mpr hd) (by decide)
  obtain rfl : cs₃ = smaller := Except.ok.inj (hok₃.symm.trans hok)
  refine hiff.mpr (Or.inr ⟨by decide, Or.inr ⟨by decide, Or.inl ?_⟩⟩)
  obtain ⟨_, -, -, -, hiff₃⟩ := horder₃ _ hc' _ hd' (by decide)
  exact hiff₃.mpr (Or.inl (by decide))

end Tractor
