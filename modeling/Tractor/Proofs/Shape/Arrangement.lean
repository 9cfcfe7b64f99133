/-
  Tractor.Proofs.Shape.Arrangement — the layouts of tuple sizes are all their splits
  into runs, up to the order of the runs.

  - `Clustering.arranged_eq_arrangedInFull`: uniform clusters have one arrangement, so the
    general way gives what is given at once.
  - `Clustering.arranged_exact`: either way these are the choices of an arrangement for each
    cluster, each once.
  - `IsLayout.of_mem_layouts`, `IsLayout.exists_mem_layouts`: a layout splits the sizes
    into non-empty runs, and every such split reorders the runs of a layout. The second
    finds the positions of the sizes of a given split, which are themselves split into
    clusters (`exists_clusters`), and sorts these into a clustering.
-/

import Tractor.Proofs.Shape.Clustering
import Tractor.Proofs.Shape.Orders

namespace Tractor

/-! ## Uniform clusters -/

theorem Run.exists_eq_replicate {r : Run} (h : r.isUniform = true) : ∃ n v, r = List.replicate n v := by
  cases r with
  | nil => exact ⟨0, 0, rfl⟩
  | cons v vs =>
    refine ⟨(v :: vs).length, v, List.eq_replicate_iff.mpr ⟨rfl, fun w hw => ?_⟩⟩
    rcases List.mem_cons.mp hw with rfl | hw
    · rfl
    · exact eq_of_beq (List.all_eq_true.mp h w hw)

theorem arrangements_of_isUniform {r : Run} (h : r.isUniform = true) : arrangements r = [r] := by
  obtain ⟨n, v, rfl⟩ := Run.exists_eq_replicate h
  have hnodup := nodup_arrangements (List.replicate n v)
  refine List.perm_singleton.mp ((List.perm_ext_iff_of_nodup hnodup (List.nodup_singleton _)).mpr fun t => ?_)
  rw [mem_arrangements, List.perm_replicate, List.mem_singleton]

theorem choices_singletons {α : Type} (xs : List α) : choices (xs.map fun x => [x]) = [xs] := by
  induction xs with
  | nil => rfl
  | cons x xs ih => rw [List.map_cons, choices, ih]; rfl

namespace Clustering

theorem arranged_eq_arrangedInFull (c : Clustering) (values : Run) : c.arranged values = c.arrangedInFull values := by
  rw [arranged]
  split
  · rename_i h
    have hone : (c.groups values).map arrangements = (c.groups values).map fun r => [r] :=
      List.map_congr_left fun r hr => arrangements_of_isUniform (List.all_eq_true.mp h r hr)
    rw [arrangedInFull, hone, choices_singletons]
  · rfl

theorem mem_arranged {c : Clustering} {values : Run} {s : Shape} :
    s ∈ c.arranged values ↔ List.Forall₂ List.Perm s (c.groups values) := by
  rw [arranged_eq_arrangedInFull, arrangedInFull, mem_choices, List.forall₂_map_right_iff]
  simp only [mem_arrangements]

/-- Uniform clusters make no difference: the shapes of a clustering are the choices of an
    arrangement for each cluster, where the arrangements are the orders of the positions,
    each kept where it is first seen, and the first cluster varies slowest. Every choice is
    there once and nothing else is. -/
theorem arranged_exact (c : Clustering) (values : Run) :
    c.arranged values = c.arrangedInFull values ∧
      c.arranged values = choices ((c.groups values).map fun g => (orders g).eraseDups) ∧
      (∀ n, (positionOrders n).Pairwise (· < ·) ∧ ∀ o, o ∈ positionOrders n ↔ o.Perm (List.range n)) ∧
      (c.arranged values).Pairwise (Earlier ((c.groups values).map fun g => (orders g).eraseDups)) ∧
      (c.arranged values).Nodup ∧ ∀ s, s ∈ c.arranged values ↔ List.Forall₂ List.Perm s (c.groups values) := by
  have hfull := c.arranged_eq_arrangedInFull values
  have horders : c.arrangedInFull values = choices ((c.groups values).map fun g => (orders g).eraseDups) := by
    unfold arrangedInFull
    rw [List.map_congr_left fun g _ => arrangements_eq_eraseDups_orders g]
  refine ⟨hfull, hfull.trans horders, fun n => ⟨positionOrders_ascending n, fun o => mem_positionOrders⟩, ?_, ?_,
    fun s => mem_arranged⟩
  · rw [hfull, horders]
    exact choices_order _
  · rw [hfull]
    refine nodup_choices fun xs hxs => ?_
    obtain ⟨g, -, rfl⟩ := List.mem_map.mp hxs
    exact nodup_arrangements g

theorem groups_flatten (c : Clustering) (values : Run) :
    (c.groups values).flatten = c.flatten.map fun i => values.getD i 0 :=
  (List.map_flatten ..).symm

end Clustering

/-! ## Layouts -/

structure IsLayout (values : Run) (s : Shape) : Prop where
  nonempty : ∀ r ∈ s, r ≠ []
  values : s.flatten.Perm values

/-- What maps to the runs of a shape splits as they do. -/
theorem exists_clusters {f : Nat → Int} {s : Shape} {positions : List Nat} (h : positions.map f = s.flatten) :
    ∃ c : Clustering, c.flatten = positions ∧ c.map (List.map f) = s := by
  induction s generalizing positions with
  | nil =>
    rw [List.flatten_nil, List.map_eq_nil_iff] at h
    exact ⟨[], h.symm, rfl⟩
  | cons r s ih =>
    obtain ⟨first, rest, rfl, rfl, hrest⟩ := List.map_eq_append_iff.mp h
    obtain ⟨c, rfl, rfl⟩ := ih hrest
    exact ⟨first :: c, rfl, rfl⟩

theorem nil_mem_of_forall₂_perm {s t : Shape} (h : List.Forall₂ List.Perm s t) (hs : [] ∈ s) : [] ∈ t := by
  induction h with
  | nil => cases hs
  | cons hrt _ ih =>
    rcases List.mem_cons.mp hs with rfl | hs
    · rw [List.nil_perm.mp hrt]
      exact List.mem_cons_self
    · exact List.mem_cons_of_mem _ (ih hs)

namespace IsLayout

theorem of_mem_layouts {values : Run} {s : Shape} (h : s ∈ layouts values) : IsLayout values s := by
  obtain ⟨c, hc, hs⟩ := List.mem_flatMap.mp ((Shape.distinct_sublist _).subset h)
  have hc := mem_clusterings.mp hc
  have hs := Clustering.mem_arranged.mp hs
  refine ⟨fun r hr hnil => ?_, ?_⟩
  · subst hnil
    -- an empty run could only arrange an empty cluster
    obtain ⟨cl, hcl, hnil⟩ := List.mem_map.mp (nil_mem_of_forall₂_perm hs hr)
    exact hc.nonempty cl hcl (List.map_eq_nil_iff.mp hnil)
  · refine (List.Perm.flatten_congr hs).trans ?_
    rw [Clustering.groups_flatten]
    exact (hc.positions.map _).trans (.of_eq (map_getD_range values 0))

theorem exists_mem_layouts {values : Run} {s : Shape} (h : IsLayout values s) : ∃ t ∈ layouts values, t.Perm s := by
  obtain ⟨hne, hvalues⟩ := h
  -- the positions of the sizes, in the order in which the runs hold them
  obtain ⟨positions, hflat, hpos⟩ : ∃ positions : List Nat,
      s.flatten = positions.map (fun i => values.getD i 0) ∧ positions.Perm (List.range values.length) := by
    have hperm := map_getD_range values 0 ▸ hvalues
    exact (congrFun (congrFun (List.eq_map_comp_perm _) s.flatten) _).mpr hperm
  obtain ⟨c, rfl, rfl⟩ := exists_clusters hflat.symm
  have hnec : ∀ cl ∈ c, cl ≠ [] := by
    intro cl hcl hnil
    exact hne _ (List.mem_map.mpr ⟨cl, hcl, rfl⟩) (hnil ▸ rfl)
  obtain ⟨d, hd, e, hde, hec⟩ := IsClustering.exists_of_split hnec hpos
  have hgroups : (d.groups values).Perm (Clustering.groups e values) := hde.map _
  have hruns : List.Forall₂ List.Perm (Clustering.groups e values) (c.map (List.map fun i => values.getD i 0)) :=
    List.forall₂_map_left_iff.mpr (List.forall₂_map_right_iff.mpr (hec.imp fun _ _ hab => hab.map _))
  obtain ⟨t, ht, hts⟩ := List.perm_comp_forall₂ hgroups hruns
  have hmem : t ∈ (clusterings values.length).flatMap fun c => c.arranged values :=
    List.mem_flatMap.mpr ⟨d, mem_clusterings.mpr hd, Clustering.mem_arranged.mpr (ht.flip.imp fun _ _ h => h.symm)⟩
  obtain ⟨u, hu, hut⟩ := Shape.exists_mem_distinct hmem
  exact ⟨u, hu, hut.trans hts⟩

end IsLayout

end Tractor
