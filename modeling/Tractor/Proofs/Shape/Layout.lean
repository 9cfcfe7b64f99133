/-
  Tractor.Proofs.Shape.Layout — the layouts of tuple sizes, each once up to the order of its
  runs, and the order in which they come.

  A layout has a run for each cluster, as long as the cluster is large
  (`map_length_of_mem_arranged`). So the order of the clusterings, large clusters first and
  then few, is one of the layouts, long runs first and then few (`layouts_order`).

  - `head?_layouts`: the first is all sizes as one run, in the order given. The first
    clustering is the one cluster of all positions (`head?_clusterings`), and the first
    arrangement of a run is the run itself (`exists_arrangements_cons`).
  - `getLast?_layouts`: the last is each size as a run of its own; it is the only layout
    whose runs are that short (`eq_singles_of_mem_layouts`).
  - `mem_map_canonical_layouts`: in their canonical form the layouts are the descending
    splits of the sizes, so sizes in another order have the same.
-/

import Tractor.Proofs.Shape.Arrangement
import Tractor.Proofs.Shape.Placement

namespace Tractor

/-! ## Long runs -/

namespace Shape

def longest (s : Shape) : Nat := (s.map List.length).foldl max 0

theorem longest_le_iff {s : Shape} {n : Nat} : s.longest ≤ n ↔ ∀ r ∈ s, r.length ≤ n := by
  simp [longest, foldl_max_le_iff]

/-- Its longest run is longer, or as long and it has no more runs. -/
def NoShorter (s t : Shape) : Prop := t.longest < s.longest ∨ s.longest = t.longest ∧ s.length ≤ t.length

end Shape

/-! ## The order of the layouts -/

namespace Clustering

variable {c d : Clustering} {values : Run} {s t : Shape}

theorem map_length_of_mem_arranged (hs : s ∈ c.arranged values) : s.map List.length = c.map List.length := by
  have hgroups : (c.groups values).map List.length = c.map List.length := by simp [groups]
  rw [← hgroups]
  exact map_eq_map_of_forall₂ ((mem_arranged.mp hs).imp fun _ _ h => h.length_eq)

theorem longest_of_mem_arranged (hs : s ∈ c.arranged values) : s.longest = c.largest :=
  congrArg (List.foldl max 0) (map_length_of_mem_arranged hs)

theorem length_of_mem_arranged (hs : s ∈ c.arranged values) : s.length = c.length := by
  simpa using congrArg List.length (map_length_of_mem_arranged hs)

theorem noShorter_of_before (h : before c d = true) (hs : s ∈ c.arranged values) (ht : t ∈ d.arranged values) :
    s.NoShorter t := by
  rw [before_iff] at h
  unfold Shape.NoShorter
  rwa [longest_of_mem_arranged hs, longest_of_mem_arranged ht, length_of_mem_arranged hs, length_of_mem_arranged ht]

end Clustering

theorem layouts_order (values : Run) : (layouts values).Pairwise Shape.NoShorter := by
  refine List.Pairwise.sublist (Shape.distinct_sublist _) (List.pairwise_flatMap.mpr ⟨fun c _ => ?_, ?_⟩)
  · refine List.pairwise_of_forall_mem_list fun s hs t ht => Clustering.noShorter_of_before ?_ hs ht
    simp [Clustering.before]
  · exact (clusterings_before _).imp fun h s hs t ht => Clustering.noShorter_of_before h hs ht

/-! ## The first layout -/

theorem exists_arrangements_cons (values : Run) : ∃ others, arrangements values = values :: others := by
  unfold arrangements
  induction values with
  | nil => exact ⟨[], rfl⟩
  | cons v values ih =>
    obtain ⟨others, hothers⟩ := ih
    rw [List.length_cons, arrangementsOfLength, List.eraseDups_cons, List.flatMap_cons, List.erase_cons_head, hothers]
    exact ⟨_, rfl⟩

theorem exists_choices_cons {α : Type} {f : α → List α} (h : ∀ x, ∃ others, f x = x :: others) (xs : List α) :
    ∃ others, choices (xs.map f) = xs :: others := by
  induction xs with
  | nil => exact ⟨[], rfl⟩
  | cons x xs ih =>
    obtain ⟨others, hothers⟩ := ih
    obtain ⟨rest, hrest⟩ := h x
    rw [List.map_cons, choices, hothers, hrest, List.flatMap_cons]
    exact ⟨_, rfl⟩

/-- Nothing is dropped before the first shape. -/
theorem Shape.exists_distinct_cons (s : Shape) (rest : List Shape) : ∃ others, distinct (s :: rest) = s :: others :=
  ⟨_, distinctFrom_cons_new Std.HashSet.not_mem_empty rest⟩

theorem head?_layouts {values : Run} (hne : values ≠ []) : (layouts values).head? = some [values] := by
  obtain ⟨cs, hcs⟩ := List.head?_eq_some_iff.mp (head?_clusterings (List.length_pos_iff.mpr hne).ne')
  have hgroups : Clustering.groups [List.range values.length] values = [values] := by
    rw [Clustering.groups, List.map_singleton, map_getD_range]
  obtain ⟨others, hothers⟩ := exists_choices_cons exists_arrangements_cons [values]
  obtain ⟨rest, hrest⟩ := Shape.exists_distinct_cons [values] (others ++ cs.flatMap fun c => c.arranged values)
  rw [layouts, layoutsOver, hcs, List.flatMap_cons, Clustering.arranged_eq_arrangedInFull, Clustering.arrangedInFull,
    hgroups, hothers, List.cons_append, hrest, List.head?_cons]

/-! ## The last layout -/

/-- Clusters of one position each stand in the order of their positions. -/
theorem IsClustering.eq_singles {k : Nat} {c : Clustering} (h : IsClustering k c) (hone : ∀ cl ∈ c, cl.length = 1) :
    c = (List.range k).map ([·]) := by
  obtain ⟨positions, rfl⟩ := exists_eq_map_singleton hone
  have hperm : positions.Perm (List.range k) := by simpa using h.positions
  have hasc : positions.Pairwise (· < ·) := by simpa [Function.comp_def] using h.ordered
  rw [eq_of_perm_of_ascending id hperm hasc List.pairwise_lt_range]

theorem isLayout_singles (values : Run) : IsLayout values (values.map ([·])) := ⟨by simp, by simp⟩

theorem eq_singles_of_mem_layouts {values : Run} {s : Shape} (hs : s ∈ layouts values) (hone : ∀ r ∈ s, r.length = 1) :
    s = values.map ([·]) := by
  obtain ⟨c, hc, hs⟩ := List.mem_flatMap.mp ((Shape.distinct_sublist _).subset hs)
  have hlengths : ∀ n ∈ c.map List.length, n = 1 := by
    rw [← Clustering.map_length_of_mem_arranged hs]
    exact List.forall_mem_map.mpr hone
  have hc := (mem_clusterings.mp hc).eq_singles (List.forall_mem_map.mp hlengths)
  have hgroups : Clustering.groups ((List.range values.length).map ([·])) values = values.map ([·]) := by
    conv_rhs => rw [← map_getD_range values 0]
    simp [Clustering.groups]
  rw [hc, Clustering.mem_arranged, hgroups, List.forall₂_map_right_iff] at hs
  simpa using map_eq_map_of_forall₂ (f := id) (g := fun v => [v]) (hs.imp fun _ _ h => List.perm_singleton.mp h)

theorem getLast?_layouts (values : Run) : (layouts values).getLast? = some (values.map ([·])) := by
  obtain ⟨t, ht, hperm⟩ := (isLayout_singles values).exists_mem_layouts
  have hsingles : ∀ r ∈ values.map ([·]), r.length = 1 := by simp
  have hmem := ht
  rw [eq_singles_of_mem_layouts ht fun r hr => hsingles r (hperm.subset hr)] at hmem
  refine getLast?_eq_of_pairwise (layouts_order values) hmem fun s hs hle => eq_singles_of_mem_layouts hs ?_
  have hone : Shape.longest (values.map ([·])) ≤ 1 := Shape.longest_le_iff.mpr fun r hr => (hsingles r hr).le
  have hshort : s.longest ≤ 1 := by
    unfold Shape.NoShorter at hle
    omega
  intro r hr
  have hpos := List.length_pos_iff.mpr ((IsLayout.of_mem_layouts hs).nonempty r hr)
  have := Shape.longest_le_iff.mp hshort r hr
  omega

/-! ## Each layout once -/

theorem IsLayout.congr {values other : Run} {s t : Shape} (h : IsLayout values s) (hvalues : values.Perm other)
    (hst : s.Perm t) : IsLayout other t := by
  refine ⟨fun r hr => h.nonempty r (hst.mem_iff.mpr hr), ?_⟩
  exact (hst.flatten.symm.trans h.values).trans hvalues

theorem eq_of_mem_layouts_of_perm {values : Run} {s t : Shape} (hs : s ∈ layouts values) (ht : t ∈ layouts values)
    (h : s.Perm t) : s = t :=
  List.inj_on_of_nodup_map (Shape.nodup_canonical_distinct _) hs ht (Shape.canonical_eq_of_perm h)

theorem mem_map_canonical_layouts {values : Run} {s : Shape} :
    s ∈ (layouts values).map Shape.canonical ↔ IsLayout values s ∧ s.Descending := by
  rw [List.mem_map]
  constructor
  · rintro ⟨t, ht, rfl⟩
    exact ⟨(IsLayout.of_mem_layouts ht).congr (List.Perm.refl _) t.canonical_perm.symm, t.canonical_descending⟩
  · rintro ⟨hs, hdesc⟩
    obtain ⟨t, ht, hperm⟩ := hs.exists_mem_layouts
    exact ⟨t, ht, Shape.canonical_eq hperm hdesc⟩

theorem map_canonical_layouts_perm {values other : Run} (h : other.Perm values) :
    ((layouts other).map Shape.canonical).Perm ((layouts values).map Shape.canonical) := by
  have hnodup : ∀ values : Run, ((layouts values).map Shape.canonical).Nodup := fun _ => Shape.nodup_canonical_distinct _
  refine (List.perm_ext_iff_of_nodup (hnodup other) (hnodup values)).mpr fun s => ?_
  rw [mem_map_canonical_layouts, mem_map_canonical_layouts]
  exact and_congr_left fun _ => ⟨fun hs => hs.congr h (List.Perm.refl _), fun hs => hs.congr h.symm (List.Perm.refl _)⟩

theorem listLayouts_eq {values : Run} (hne : values ≠ []) (h : ∀ v ∈ values, 1 < v) :
    listLayouts values = .ok (layouts values) := by
  have hany : ¬ (values.any fun v => decide (v ≤ 1)) = true := by
    simpa using h
  rw [listLayouts, if_neg (by simpa using hne), if_neg hany]

theorem listLayouts_eq_error_iff {values : Run} :
    (∃ fault, listLayouts values = .error fault) ↔ values = [] ∨ ∃ v ∈ values, v ≤ 1 := by
  constructor
  · rintro ⟨fault, hfault⟩
    by_contra hno
    simp only [not_or, not_exists, not_and, Int.not_le] at hno
    rw [listLayouts_eq hno.1 hno.2] at hfault
    cases hfault
  · rintro (rfl | ⟨v, hv, hle⟩)
    · exact ⟨.noValues, rfl⟩
    · have hne : ¬ values.isEmpty = true := by simpa using List.ne_nil_of_mem hv
      have hany : (values.any fun v => decide (v ≤ 1)) = true := List.any_eq_true.mpr ⟨v, hv, decide_eq_true hle⟩
      exact ⟨.smallValue, by rw [listLayouts, if_neg hne, if_pos hany]⟩

/-- The listing of tuple sizes above one gives each split of them into runs once, up to the
    order of the runs, long runs first and then few; the sizes in another order give the
    same splits. It is refused exactly for no size and for a size that is not above one. -/
theorem listLayouts_exact (values : Run) :
    ((∃ fault, listLayouts values = .error fault) ↔ values = [] ∨ ∃ v ∈ values, v ≤ 1) ∧
      (values ≠ [] → (∀ v ∈ values, 1 < v) → ∃ shapes, listLayouts values = .ok shapes ∧ shapes.Nodup ∧
        (∀ s ∈ shapes, IsLayout values s) ∧
        (∀ s, IsLayout values s → ∃ t ∈ shapes, t.Perm s ∧ ∀ u ∈ shapes, u.Perm s → u = t) ∧
        (∀ other : Run, other.Perm values → ∃ others, listLayouts other = .ok others ∧
          (others.map Shape.canonical).Perm (shapes.map Shape.canonical)) ∧
        shapes.Pairwise Shape.NoShorter ∧ shapes.head? = some [values] ∧
        shapes.getLast? = some (values.map ([·]))) := by
  refine ⟨listLayouts_eq_error_iff, fun hne hlarge => ⟨layouts values, listLayouts_eq hne hlarge,
    Shape.nodup_distinct _, fun _ => IsLayout.of_mem_layouts, ?_, ?_, layouts_order values, head?_layouts hne,
    getLast?_layouts values⟩⟩
  · intro s hs
    obtain ⟨t, ht, hts⟩ := hs.exists_mem_layouts
    exact ⟨t, ht, hts, fun u hu hus => eq_of_mem_layouts_of_perm hu ht (hus.trans hts.symm)⟩
  · intro other hperm
    have hother : other ≠ [] := by
      rintro rfl
      exact hne (List.nil_perm.mp hperm)
    exact ⟨layouts other, listLayouts_eq hother fun v hv => hlarge v (hperm.subset hv), map_canonical_layouts_perm hperm⟩

/-- A triple between two pairs and one of the pairs beside the other two tuples are layouts of
    these three; pairs and triple in another order have as many. -/
theorem listLayouts_exact_three :
    ([3, 2, 2] : Run) ≠ [] ∧ (∀ v ∈ ([3, 2, 2] : Run), 1 < v) ∧
      ∃ shapes others, listLayouts [3, 2, 2] = .ok shapes ∧ listLayouts [2, 3, 2] = .ok others ∧
        others.length = shapes.length ∧ [[2, 3, 2]] ∈ shapes ∧ shapes.head? = some [[3, 2, 2]] ∧
        others.head? = some [[2, 3, 2]] := by
  have hlarge : ∀ v ∈ ([3, 2, 2] : Run), 1 < v := by decide
  obtain ⟨shapes, hok, -, -, hall, hperm, -, hhead, -⟩ := (listLayouts_exact [3, 2, 2]).2 (by decide) hlarge
  obtain ⟨others, hok', -, -, -, -, -, hhead', -⟩ := (listLayouts_exact [2, 3, 2]).2 (by decide) (by decide)
  obtain ⟨_, hothers, hcanonical⟩ := hperm [2, 3, 2] (by decide)
  obtain rfl := Except.ok.inj (hok'.symm.trans hothers)
  obtain ⟨t, ht, hts, -⟩ := hall [[2, 3, 2]] ⟨by decide, by decide⟩
  rw [List.perm_singleton.mp hts] at ht
  exact ⟨by decide, hlarge, shapes, others, hok, hok', by simpa using hcanonical.length_eq, ht, hhead, hhead'⟩

end Tractor
