/-
  Tractor.Proofs.Shape.Demand — the decompositions of `n` cards come in the order of what
  they demand: larger tuples first, then longer runs, then fewer runs (`Shape.NoWorse`).

  The order is nowhere sorted for. A partition comes before all that are lexicographically
  smaller, and the shapes of a partition have its tuples (`profile_of_mem_ofPartition`).
  Inside a partition the layouts of the larger tuples are in order, and so they are with
  its single cards added: these are runs of one tuple, as many beside each layout, and
  every layout has a run at least that long (`ofPartition_order`). Dropping repeats keeps
  the order (`decompositions_order`).

  So the first decomposition is the one tuple of all cards (`head?_decompositions`), as much
  as which no other demands, and the last is single cards only (`getLast?_decompositions`),
  which demand least.
-/

import Tractor.Proofs.Shape.Layout
import Tractor.Proofs.Shape.Profile

namespace Tractor

/-! ## Runs put together -/

namespace Shape

variable {s t u : Shape}

theorem le_longest {r : Run} (hr : r ∈ s) : r.length ≤ s.longest := longest_le_iff.mp (Nat.le_refl _) r hr

theorem longest_append (s t : Shape) : (s ++ t).longest = max s.longest t.longest := by
  refine eq_of_forall_ge_iff fun n => ?_
  rw [longest_le_iff, List.forall_mem_append, ← longest_le_iff, ← longest_le_iff, Nat.max_le]

theorem longest_perm (h : s.Perm t) : s.longest = t.longest := by
  refine eq_of_forall_ge_iff fun n => ?_
  simp only [longest_le_iff, h.mem_iff]

/-- Short runs beside both make no difference. -/
theorem NoShorter.append (h : s.NoShorter t) (hu : u.longest ≤ t.longest) : (s ++ u).NoShorter (t ++ u) := by
  unfold NoShorter at h ⊢
  rw [longest_append, longest_append, List.length_append, List.length_append]
  omega

theorem NoShorter.canonical (h : s.NoShorter t) : s.canonical.NoShorter t.canonical := by
  unfold NoShorter
  rwa [longest_perm s.canonical_perm, longest_perm t.canonical_perm, s.canonical_perm.length_eq,
    t.canonical_perm.length_eq]

/-- It has larger tuples, or the same tuples and a longer run, or also as long a run and no
    more runs. -/
def NoWorse (s t : Shape) : Prop := List.lt t.profile s.profile ∨ s.profile = t.profile ∧ s.NoShorter t

end Shape

/-! ## The order of the decompositions -/

namespace Decomposition

theorem longest_singles_le {n : Int} {p : Run} (h : IsPartition n p) : Shape.longest (singles p) ≤ 1 := by
  refine Shape.longest_le_iff.mpr fun r hr => ?_
  rw [eq_one_of_mem_singles h r hr, List.length_singleton]

theorem one_le_longest_of_mem_layouts {values : Run} {s : Shape} (hne : values ≠ []) (hs : s ∈ layouts values) :
    1 ≤ s.longest := by
  have hlayout := IsLayout.of_mem_layouts hs
  obtain ⟨v, hv⟩ := List.exists_mem_of_ne_nil values hne
  obtain ⟨r, hr, hv⟩ := List.mem_flatten.mp (hlayout.values.mem_iff.mpr hv)
  exact Nat.le_trans (List.length_pos_of_mem hv) (Shape.le_longest hr)

theorem ofPartition_order {n : Int} {p : Run} (h : IsPartition n p) : (ofPartition p).Pairwise Shape.NoShorter := by
  unfold ofPartition
  split
  · exact List.pairwise_singleton _ _
  · rename_i hne
    have hne : large p ≠ [] := fun hnil => hne (hnil ▸ rfl)
    refine List.pairwise_map.mpr ((layouts_order (large p)).imp_of_mem fun {s t} hs ht hst => ?_)
    have hshort := Nat.le_trans (longest_singles_le h) (one_le_longest_of_mem_layouts hne ht)
    exact (hst.append hshort).canonical

end Decomposition

theorem decompositions_order (n : Nat) : (decompositions n).Pairwise Shape.NoWorse := by
  refine List.Pairwise.sublist (Shape.distinct_sublist _) (List.pairwise_flatMap.mpr ⟨fun p hp => ?_, ?_⟩)
  · have hp := mem_partitions.mp hp
    refine (Decomposition.ofPartition_order hp).imp_of_mem fun hs ht hst => Or.inr ⟨?_, hst⟩
    rw [profile_of_mem_ofPartition hp hs, profile_of_mem_ofPartition hp ht]
  · refine (partitions_strictly_descending n).imp_of_mem fun hp hq hqp s hs t ht => Or.inl ?_
    rwa [profile_of_mem_ofPartition (mem_partitions.mp hp) hs, profile_of_mem_ofPartition (mem_partitions.mp hq) ht]

theorem Shape.NoWorse.profile_le {s t : Shape} (h : s.NoWorse t) : List.le t.profile s.profile := by
  rcases h with hlt | ⟨heq, -⟩
  · exact List.le_iff_lt_or_eq.mpr (Or.inl hlt)
  · exact heq ▸ List.le_refl _

theorem profiles_descending (n : Nat) : (decompositions n).Pairwise fun s t => List.le t.profile s.profile :=
  (decompositions_order n).imp Shape.NoWorse.profile_le

/-! ## The first and the last -/

theorem isDecomposition_tuple {n : Int} (hn : 1 ≤ n) : IsDecomposition n [[n]] := by
  refine ⟨fun r hr => ?_, ?_, List.pairwise_singleton _ _⟩
  · rw [List.mem_singleton.mp hr]
    refine ⟨List.cons_ne_nil n [], ?_⟩
    by_cases h1 : n = 1
    · exact Or.inl (by rw [h1])
    · exact Or.inr fun v hv => by rw [List.mem_singleton.mp hv]; omega
  · simp [Shape.cards, Run.cards]

/-- No partition of `n` cards is above the one tuple of them. -/
theorem IsPartition.not_lt {n : Int} {p : Run} (h : IsPartition n p) : ¬ List.lt [n] p := by
  intro hlt
  cases p with
  | nil => exact List.not_lt_nil _ hlt
  | cons v rest =>
    have hcards := h.cards
    have hrest := Run.mul_length_le_cards (k := 1) fun w hw => h.positive w (List.mem_cons_of_mem v hw)
    rw [Run.cards_cons] at hcards
    rcases List.cons_lt_cons_iff.mp hlt with hnv | ⟨rfl, hnil⟩
    · omega
    · have hlen : rest.length = 0 := by omega
      rw [List.eq_nil_of_length_eq_zero hlen] at hnil
      exact List.lt_irrefl _ hnil

/-- A shape without empty runs that has one tuple is this tuple. -/
theorem eq_of_flatten_eq_singleton {s : Shape} {v : Int} (hne : ∀ r ∈ s, r ≠ []) (h : s.flatten = [v]) : s = [[v]] := by
  cases s with
  | nil => cases h
  | cons r s =>
    rw [List.forall_mem_cons] at hne
    rcases List.append_eq_singleton_iff.mp h with ⟨hr, -⟩ | ⟨rfl, hs⟩
    · exact absurd hr hne.1
    · rw [eq_nil_of_flatten_eq_nil hne.2 hs]

/-- Nothing else demands as much as one tuple of all cards. -/
theorem IsDecomposition.eq_tuple {n : Int} {s : Shape} (h : IsDecomposition n s) (hs : s.NoWorse [[n]]) :
    s = [[n]] := by
  rcases hs with hlt | ⟨heq, -⟩
  · rw [Shape.profile_singleton, Run.sorted_singleton] at hlt
    exact absurd hlt h.isPartition.not_lt
  · have hperm : s.flatten.Perm [n] := Run.sorted_eq_iff.mp heq
    exact eq_of_flatten_eq_singleton (fun r hr => (h.legal r hr).1) (List.perm_singleton.mp hperm)

theorem head?_decompositions {n : Nat} (hn : 1 ≤ n) : (decompositions n).head? = some [[(n : Int)]] := by
  have htuple : [[(n : Int)]] ∈ decompositions n := mem_decompositions.mpr (isDecomposition_tuple (by omega))
  exact head?_eq_of_pairwise (decompositions_order n) htuple fun s hs hle => (mem_decompositions.mp hs).eq_tuple hle

theorem getLast?_decompositions (n : Nat) : (decompositions n).getLast? = some (List.replicate n [1]) := by
  have hsingles := mem_decompositions.mpr (isDecomposition_singles n)
  exact getLast?_eq_of_pairwise (profiles_descending n) hsingles fun s hs hle =>
    (mem_decompositions.mp hs).eq_singles hle

/-- The listing of `n` cards comes in the order of what the shapes demand, from the one tuple
    of all cards to single cards only. -/
theorem listDecompositions_ordered (n : Int) (hn : 1 ≤ n) :
    ∃ shapes, listDecompositions n = .ok shapes ∧ shapes.Pairwise Shape.NoWorse ∧ shapes.head? = some [[n]] ∧
      shapes.getLast? = some (List.replicate n.toNat [1]) := by
  refine ⟨decompositions n.toNat, ?_, decompositions_order _, ?_, getLast?_decompositions _⟩
  · rw [listDecompositions, if_neg (by omega)]
  · rw [head?_decompositions (by omega), Int.toNat_of_nonneg (by omega)]

/-- Of four cards two pairs at adjacent ranks do not come after two pairs that are apart. -/
theorem listDecompositions_ordered_four :
    (1 : Int) ≤ 4 ∧ ∃ shapes, listDecompositions 4 = .ok shapes ∧ ¬ [[[2], [2]], [[2, 2]]].Sublist shapes ∧
      shapes.head? = some [[4]] ∧ shapes.getLast? = some [[1], [1], [1], [1]] := by
  obtain ⟨shapes, hok, horder, hhead, hlast⟩ := listDecompositions_ordered 4 (by decide)
  refine ⟨by decide, shapes, hok, fun hsub => ?_, hhead, hlast⟩
  -- both have the same tuples, and the longer run is the later one's
  rcases List.pairwise_iff_forall_sublist.mp horder hsub with hlt | ⟨-, hle⟩
  · exact List.lt_irrefl _ hlt
  · revert hle
    unfold Shape.NoShorter
    decide

end Tractor
