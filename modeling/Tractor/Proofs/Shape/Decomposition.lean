/-
  Tractor.Proofs.Shape.Decomposition — the decompositions of `n` cards are all shapes of
  `n` cards, each in its canonical form and once.

  A run is legal when it is a single card or all its tuples are above one card. A
  partition consists of its larger tuples and its single cards (`large_append_singles`);
  a legal shape does too, in runs, and its larger tuples are laid out in one of the
  layouts of the partition's (`IsDecomposition.exists_mem_listed`). So
  `mem_decompositions`: the decompositions are the legal canonical shapes.

  The partitions of `n` cards have up to `n / 2` larger tuples (`widest_partitions`): each
  takes two cards, and pairs take no more.
-/

import Tractor.Shape.Listing
import Tractor.Proofs.Shape.Arrangement
import Tractor.Proofs.Shape.Partition

namespace Tractor

def Run.Legal (r : Run) : Prop := r ≠ [] ∧ (r = [1] ∨ ∀ v ∈ r, 2 ≤ v)

structure IsDecomposition (n : Int) (s : Shape) : Prop where
  legal : ∀ r ∈ s, r.Legal
  cards : s.cards = n
  descending : s.Descending

theorem Run.Legal.positive {r : Run} (h : r.Legal) : ∀ v ∈ r, 1 ≤ v := by
  intro v hv
  rcases h.2 with rfl | h
  · have := List.mem_singleton.mp hv
    omega
  · have := h v hv
    omega

namespace Decomposition

/-! ## The two parts of a partition -/

theorem large_append_singles (p : Run) : large p ++ (singles p).flatten = p := by
  rw [singles, flatten_map_singleton]
  exact List.takeWhile_append_dropWhile

theorem two_le_of_positive {p : Run} (hpos : ∀ v ∈ p, 1 ≤ v) : ∀ v ∈ large p, 2 ≤ v := by
  intro v hv
  have hpos := hpos v ((List.takeWhile_sublist _).subset hv)
  have hne : v ≠ 1 := by simpa using List.all_eq_true.mp List.all_takeWhile v hv
  omega

section

variable {n : Int} {p : Run} (h : IsPartition n p)
include h

theorem two_le_of_mem_large : ∀ v ∈ large p, 2 ≤ v := two_le_of_positive h.positive

/-- After the first single card of a partition no larger tuple comes. -/
theorem eq_one_of_mem_singles : ∀ r ∈ singles p, r = [1] := by
  intro r hr
  obtain ⟨v, hv, rfl⟩ := List.mem_map.mp hr
  have hpos := h.positive v ((List.dropWhile_sublist _).subset hv)
  have hdesc : (p.dropWhile (· != 1)).Pairwise fun x y => y ≤ x := h.descending.sublist (List.dropWhile_sublist _)
  cases hd : p.dropWhile (· != 1) with
  | nil => simp [hd] at hv
  | cons w rest =>
    have hw : w = 1 := by
      have := List.head_dropWhile_not (· != 1) (l := p) (by simp [hd])
      simpa [hd] using this
    rw [hd] at hv hdesc
    rcases List.mem_cons.mp hv with rfl | hv
    · rw [hw]
    · have := (List.pairwise_cons.mp hdesc).1 v hv
      have hv1 : v = 1 := by omega
      rw [hv1]

theorem large_eq_filter : large p = p.filter (· != 1) := by
  conv_rhs => rw [← large_append_singles p]
  rw [List.filter_append, List.filter_eq_self.mpr, List.filter_eq_nil_iff.mpr, List.append_nil]
  · intro v hv
    obtain ⟨r, hr, hv⟩ := List.mem_flatten.mp hv
    rw [eq_one_of_mem_singles h r hr] at hv
    simp [List.mem_singleton.mp hv]
  · intro v hv
    have := two_le_of_mem_large h v hv
    rw [bne_iff_ne]
    omega

theorem singles_eq_filter : singles p = (p.filter (· == 1)).map ([·]) := by
  conv_rhs => rw [← large_append_singles p]
  rw [List.filter_append, List.filter_eq_nil_iff.mpr, List.nil_append, List.filter_eq_self.mpr]
  · rw [singles, flatten_map_singleton]
  · intro v hv
    obtain ⟨r, hr, hv⟩ := List.mem_flatten.mp hv
    rw [eq_one_of_mem_singles h r hr] at hv
    simp [List.mem_singleton.mp hv]
  · intro v hv
    have := two_le_of_mem_large h v hv
    rw [beq_iff_eq]
    omega

theorem mem_ofPartition {s : Shape} :
    s ∈ ofPartition p ↔ ∃ t ∈ layouts (large p), s = Shape.canonical (t ++ singles p) := by
  rw [ofPartition]
  split
  · -- no tuple is above one card: the only layout of nothing is the empty one
    rename_i hnil
    have hnil := List.isEmpty_iff.mp hnil
    have hdesc : (singles p).Descending := by
      refine List.pairwise_of_forall_mem_list fun a ha b hb => ?_
      rw [eq_one_of_mem_singles h a ha, eq_one_of_mem_singles h b hb]
      exact (Run.le_iff _ _).mp (Run.le_refl _)
    rw [List.mem_singleton, hnil]
    constructor
    · rintro rfl
      have hlayout : IsLayout [] [] := ⟨by simp, List.Perm.nil⟩
      obtain ⟨t, ht, hperm⟩ := hlayout.exists_mem_layouts
      refine ⟨t, ht, ?_⟩
      rw [List.perm_nil.mp hperm, List.nil_append, Shape.canonical_of_descending hdesc]
    · rintro ⟨t, ht, rfl⟩
      have hlayout := IsLayout.of_mem_layouts ht
      have ht : t = [] := eq_nil_of_flatten_eq_nil hlayout.nonempty (List.perm_nil.mp hlayout.values)
      rw [ht, List.nil_append, Shape.canonical_of_descending hdesc]
  · rw [withSingles, List.mem_map]
    simp only [eq_comm]

/-- A shape of the partition has the partition's tuples. -/
theorem flatten_perm_of_mem_ofPartition {s : Shape} (hs : s ∈ ofPartition p) : s.flatten.Perm p := by
  obtain ⟨t, ht, rfl⟩ := (mem_ofPartition h).mp hs
  refine (Shape.canonical_perm (t ++ singles p)).flatten.trans ?_
  rw [List.flatten_append]
  exact ((IsLayout.of_mem_layouts ht).values.append_right _).trans (.of_eq (large_append_singles p))

theorem isDecomposition_of_mem_ofPartition {s : Shape} (hs : s ∈ ofPartition p) : IsDecomposition n s := by
  have hflat := flatten_perm_of_mem_ofPartition h hs
  obtain ⟨t, ht, rfl⟩ := (mem_ofPartition h).mp hs
  obtain ⟨hne, hvalues⟩ := IsLayout.of_mem_layouts ht
  refine ⟨?_, ?_, Shape.canonical_descending _⟩
  · intro r hr
    rcases List.mem_append.mp ((Shape.canonical_perm _).mem_iff.mp hr) with hr | hr
    · refine ⟨hne r hr, Or.inr fun v hv => two_le_of_mem_large h v (hvalues.mem_iff.mp ?_)⟩
      exact List.mem_flatten.mpr ⟨r, hr, hv⟩
    · rw [eq_one_of_mem_singles h r hr]
      exact ⟨List.cons_ne_nil 1 [], Or.inl rfl⟩
  · rw [Shape.cards_eq_flatten, Run.cards_perm hflat, h.cards]

end

/-! ## How many larger tuples there are -/

/-- As many pairs as `n` cards give, and the card that is left over. -/
def pairs (n : Nat) : Run := List.replicate (n / 2) 2 ++ List.replicate (n % 2) 1

theorem isPartition_pairs (n : Nat) : IsPartition n (pairs n) := by
  refine ⟨?_, ?_, ?_⟩
  · refine List.pairwise_append.mpr ⟨?_, ?_, ?_⟩
    · exact List.pairwise_replicate.mpr (Or.inr (Int.le_refl 2))
    · exact List.pairwise_replicate.mpr (Or.inr (Int.le_refl 1))
    · intro x hx y hy
      rw [List.eq_of_mem_replicate hx, List.eq_of_mem_replicate hy]
      decide
  · intro v hv
    rcases List.mem_append.mp hv with hv | hv
    · have := List.eq_of_mem_replicate hv
      omega
    · have := List.eq_of_mem_replicate hv
      omega
  · rw [pairs, Run.cards_append, Run.cards_replicate, Run.cards_replicate]
    omega

theorem large_pairs (n : Nat) : large (pairs n) = List.replicate (n / 2) 2 := by
  rw [large_eq_filter (isPartition_pairs n), pairs, List.filter_append, List.filter_replicate_of_pos (by decide),
    List.filter_replicate_of_neg (by decide), List.append_nil]

/-- Each tuple above one card takes two of the `n` cards at least. -/
theorem length_large_le {n : Nat} {p : Run} (h : IsPartition n p) : (large p).length ≤ n / 2 := by
  have htwo := Run.mul_length_le_cards (two_le_of_mem_large h)
  have hnonneg : ∀ v ∈ (singles p).flatten, 0 ≤ v := by
    intro v hv
    obtain ⟨r, hr, hv⟩ := List.mem_flatten.mp hv
    rw [eq_one_of_mem_singles h r hr] at hv
    rw [List.mem_singleton.mp hv]
    decide
  have hrest := Run.mul_length_le_cards hnonneg
  have hsum := h.cards
  rw [← large_append_singles p, Run.cards_append] at hsum
  omega

def widest : List Run → Nat
  | [] => 0
  | p :: ps => max (large p).length (widest ps)

theorem widest_le {ps : List Run} {k : Nat} (h : ∀ p ∈ ps, (large p).length ≤ k) : widest ps ≤ k := by
  induction ps with
  | nil => exact Nat.zero_le k
  | cons p ps ih =>
    rw [List.forall_mem_cons] at h
    exact Nat.max_le.mpr ⟨h.1, ih h.2⟩

theorem length_large_le_widest {ps : List Run} {p : Run} (hp : p ∈ ps) : (large p).length ≤ widest ps := by
  induction ps with
  | nil => exact absurd hp List.not_mem_nil
  | cons q ps ih =>
    rcases List.mem_cons.mp hp with rfl | hp
    · exact Nat.le_max_left ..
    · exact Nat.le_trans (ih hp) (Nat.le_max_right ..)

theorem widest_partitions (n : Nat) : widest (partitions n) = n / 2 := by
  refine Nat.le_antisymm (widest_le fun p hp => length_large_le (mem_partitions.mp hp)) ?_
  have h := length_large_le_widest (mem_partitions.mpr (isPartition_pairs n))
  rwa [large_pairs, List.length_replicate] at h

end Decomposition

/-! ## Every legal shape is listed -/

namespace IsDecomposition

open Decomposition

theorem isPartition {n : Int} {s : Shape} (h : IsDecomposition n s) : IsPartition n (Run.sorted s.flatten) := by
  refine ⟨Run.sorted_descending _, ?_, ?_⟩
  · intro v hv
    obtain ⟨r, hr, hv⟩ := List.mem_flatten.mp ((Run.sorted_perm _).mem_iff.mp hv)
    exact (h.legal r hr).positive v hv
  · rw [Run.cards_perm (Run.sorted_perm _), ← Shape.cards_eq_flatten, h.cards]

/-- The larger tuples are in the runs other than `[1]`, and the single cards in these. -/
theorem filter_flatten {s : Shape} (h : ∀ r ∈ s, r.Legal) :
    s.flatten.filter (· != 1) = (s.filter (· != [1])).flatten ∧
      (s.flatten.filter (· == 1)).map ([·]) = s.filter (· == [1]) := by
  induction s with
  | nil => exact ⟨rfl, rfl⟩
  | cons r s ih =>
    rw [List.forall_mem_cons] at h
    obtain ⟨hlarge, hsingle⟩ := ih h.2
    rw [List.flatten_cons, List.filter_append, List.filter_append, List.map_append, hlarge, hsingle]
    by_cases hr : r = [1]
    · subst hr
      exact ⟨rfl, rfl⟩
    · have htwo := h.1.2.resolve_left hr
      have hall : r.filter (· != 1) = r := List.filter_eq_self.mpr fun v hv => by
        have := htwo v hv
        rw [bne_iff_ne]
        omega
      have hnone : r.filter (· == 1) = [] := List.filter_eq_nil_iff.mpr fun v hv => by
        have := htwo v hv
        rw [beq_iff_eq]
        omega
      rw [List.filter_cons_of_pos (by simpa using hr), List.filter_cons_of_neg (by simpa using hr), hall, hnone]
      exact ⟨rfl, rfl⟩

theorem isLayout {n : Int} {s : Shape} (h : IsDecomposition n s) :
    IsLayout (large (Run.sorted s.flatten)) (s.filter (· != [1])) := by
  refine ⟨fun r hr => (h.legal r (List.mem_filter.mp hr).1).1, ?_⟩
  rw [← (filter_flatten h.legal).1, large_eq_filter h.isPartition]
  exact (Run.sorted_perm _).symm.filter _

theorem singles_perm {n : Int} {s : Shape} (h : IsDecomposition n s) :
    (singles (Run.sorted s.flatten)).Perm (s.filter (· == [1])) := by
  rw [← (filter_flatten h.legal).2, singles_eq_filter h.isPartition]
  exact ((Run.sorted_perm _).filter _).map _

theorem exists_mem_listed {n : Nat} {s : Shape} (h : IsDecomposition n s) : s ∈ listed n := by
  obtain ⟨t, ht, hts⟩ := h.isLayout.exists_mem_layouts
  have hperm : (t ++ singles (Run.sorted s.flatten)).Perm s :=
    (hts.append h.singles_perm).trans (List.perm_append_comm.trans (List.filter_append_perm (· == [1]) s))
  refine List.mem_flatMap.mpr ⟨_, mem_partitions.mpr h.isPartition, (mem_ofPartition h.isPartition).mpr ⟨t, ht, ?_⟩⟩
  rw [Shape.canonical_eq_of_perm hperm, Shape.canonical_of_descending h.descending]

end IsDecomposition

theorem mem_listed {n : Nat} {s : Shape} : s ∈ Decomposition.listed n ↔ IsDecomposition n s := by
  constructor
  · intro h
    obtain ⟨p, hp, hs⟩ := List.mem_flatMap.mp h
    exact Decomposition.isDecomposition_of_mem_ofPartition (mem_partitions.mp hp) hs
  · exact IsDecomposition.exists_mem_listed

theorem mem_decompositions {n : Nat} {s : Shape} : s ∈ decompositions n ↔ IsDecomposition n s := by
  constructor
  · exact fun h => mem_listed.mp ((Shape.distinct_sublist _).subset h)
  · intro h
    obtain ⟨t, ht, hts⟩ := Shape.exists_mem_distinct (mem_listed.mpr h)
    have ht' := mem_listed.mp ((Shape.distinct_sublist _).subset ht)
    rw [← ht'.descending.eq_of_perm h.descending hts]
    exact ht

/-- The listing of `n` cards gives each legal canonical shape of `n` cards once, and so
    each legal shape up to the order of its runs. -/
theorem listDecompositions_exact (n : Int) (hn : 1 ≤ n) :
    ∃ shapes, listDecompositions n = .ok shapes ∧ shapes.Nodup ∧ (∀ s, s ∈ shapes ↔ IsDecomposition n s) ∧
      ∀ s : Shape, (∀ r ∈ s, r.Legal) → s.cards = n → ∃ t ∈ shapes, t.Perm s ∧ ∀ u ∈ shapes, u.Perm s → u = t := by
  have hmem : ∀ s, s ∈ decompositions n.toNat ↔ IsDecomposition n s := by
    intro s
    rw [mem_decompositions, Int.toNat_of_nonneg (by omega)]
  refine ⟨decompositions n.toNat, ?_, Shape.nodup_distinct _, hmem, ?_⟩
  · rw [listDecompositions, if_neg (by omega)]
  · intro s hlegal hcards
    have hperm := s.canonical_perm
    have hs : IsDecomposition n s.canonical := by
      refine ⟨fun r hr => hlegal r (hperm.mem_iff.mp hr), ?_, s.canonical_descending⟩
      rw [Shape.cards_eq_flatten, Run.cards_perm hperm.flatten, ← Shape.cards_eq_flatten, hcards]
    refine ⟨s.canonical, (hmem _).mpr hs, hperm, fun u hu hus => ?_⟩
    exact ((hmem u).mp hu).descending.eq_of_perm hs.descending (hus.trans hperm.symm)

/-- A tractor of two pairs beside a single card is one of the shapes of five cards. -/
theorem listDecompositions_exact_five :
    (1 : Int) ≤ 5 ∧ ∃ shapes, listDecompositions 5 = .ok shapes ∧ shapes.Nodup ∧ [[2, 2], [1]] ∈ shapes := by
  obtain ⟨shapes, hok, hnodup, hmem, -⟩ := listDecompositions_exact 5 (by decide)
  refine ⟨by decide, shapes, hok, hnodup, (hmem _).mpr ⟨?_, by decide, ?_⟩⟩
  · simp [Run.Legal]
  · unfold Shape.Descending
    decide

end Tractor
