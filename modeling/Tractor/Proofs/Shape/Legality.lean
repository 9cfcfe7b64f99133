/-
  Tractor.Proofs.Shape.Legality — what follows a legal lead is legal, takes as many cards
  and is another shape.

  A rung of a legal run is a decomposition of its cards, so the union of a state is one of
  all cards of the lead (`isDecomposition_union`).

  That several runs cannot come down and together make up the lead again is a count. No
  ladder shows more than its run, so if together they show the tuples of the lead, each
  shows the tuples of its run (`tuples_perm_of_union_eq`). Then there are as many runs as
  ladders, so each ladder shows one run, and it is a sorted one; so it shows the very run
  that it started from (`current_of_union_eq`). But a state of the descent has fewer
  refinements left than its start (`union_ne_of_mem_course`).
-/

import Mathlib.Algebra.BigOperators.Group.List.Basic
import Tractor.Proofs.Shape.Course

namespace Tractor

variable {lead : Shape} {state : List Ladder}

/-! ## The union of a state -/

theorem cards_union (h : List.Forall₂ (fun r l => Shape.cards l.current = r.cards) lead state) :
    (Ladder.union state).cards = lead.cards := by
  rw [Ladder.union, Shape.cards_perm (Shape.canonical_perm _)]
  induction h with
  | nil => rfl
  | cons hrl _ ih => rw [List.flatMap_cons, Shape.cards_append, Shape.cards_cons, hrl, ih]

theorem isDecomposition_union (hlegal : ∀ r ∈ lead, r.Legal) (h : List.Forall₂ Ladder.OnWay lead state) :
    IsDecomposition lead.cards (Ladder.union state) := by
  have hdec : List.Forall₂ (fun r l => IsDecomposition r.cards l.current) lead state :=
    ((List.forall₂_and_left lead state).mpr ⟨hlegal, h⟩).imp fun r l ⟨hr, hl⟩ =>
      Run.isDecomposition_of_mem_rungs hr hl.current_mem
  refine ⟨?_, cards_union (hdec.imp fun _ _ h => h.cards), Shape.canonical_descending _⟩
  intro t ht
  obtain ⟨l, hl, ht⟩ := List.mem_flatMap.mp ((Shape.canonical_perm _).mem_iff.mp ht)
  obtain ⟨r, -, hrl⟩ := exists_of_mem_forall₂ hdec hl
  exact hrl.legal t ht

/-! ## Never the lead again -/

section

variable (h : List.Forall₂ Ladder.OnWay lead state)
  (heq : Ladder.union state = Shape.canonical (lead.map Run.sorted))
include h heq

theorem tuples_perm_of_union_eq : List.Forall₂ (fun r l => l.current.flatten.Perm r) lead state := by
  have hle : List.Forall₂ (fun a b => List.le a.sorted b.sorted) (Ladder.tuples state) lead := by
    refine List.forall₂_map_left_iff.mpr (List.Forall₂.flip (h.imp fun r l hrl => ?_))
    exact Run.profile_le_of_mem_rungs hrl.current_mem
  have hperm : (Ladder.tuples state).flatten.Perm lead.flatten := by
    refine (Ladder.flatten_union_perm state).symm.trans ?_
    rw [heq]
    exact (Shape.canonical_perm _).flatten.trans (flatten_map_sorted_perm lead)
  exact (List.forall₂_map_left_iff.mp (Run.forall₂_perm_of_flatten_perm hle hperm)).flip

/-- There is a run for each ladder, and no ladder shows none. -/
theorem length_current_of_union_eq (hne : ∀ r ∈ lead, r ≠ []) : ∀ l ∈ state, l.current.length = 1 := by
  have htuples := tuples_perm_of_union_eq h heq
  have hpos : ∀ l ∈ state, 1 ≤ l.current.length := by
    intro l hl
    obtain ⟨r, hr, hperm⟩ := exists_of_mem_forall₂ htuples hl
    apply List.length_pos_iff.mpr
    intro hnil
    rw [hnil] at hperm
    exact hne r hr (List.nil_perm.mp hperm)
  have hsum : (state.map fun l => l.current.length).sum = state.length := by
    have hlen := (Shape.canonical_eq_iff.mp heq).length_eq
    rwa [List.length_flatMap, List.length_map, h.length_eq] at hlen
  clear htuples h heq
  induction state with
  | nil => simp
  | cons l state ih =>
    rw [List.forall_mem_cons] at hpos ⊢
    rw [List.map_cons, List.sum_cons, List.length_cons] at hsum
    have hrest := List.length_le_sum_of_one_le (state.map fun l => l.current.length) (List.forall_mem_map.mpr hpos.2)
    rw [List.length_map] at hrest
    exact ⟨by omega, ih hpos.2 (by omega)⟩

theorem current_of_union_eq (hne : ∀ r ∈ lead, r ≠ []) :
    List.Forall₂ (fun r l => l.current = [r.sorted]) lead state := by
  have hsorted : ∀ l ∈ state, ∃ t : Run, l.current = [t] ∧ t.Descending := by
    intro l hl
    obtain ⟨t, ht⟩ := List.length_eq_one_iff.mp (length_current_of_union_eq h heq hne l hl)
    have hmem : t ∈ state.flatMap Ladder.current := List.mem_flatMap.mpr ⟨l, hl, by simp [ht]⟩
    obtain ⟨r, -, rfl⟩ := List.mem_map.mp ((Shape.canonical_eq_iff.mp heq).mem_iff.mp hmem)
    exact ⟨_, ht, r.sorted_descending⟩
  refine (forall₂_and_right (tuples_perm_of_union_eq h heq) hsorted).imp ?_
  rintro r l ⟨hperm, t, ht, hdesc⟩
  rw [ht, List.flatten_singleton] at hperm
  rw [ht, hdesc.eq_of_perm r.sorted_descending (hperm.trans r.sorted_perm.symm)]

end

theorem union_ne_of_mem_course (hne : ∀ r ∈ lead, r ≠ []) (hs : state ∈ course lead) :
    Ladder.union state ≠ Shape.canonical (lead.map Run.sorted) := by
  intro heq
  have h := onWay_of_mem_course hs
  have hrest : List.Forall₂ (fun r l => l.rest.length = r.refinements.length) lead state :=
    (h.mp (fun _ _ hrl hc => congrArg List.length (hrl.rest_of_current hc)) (current_of_union_eq h heq hne))
  have hleft : Ladder.left state = Ladder.left (ladders lead) := by
    rw [Ladder.left_eq_sum, Ladder.left_eq_sum, counts_ladders]
    exact congrArg List.sum (map_eq_map_of_forall₂ (hrest.imp fun _ _ h => h.symm)).symm
  exact Nat.ne_of_lt (left_lt_of_mem_course hs) hleft

/-! ## What follows a legal lead -/

/-- What follows a legal lead of `n` cards are shapes of `n` cards, none of them the lead. -/
theorem follows_legal_and_new (lead : Shape) (newAdjacency : Bool) (h : ∀ r ∈ lead, r.Legal) (hn : 1 ≤ lead.cards) :
    ∃ shapes all, listFollows lead newAdjacency = .ok shapes ∧ listDecompositions lead.cards = .ok all ∧
      ∀ s ∈ shapes, s ∈ all ∧ IsDecomposition lead.cards s ∧ s ≠ Shape.canonical (lead.map Run.sorted) := by
  have hlead : lead.IsLead := ⟨fun r hr => (h r hr).1, fun r hr => (h r hr).positive⟩
  refine ⟨_, decompositions lead.cards.toNat, listFollows_eq hlead newAdjacency, ?_, ?_⟩
  · rw [listDecompositions, if_neg (by omega)]
  · intro s hs
    rw [follows_eq] at hs
    obtain ⟨state, hstate, rfl⟩ := List.mem_map.mp hs
    have hstate := (List.mem_filter.mp hstate).1
    have hdec := isDecomposition_union h (onWay_of_mem_course hstate)
    refine ⟨mem_decompositions.mpr ?_, hdec, union_ne_of_mem_course hlead.nonempty hstate⟩
    rwa [Int.toNat_of_nonneg (by omega)]

/-- A tractor of two pairs, a triple and a single card: no follow of these eight cards is the lead again. -/
theorem follows_legal_and_new_tractor :
    (∀ r ∈ ([[2, 2], [3], [1]] : Shape), r.Legal) ∧ 1 ≤ Shape.cards [[2, 2], [3], [1]] ∧
      ∃ shapes all, listFollows [[2, 2], [3], [1]] false = .ok shapes ∧ listDecompositions 8 = .ok all ∧
        ∀ s ∈ shapes, s ∈ all ∧ IsDecomposition 8 s ∧ s ≠ [[3], [2, 2], [1]] := by
  have hlegal : ∀ r ∈ ([[2, 2], [3], [1]] : Shape), r.Legal := by simp [Run.Legal]
  have hcards : 1 ≤ Shape.cards [[2, 2], [3], [1]] := by decide
  have hlead : Shape.canonical (List.map Run.sorted [[2, 2], [3], [1]]) = [[3], [2, 2], [1]] := by
    have hpairs : Run.sorted [2, 2] = [2, 2] := Run.sorted_of_descending (by decide)
    rw [List.map_cons, List.map_cons, List.map_singleton, hpairs, Run.sorted_singleton, Run.sorted_singleton]
    exact Shape.canonical_eq (by decide) (by decide)
  exact ⟨hlegal, hcards, hlead ▸ follows_legal_and_new [[2, 2], [3], [1]] false hlegal hcards⟩

end Tractor
