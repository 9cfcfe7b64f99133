/-
  Tractor.Proofs.Shape.Reordering — when the order of the runs of a lead does not matter.

  Of ladders with equally many refinements left the one that stands first is moved, and
  where they differ it matters which that is. But if at the start only equal ladders tie
  (`eq_of_untied`), the lead in another order puts the same ladders into the same order, so
  the two descents go in step from the first step on (`inStep_of_untied`). What ties later
  came down from above and stands where it was put by the steps before, which are the same
  in both.

  - `Shape.Untied`: runs with equally many refinements, if they have any, have the same
    tuples.
  - `follows_of_reordered_lead`: then the runs, and the tuples in each, may be led in any
    order.
-/

import Tractor.Proofs.Shape.Lockstep
import Tractor.Proofs.Shape.OneRun

namespace Tractor

/-- Runs with different tuples have different numbers of refinements, unless they have
    none. -/
def Shape.Untied (lead : Shape) : Prop :=
  ∀ r ∈ lead, ∀ t ∈ lead, r.sorted ≠ t.sorted → r.refinements.length = t.refinements.length →
    r.refinements.length = 0

/-- The ladder of a run does not depend on the order of its tuples. -/
theorem Ladder.start_sorted (r : Run) :
    start r.sorted (decompositions r.sorted.cards.toNat) = start r (decompositions r.cards.toNat) := by
  unfold start
  rw [Run.sorted_sorted, Run.cards_perm r.sorted_perm, r.sorted_perm.length_eq]

theorem ladders_eq_map_sorted (lead : Shape) :
    ladders lead = (lead.map Run.sorted).map fun r => Ladder.start r (decompositions r.cards.toNat) := by
  unfold ladders
  rw [List.map_map]
  refine List.map_congr_left ?_
  intro r _
  exact (Ladder.start_sorted r).symm

/-- Only equal ladders of an untied lead tie. -/
theorem eq_of_untied {lead : Shape} (h : lead.Untied) {k l : Ladder} (hk : k ∈ ladders lead) (hl : l ∈ ladders lead)
    (hne : k.rest ≠ []) (hlen : k.rest.length = l.rest.length) : k = l := by
  obtain ⟨r, hr, rfl⟩ := List.mem_map.mp hk
  obtain ⟨t, ht, rfl⟩ := List.mem_map.mp hl
  simp only [rest_start] at hne hlen
  have hsorted : r.sorted = t.sorted := by
    by_contra hdiff
    exact hne (List.eq_nil_of_length_eq_zero (h r hr t ht hdiff hlen))
  rw [← Ladder.start_sorted r, hsorted, Ladder.start_sorted t]

section

variable {lead other : Shape} (hperm : (other.map Run.sorted).Perm (lead.map Run.sorted))
include hperm

theorem ladders_perm : (ladders other).Perm (ladders lead) := by
  rw [ladders_eq_map_sorted other, ladders_eq_map_sorted lead]
  exact hperm.map _

theorem Shape.IsLead.of_reordered (h : lead.IsLead) : other.IsLead := by
  have hrun : ∀ r ∈ other, ∃ t ∈ lead, t.Perm r := by
    intro r hr
    obtain ⟨t, ht, hsorted⟩ := List.mem_map.mp (hperm.mem_iff.mp (List.mem_map_of_mem hr))
    exact ⟨t, ht, Run.sorted_eq_iff.mp hsorted⟩
  refine ⟨?_, ?_⟩
  · intro r hr hnil
    obtain ⟨t, ht, htr⟩ := hrun r hr
    subst hnil
    exact h.nonempty t ht (List.perm_nil.mp htr)
  · intro r hr v hv
    obtain ⟨t, ht, htr⟩ := hrun r hr
    exact h.positive t ht v (htr.mem_iff.mpr hv)

/-- So there is one order only in which a step may take them. -/
theorem inStep_of_untied (h : lead.Untied) : Ladder.InStep [] (ladders lead) (ladders other) := by
  have hladders := (ladders_perm hperm).symm
  refine ⟨?_, by simpa using hladders.symm⟩
  have hordered : (Ladder.ordered ((ladders lead).filter Ladder.awake)).Perm
      (Ladder.ordered ((ladders other).filter Ladder.awake)) :=
    (Ladder.ordered_perm _).trans ((hladders.filter _).trans (Ladder.ordered_perm _).symm)
  refine hordered.eq_of_pairwise ?_ (Ladder.ordered_descending _) (Ladder.ordered_descending _)
  intro k l hk hl hkl hlk
  obtain ⟨hk, hawake⟩ := List.mem_filter.mp ((Ladder.ordered_perm _).mem_iff.mp hk)
  obtain ⟨hl, -⟩ := List.mem_filter.mp ((Ladder.ordered_perm _).mem_iff.mp hl)
  exact eq_of_untied h hk (hladders.mem_iff.mpr hl) (Ladder.awake_iff.mp hawake) (Nat.le_antisymm hlk hkl)

theorem follows_eq_of_untied (h : lead.Untied) (newAdjacency : Bool) :
    follows other newAdjacency = follows lead newAdjacency := by
  have hnone : Ladder.admissible newAdjacency [] = true := by simp [Ladder.admissible]
  refine (Ladder.emissions_of_inStep hnone (inStep_of_untied hperm h)).trans ?_
  apply map_eq_self
  intro s hs
  rw [List.flatMap_nil, List.append_nil, canonical_of_mem_follows hs]

end

/-- If different runs of a lead have different numbers of refinements, unless they have
    none, then the same follows when its runs and the tuples in them stand in another order. -/
theorem follows_of_reordered_lead (lead other : Shape) (newAdjacency : Bool) (hlead : lead.IsLead)
    (hperm : (other.map Run.sorted).Perm (lead.map Run.sorted)) (h : lead.Untied) :
    ∃ shapes, listFollows lead newAdjacency = .ok shapes ∧ listFollows other newAdjacency = .ok shapes := by
  refine ⟨follows lead newAdjacency, listFollows_eq hlead newAdjacency, ?_⟩
  rw [listFollows_eq (hlead.of_reordered hperm), follows_eq_of_untied hperm h]

/-- Single tuples of different sizes never tie, and a stuck run has nothing to tie with. -/
theorem untied_of_tuples {lead : Shape} (hlead : lead.IsLead) (h : ∀ r ∈ lead, r.length = 1 ∨ r.Stuck) :
    lead.Untied := by
  intro r hr t ht hdiff hlen
  rcases h r hr with hr1 | hstuck
  · rcases h t ht with ht1 | hstuck
    · obtain ⟨v, rfl⟩ := List.length_eq_one_iff.mp hr1
      obtain ⟨w, rfl⟩ := List.length_eq_one_iff.mp ht1
      have hv := hlead.positive _ hr v List.mem_cons_self
      have hw := hlead.positive _ ht w List.mem_cons_self
      rw [tuple_eq_of_length_refinements hv hw hlen] at hdiff
      exact absurd rfl hdiff
    · rw [hlen, (Run.refinements_eq_nil_iff (hlead.playable ht)).mpr hstuck, List.length_nil]
  · rw [(Run.refinements_eq_nil_iff (hlead.playable hr)).mpr hstuck, List.length_nil]

/-- Two triples, which come down to where a pair starts, the pair, and a mixed run. -/
theorem follows_of_reordered_lead_triples :
    Shape.IsLead [[3], [2], [1, 2], [3]] ∧ Shape.Untied [[3], [2], [1, 2], [3]] ∧
      ∃ shapes, listFollows [[3], [2], [1, 2], [3]] true = .ok shapes ∧
        listFollows [[2], [3], [3], [2, 1]] true = .ok shapes := by
  have hlead : Shape.IsLead [[3], [2], [1, 2], [3]] := by decide
  have huntied : Shape.Untied [[3], [2], [1, 2], [3]] := untied_of_tuples hlead (by decide)
  have hmixed : Run.sorted [2, 1] = Run.sorted [1, 2] := Run.sorted_eq_iff.mpr (by decide)
  have hperm : (List.map Run.sorted [[2], [3], [3], [2, 1]]).Perm (List.map Run.sorted [[3], [2], [1, 2], [3]]) := by
    have hruns : (List.map Run.sorted [[2], [3], [3], [2, 1]]) = List.map Run.sorted [[2], [3], [3], [1, 2]] := by
      simp [hmixed]
    rw [hruns]
    refine List.Perm.map _ ?_
    decide
  exact ⟨hlead, huntied, follows_of_reordered_lead _ _ true hlead hperm huntied⟩

end Tractor
