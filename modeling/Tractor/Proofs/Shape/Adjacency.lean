/-
  Tractor.Proofs.Shape.Adjacency — what changes when new adjacency is not allowed.

  The descent is the same either way; only what is emitted differs. Without new adjacency
  a state is passed over when some run that was led as a single tuple now has a run of
  several tuples (`hasNewAdjacency`, `admissible_of_mem_course`).

  A run of several tuples takes four cards at least (`length_le_one_of_lt_four`), so a
  single tuple of up to three cards never comes to one. A single tuple of `v` cards, four
  or more, comes to `[[v - 2, 2]]`, which demands less than it does and is therefore one
  of its refinements (`mem_refinements_of_four_le`), and each refinement is reached. So
  the two lists are the same exactly when no single tuple has four cards or more
  (`follows_without_new_adjacency`).
-/

import Tractor.Proofs.Shape.Course

namespace Tractor

/-- Some run led as a single tuple now has a run of several tuples; the ladders stand in
    the order of the lead. -/
def hasNewAdjacency (lead : Shape) (state : List Ladder) : Bool :=
  (lead.zip state).any fun (r, l) => decide (r.length = 1) && l.current.any fun t => decide (1 < t.length)

theorem blocked_eq {lead : Shape} {state : List Ladder} (h : List.Forall₂ Ladder.OnWay lead state) :
    Ladder.blocked state = hasNewAdjacency lead state := by
  unfold Ladder.blocked hasNewAdjacency
  induction h with
  | nil => rfl
  | cons hrl _ ih => rw [List.zip_cons_cons, List.any_cons, List.any_cons, ih, hrl.single]

theorem admissible_of_mem_course {lead : Shape} {state : List Ladder} (h : lead.IsLead) (newAdjacency : Bool)
    (hs : state ∈ course lead) :
    Ladder.admissible newAdjacency state = (newAdjacency || !hasNewAdjacency lead state) := by
  have hfilled := Ladder.filled_of_mem_walk (filled_of_mem_ladders h.nonempty) hs
  rw [Ladder.admissible_of_filled newAdjacency hfilled, blocked_eq (onWay_of_mem_course hs)]

/-! ## Which single tuples come to a run of several -/

/-- Fewer than four cards make no run of several tuples. -/
theorem length_le_one_of_lt_four {v : Int} {s : Shape} (hv : v < 4) (h : IsDecomposition v s) {t : Run} (ht : t ∈ s) :
    t.length ≤ 1 := by
  have hcards := Shape.cards_le_of_mem (fun r hr => (h.legal r hr).cards_nonneg) ht
  rw [h.cards] at hcards
  rcases (h.legal t ht).2 with rfl | htwo
  · simp
  · have := Run.mul_length_le_cards htwo
    omega

theorem mem_refinements_of_four_le {v : Int} (hv : 4 ≤ v) : [[v - 2, 2]] ∈ Run.refinements [v] := by
  have hlegal : Run.Legal [v] := ⟨by simp, Or.inr fun u hu => by rw [List.mem_singleton.mp hu]; omega⟩
  have hdesc : Run.Descending [v - 2, 2] := by simp [Run.Descending]; omega
  apply Run.mem_refinements_of_lt hlegal
  · refine ⟨?_, ?_, List.pairwise_singleton _ _⟩
    · intro r hr
      rw [List.mem_singleton.mp hr]
      exact ⟨by simp, Or.inr (by simp; omega)⟩
    · simp [Shape.cards, Run.cards]
  · rw [Shape.profile_singleton, Run.sorted_of_descending hdesc, Run.sorted_singleton]
    exact List.Lex.rel (by omega)

theorem not_hasNewAdjacency {lead : Shape} {state : List Ladder} (h : lead.IsLead)
    (hsmall : ∀ v, [v] ∈ lead → v < 4) (hs : state ∈ course lead) : hasNewAdjacency lead state = false := by
  apply List.any_eq_false.mpr
  rintro ⟨r, l⟩ hrl hnew
  simp only [Bool.and_eq_true, decide_eq_true_eq, List.any_eq_true] at hnew
  obtain ⟨hlen, t, ht, hseveral⟩ := hnew
  have hr := (List.of_mem_zip hrl).1
  have hway := List.forall₂_zip (onWay_of_mem_course hs) hrl
  have hlegal := (h.playable hr).legal (Run.not_mixed_of_length_eq_one hlen)
  obtain ⟨v, rfl⟩ := List.length_eq_one_iff.mp hlen
  have hv : Run.cards [v] < 4 := by
    have := hsmall v hr
    simpa [Run.cards] using this
  have := length_le_one_of_lt_four hv (Run.isDecomposition_of_mem_rungs hlegal hway.current_mem) ht
  omega

theorem exists_not_admissible {lead : Shape} {v : Int} (hr : [v] ∈ lead) (hv : 4 ≤ v) :
    ∃ state ∈ course lead, Ladder.admissible false state = false := by
  obtain ⟨state, hstate, l, hl, hcurrent, hsingle⟩ := exists_mem_course hr (mem_refinements_of_four_le hv)
  refine ⟨state, hstate, ?_⟩
  rw [Ladder.admissible, Bool.false_or]
  apply List.all_eq_false.mpr
  exact ⟨l, hl, by simp [hcurrent, hsingle]⟩

/-! ## Both lists -/

theorem follows_free (lead : Shape) : follows lead true = (course lead).map Ladder.union := by
  have hall : ∀ state ∈ course lead, Ladder.admissible true state = true := fun _ _ => rfl
  rw [follows_eq, List.filter_eq_self.mpr hall]

theorem follows_strict {lead : Shape} (h : lead.IsLead) :
    follows lead false = ((course lead).filter fun state => !hasNewAdjacency lead state).map Ladder.union := by
  rw [follows_eq, List.filter_congr fun state hs => admissible_of_mem_course h false hs]
  rfl

theorem follows_strict_eq_free_iff {lead : Shape} (h : lead.IsLead) :
    follows lead false = follows lead true ↔ ∀ v, [v] ∈ lead → v < 4 := by
  constructor
  · intro heq v hv
    by_contra hfour
    obtain ⟨state, hstate, hnot⟩ := exists_not_admissible hv (by omega)
    -- the state is left out, so the lists differ in length
    rw [follows_free, follows_eq] at heq
    have hlen := congrArg List.length heq
    rw [List.length_map, List.length_map, List.length_filter_eq_length_iff] at hlen
    have := hlen state hstate
    simp [hnot] at this
  · intro hsmall
    rw [follows_free, follows_strict h, List.filter_eq_self.mpr]
    intro state hs
    simp [not_hasNewAdjacency h hsmall hs]

/-- With new adjacency every state of the course is shown, without it those in which no run
    led as a single tuple has a run of several; and the two lists are the same exactly when
    no run is a single tuple of four cards or more. -/
theorem follows_without_new_adjacency (lead : Shape) (h : lead.IsLead) :
    ∃ free strict, listFollows lead true = .ok free ∧ listFollows lead false = .ok strict ∧
      (List.Forall₂ List.Perm (Ladder.descent (ladders lead)) (course lead) ∧
        ∀ state ∈ course lead, List.Forall₂ Ladder.OnWay lead state) ∧
      free = (course lead).map Ladder.union ∧
      strict = ((course lead).filter fun state => !hasNewAdjacency lead state).map Ladder.union ∧
      strict.Sublist free ∧ (strict = free ↔ ∀ v, [v] ∈ lead → v < 4) := by
  refine ⟨_, _, listFollows_eq h true, listFollows_eq h false, ⟨course_perm lead, fun _ => onWay_of_mem_course⟩,
    follows_free lead, follows_strict h, ?_, follows_strict_eq_free_iff h⟩
  rw [follows_free, follows_strict h]
  exact List.filter_sublist.map _

/-- A single tuple of four cards comes to two pairs at adjacent ranks, which are passed over. -/
theorem follows_without_new_adjacency_four :
    Shape.IsLead [[4]] ∧ ∃ free strict, listFollows [[4]] true = .ok free ∧ listFollows [[4]] false = .ok strict ∧
      strict.Sublist free ∧ strict ≠ free := by
  have hlead : Shape.IsLead [[4]] := by decide
  obtain ⟨free, strict, hfree, hstrict, -, -, -, hsub, hiff⟩ := follows_without_new_adjacency [[4]] hlead
  refine ⟨hlead, free, strict, hfree, hstrict, hsub, fun heq => ?_⟩
  exact absurd (hiff.mp heq 4 List.mem_cons_self) (by decide)

end Tractor
