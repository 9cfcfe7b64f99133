/-
  Tractor.Proofs.Shape.Bottom — where a descent ends.

  A mixed run has no refinement, and every other run comes down to single cards. So the
  bottom of a lead is its mixed runs, sorted, and all other cards as single cards
  (`Shape.bottom`). A state of the descent shows the bottom exactly when it has no
  refinement left (`left_eq_zero_iff_union_eq`): a ladder that shows the tuples of the
  bottom of its run stands on its last rung. That state may always be played
  (`admissible_of_left_eq_zero`), for a run that was led as a single tuple is not mixed.

  `follows_end_at_bottom`: there is nothing to follow exactly when every run is stuck, and
  otherwise the last follow is the bottom, which is no follow before. It consists of single
  cards exactly when no run is mixed.
-/

import Tractor.Proofs.Shape.Course

namespace Tractor

namespace Shape

def bottom (lead : Shape) : Shape :=
  canonical ((lead.filter fun r => decide r.Mixed).map Run.sorted ++
    List.replicate (cards (lead.filter fun r => !decide r.Mixed)).toNat [1])

theorem flatMap_bottom_perm {lead : Shape} (h : ∀ r ∈ lead, 0 ≤ r.cards) :
    (lead.flatMap Run.bottom).Perm ((lead.filter fun r => decide r.Mixed).map Run.sorted ++
      List.replicate (cards (lead.filter fun r => !decide r.Mixed)).toNat [1]) := by
  induction lead with
  | nil => rfl
  | cons r lead ih =>
    rw [List.forall_mem_cons] at h
    rw [List.flatMap_cons, Run.bottom]
    by_cases hr : r.Mixed
    · simpa [hr] using ih h.2
    · have hrest : 0 ≤ cards (lead.filter fun r => !decide r.Mixed) :=
        cards_nonneg fun t ht => h.2 t (List.mem_filter.mp ht).1
      simp only [hr, if_false, decide_false, Bool.false_eq_true, not_false_eq_true, List.filter_cons_of_neg,
        Bool.not_false, List.filter_cons_of_pos, cards_cons]
      rw [Int.toNat_add h.1 hrest, List.replicate_add]
      exact ((ih h.2).append_left _).trans (List.perm_append_comm_assoc _ _ _)

namespace IsLead

variable {lead : Shape} (h : lead.IsLead)
include h

theorem bottom_eq : lead.bottom = canonical (lead.flatMap Run.bottom) := by
  refine canonical_eq_of_perm (flatMap_bottom_perm fun r hr => ?_).symm
  have := h.one_le_cards hr
  omega

theorem mem_bottom {t : Run} : t ∈ lead.bottom ↔ ∃ r ∈ lead, t ∈ r.bottom := by
  rw [h.bottom_eq, (canonical_perm _).mem_iff, List.mem_flatMap]

theorem bottom_single_cards_iff : (∀ t ∈ lead.bottom, t = [1]) ↔ ∀ r ∈ lead, ¬ r.Mixed := by
  constructor
  · intro hone r hr hmixed
    have hmem : r.sorted ∈ lead.bottom := h.mem_bottom.mpr ⟨r, hr, by simp [Run.bottom, hmixed]⟩
    have hr1 := Run.sorted_eq_singleton_iff.mp (hone _ hmem)
    simp [hr1, Run.Mixed] at hmixed
  · intro hmixed t ht
    obtain ⟨r, hr, ht⟩ := h.mem_bottom.mp ht
    rw [Run.bottom, if_neg (hmixed r hr)] at ht
    exact List.eq_of_mem_replicate ht

theorem bottom_ones_iff : (∀ v ∈ lead.bottom.flatten, v = 1) ↔ ∀ r ∈ lead, 1 ∈ r → ∀ v ∈ r, v = 1 := by
  simp only [List.mem_flatten, h.mem_bottom]
  constructor
  · intro hone r hr h1 v hv
    by_cases hmixed : r.Mixed
    · exact hone v ⟨r.sorted, ⟨r, hr, by simp [Run.bottom, hmixed]⟩, r.sorted_perm.mem_iff.mpr hv⟩
    · rw [Run.eq_single_of_not_mixed hmixed h1] at hv
      exact List.mem_singleton.mp hv
  · rintro hones v ⟨t, ⟨r, hr, ht⟩, hv⟩
    by_cases hmixed : r.Mixed
    · rw [Run.bottom, if_pos hmixed, List.mem_singleton] at ht
      rw [ht, r.sorted_perm.mem_iff] at hv
      exact hones r hr hmixed.2 v hv
    · rw [Run.bottom, if_neg hmixed] at ht
      rw [List.eq_of_mem_replicate ht] at hv
      exact List.mem_singleton.mp hv

end IsLead

end Shape

/-! ## The last state -/

section

variable {lead : Shape} {state : List Ladder} (h : lead.IsLead) (hway : List.Forall₂ Ladder.OnWay lead state)
include h hway

theorem playable_onWay : List.Forall₂ (fun r l => r.Playable ∧ Ladder.OnWay r l) lead state :=
  (List.forall₂_and_left lead state).mpr ⟨fun _ hr => h.playable hr, hway⟩

theorem current_of_left_eq_zero (hz : Ladder.left state = 0) :
    List.Forall₂ (fun r l => Ladder.OnWay r l ∧ l.current = r.bottom) lead state := by
  refine (forall₂_and_right (playable_onWay h hway) (Ladder.left_eq_zero_iff.mp hz)).imp ?_
  rintro r l ⟨⟨hr, hrl⟩, hl⟩
  exact ⟨hrl, (Run.eq_nil_iff_of_suffix hr hrl.rungs).mp hl⟩

theorem current_of_union_eq_bottom (heq : Ladder.union state = lead.bottom) :
    List.Forall₂ (fun r l => l.current = r.bottom) lead state := by
  let bottoms : List Run := lead.map fun r => r.bottom.flatten
  have hle : List.Forall₂ (fun a b => List.le (Run.sorted a) (Run.sorted b)) bottoms (Ladder.tuples state) := by
    refine List.forall₂_map_left_iff.mpr (List.forall₂_map_right_iff.mpr ((playable_onWay h hway).imp ?_))
    rintro r l ⟨hr, hrl⟩
    exact Run.bottom_le_of_mem_rungs hr hrl.current_mem
  have hperm : bottoms.flatten.Perm (Ladder.tuples state).flatten := by
    refine List.Perm.trans ?_ (Ladder.flatten_union_perm state)
    rw [heq, h.bottom_eq]
    refine List.Perm.trans (.of_eq ?_) (Shape.canonical_perm _).flatten.symm
    simp [bottoms, List.flatMap_def, List.flatten_flatten, Function.comp_def]
  have htuples := List.forall₂_map_left_iff.mp (List.forall₂_map_right_iff.mp (Run.forall₂_perm_of_flatten_perm hle hperm))
  refine (playable_onWay h hway).mp ?_ htuples
  rintro r l ⟨hr, hrl⟩ hp
  exact Run.eq_bottom_of_flatten_perm hr hrl.current_mem hp.symm

theorem left_eq_zero_iff_union_eq : Ladder.left state = 0 ↔ Ladder.union state = lead.bottom := by
  constructor
  · intro hz
    have hcurrent := (current_of_left_eq_zero h hway hz).imp fun _ _ h => h.2.symm
    rw [Ladder.union, h.bottom_eq, List.flatMap_def, List.flatMap_def, map_eq_map_of_forall₂ hcurrent]
  · intro heq
    apply Ladder.left_eq_zero_iff.mpr
    intro l hl
    have hboth := (playable_onWay h hway).mp (fun _ _ h hc => And.intro h hc) (current_of_union_eq_bottom h hway heq)
    obtain ⟨r, -, ⟨hr, hrl⟩, hc⟩ := exists_of_mem_forall₂ hboth hl
    exact (Run.eq_nil_iff_of_suffix hr hrl.rungs).mpr hc

/-- A run that was led as a single tuple has come down to single cards. -/
theorem admissible_of_left_eq_zero (newAdjacency : Bool) (hz : Ladder.left state = 0) :
    Ladder.admissible newAdjacency state = true := by
  rw [Ladder.admissible, Bool.or_eq_true, List.all_eq_true]
  right
  intro l hl
  obtain ⟨r, -, hrl, hcurrent⟩ := exists_of_mem_forall₂ (current_of_left_eq_zero h hway hz) hl
  rw [hrl.single, hcurrent]
  by_cases hlen : r.length = 1
  · simp [Run.bottom, Run.not_mixed_of_length_eq_one hlen]
  · simp [hlen]

end

/-! ## What follows -/

section

variable {lead : Shape} (h : lead.IsLead)
include h

theorem course_eq_nil_iff : course lead = [] ↔ ∀ r ∈ lead, r.Stuck := by
  have hleft : course lead = [] ↔ Ladder.left (ladders lead) = 0 := by
    rw [← List.map_eq_nil_iff (f := Ladder.left), left_course, List.reverse_eq_nil_iff, List.range_eq_nil]
  rw [hleft, Ladder.left_eq_zero_iff, ladders, List.forall_mem_map]
  refine forall₂_congr fun r hr => ?_
  rw [rest_start, Run.refinements_eq_nil_iff (h.playable hr)]

theorem follows_eq_concat (newAdjacency : Bool) (hne : course lead ≠ []) :
    ∃ before, follows lead newAdjacency = before ++ [lead.bottom] ∧ lead.bottom ∉ before := by
  obtain ⟨before, last, hsplit, hlast, hbefore⟩ := course_eq_concat hne
  have hway : ∀ state ∈ before ++ [last], List.Forall₂ Ladder.OnWay lead state :=
    fun state hs => onWay_of_mem_course (hsplit ▸ hs)
  rw [List.forall_mem_append, List.forall_mem_singleton] at hway
  refine ⟨(before.filter (Ladder.admissible newAdjacency)).map Ladder.union, ?_, fun hmem => ?_⟩
  · rw [follows_eq, hsplit, List.filter_append, List.map_append,
      List.filter_cons_of_pos (admissible_of_left_eq_zero h hway.2 newAdjacency hlast), List.filter_nil,
      List.map_singleton, (left_eq_zero_iff_union_eq h hway.2).mp hlast]
  · obtain ⟨state, hstate, heq⟩ := List.mem_map.mp hmem
    have hstate := (List.mem_filter.mp hstate).1
    exact hbefore state hstate ((left_eq_zero_iff_union_eq h (hway.1 state hstate)).mpr heq)

end

/-- Nothing follows exactly when every run is stuck. Otherwise the last follow is the
    bottom of the lead, and no other follow is. Its runs are single cards exactly when no
    run of the lead is mixed; its tuples are single cards exactly when no run of the lead
    holds a single card beside a larger tuple. -/
theorem follows_end_at_bottom (lead : Shape) (newAdjacency : Bool) (h : lead.IsLead) :
    ∃ shapes, listFollows lead newAdjacency = .ok shapes ∧ (shapes = [] ↔ ∀ r ∈ lead, r.Stuck) ∧
      (shapes ≠ [] → ∃ before, shapes = before ++ [lead.bottom] ∧ lead.bottom ∉ before) ∧
      ((∀ t ∈ lead.bottom, t = [1]) ↔ ∀ r ∈ lead, ¬ r.Mixed) ∧
      ((∀ v ∈ lead.bottom.flatten, v = 1) ↔ ∀ r ∈ lead, 1 ∈ r → ∀ v ∈ r, v = 1) := by
  refine ⟨_, listFollows_eq h newAdjacency, ?_, ?_, h.bottom_single_cards_iff, h.bottom_ones_iff⟩
  · rw [← course_eq_nil_iff h]
    constructor
    · intro hnil
      by_contra hne
      obtain ⟨before, hsplit, -⟩ := follows_eq_concat h newAdjacency hne
      simp [hnil] at hsplit
    · intro hnil
      simp [follows_eq, hnil]
  · intro hne
    apply follows_eq_concat h newAdjacency
    intro hnil
    exact hne (by simp [follows_eq, hnil])

/-- A pair of pairs beside a mixed run and a single card: the mixed run stays to the end. -/
theorem follows_end_at_bottom_mixed :
    Shape.IsLead [[2, 2], [1, 2], [1]] ∧ ∃ before,
      listFollows [[2, 2], [1, 2], [1]] false = .ok (before ++ [[[2, 1], [1], [1], [1], [1], [1]]]) ∧
        [[2, 1], [1], [1], [1], [1], [1]] ∉ before := by
  have hlead : Shape.IsLead [[2, 2], [1, 2], [1]] := by decide
  have hbottom : Shape.bottom [[2, 2], [1, 2], [1]] = [[2, 1], [1], [1], [1], [1], [1]] := by
    have hsorted : Run.sorted [1, 2] = [2, 1] := Run.sorted_eq (by decide) (by decide)
    show Shape.canonical ([Run.sorted [1, 2]] ++ List.replicate 5 [1]) = _
    rw [hsorted]
    exact Shape.canonical_of_descending (by decide)
  obtain ⟨shapes, hok, hnil, hlast, -⟩ := follows_end_at_bottom [[2, 2], [1, 2], [1]] false hlead
  obtain ⟨before, rfl, hnew⟩ := hlast fun hs => absurd (hnil.mp hs) (by decide)
  rw [hbottom] at hok hnew
  exact ⟨hlead, before, hok, hnew⟩

end Tractor
