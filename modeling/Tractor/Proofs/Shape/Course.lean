/-
  Tractor.Proofs.Shape.Course — the states of a descent, run by run.

  The course of a lead is its states with the ladders in the order of the lead
  (`course`). It shows the same as the descent, whose states are these up to the order of
  their ladders (`course_perm`, `follows_eq`). A visit moves one ladder down, so in every
  state each run of the lead has a ladder on its way (`onWay_of_mem_course`).

  - `left_course`: the refinements left count down to none, one a state. So every state
    has fewer than the start (`left_lt_of_mem_course`), and only the last has none
    (`course_eq_concat`).
  - `exists_state_of_mem_rest`: each refinement of a run is current in some state.
  - `demands_descend`: no shape that follows demands more than the lead or than one that
    follows before it, for a visit leaves every ladder as it is or on a lower rung
    (`profile_union_modify_le`).
-/

import Tractor.Proofs.Shape.Rungs

namespace Tractor

def course (lead : Shape) : List (List Ladder) := Ladder.walk (ladders lead) (visitsOf lead)

theorem course_perm (lead : Shape) : List.Forall₂ List.Perm (Ladder.descent (ladders lead)) (course lead) := by
  have h := Ladder.descent_perm_walk (ladders lead)
  rwa [counts_ladders] at h

theorem follows_eq (lead : Shape) (newAdjacency : Bool) :
    follows lead newAdjacency = ((course lead).filter (Ladder.admissible newAdjacency)).map Ladder.union :=
  Ladder.filter_map_union_congr newAdjacency (course_perm lead)

/-! ## Each run on its way -/

namespace Ladder

theorem onWay_ladders (lead : Shape) : List.Forall₂ OnWay lead (ladders lead) :=
  List.forall₂_map_right_iff.mpr (List.forall₂_same.mpr fun r _ => onWay_start r)

theorem onWay_of_mem_walk {lead : Shape} {start state : List Ladder} {visited : List Nat}
    (h : List.Forall₂ OnWay lead start) (hs : state ∈ walk start visited) : List.Forall₂ OnWay lead state := by
  induction visited generalizing start with
  | nil => cases hs
  | cons i visited ih =>
    have hnext := forall₂_modify (fun _ _ => OnWay.advance) h i
    rcases List.mem_cons.mp hs with rfl | hs
    · exact hnext
    · exact ih hnext hs

end Ladder

theorem onWay_of_mem_course {lead : Shape} {state : List Ladder} (hs : state ∈ course lead) :
    List.Forall₂ Ladder.OnWay lead state :=
  Ladder.onWay_of_mem_walk (Ladder.onWay_ladders lead) hs

/-! ## How many refinements are left -/

namespace Ladder

theorem left_eq_zero_iff {state : List Ladder} : left state = 0 ↔ ∀ l ∈ state, l.rest = [] := by
  rw [left_eq_sum, List.sum_eq_zero_iff_forall_eq_nat]
  simp

theorem left_descent (start : List Ladder) : (descent start).map left = (List.range (left start)).reverse := by
  induction start using step_induction with
  | stop state hstep =>
    rw [descent_of_no_step hstep, left_of_no_step hstep]
    rfl
  | next state after hstep ih =>
    rw [descent_of_step hstep, List.map_cons, ih, ← left_of_step hstep, List.range_succ, List.reverse_append]
    rfl

/-- Each refinement on a ladder is current in some state of the descent. -/
theorem exists_state_of_mem_rest {start : List Ladder} {l : Ladder} {s : Shape} (hl : l ∈ start) (hs : s ∈ l.rest) :
    ∃ state ∈ descent start, ∃ k ∈ state, k.current = s ∧ k.single = l.single := by
  induction start using step_induction generalizing l with
  | stop state hstep =>
    rw [rest_of_no_step hstep l hl] at hs
    cases hs
  | next state after hstep ih =>
    rw [descent_of_step hstep]
    -- the refinement is reached now, or it is still to come on a ladder of the next state
    have hnext : (∃ k ∈ after, k.current = s ∧ k.single = l.single) ∨
        ∃ k ∈ after, s ∈ k.rest ∧ k.single = l.single := by
      obtain ⟨head, others, hordered, -, rfl⟩ := exists_of_step hstep
      have hl := (ordered_perm state).mem_iff.mpr hl
      rw [hordered] at hl
      rcases List.mem_cons.mp hl with rfl | hl
      · obtain ⟨current, rest, single⟩ := l
        cases rest with
        | nil => cases hs
        | cons t rest =>
          rcases List.mem_cons.mp hs with rfl | hs
          · exact Or.inl ⟨_, List.mem_cons_self, rfl, rfl⟩
          · exact Or.inr ⟨_, List.mem_cons_self, hs, rfl⟩
      · exact Or.inr ⟨l, List.mem_cons_of_mem _ hl, hs, rfl⟩
    rcases hnext with ⟨k, hk, h⟩ | ⟨k, hk, hs, hsingle⟩
    · exact ⟨after, List.mem_cons_self, k, hk, h⟩
    · obtain ⟨state, hstate, j, hj, hcurrent, hj'⟩ := ih hk hs
      exact ⟨state, List.mem_cons_of_mem _ hstate, j, hj, hcurrent, hj'.trans hsingle⟩

end Ladder

theorem left_course (lead : Shape) :
    (course lead).map Ladder.left = (List.range (Ladder.left (ladders lead))).reverse := by
  rw [← Ladder.left_descent]
  exact (map_eq_map_of_forall₂ ((course_perm lead).imp fun _ _ h => Ladder.left_perm h)).symm

theorem left_lt_of_mem_course {lead : Shape} {state : List Ladder} (hs : state ∈ course lead) :
    Ladder.left state < Ladder.left (ladders lead) := by
  have h := List.mem_map_of_mem (f := Ladder.left) hs
  rw [left_course] at h
  simpa using h

/-- Only the last state has no refinement left. -/
theorem course_eq_concat {lead : Shape} (h : course lead ≠ []) :
    ∃ before last, course lead = before ++ [last] ∧ Ladder.left last = 0 ∧ ∀ state ∈ before, Ladder.left state ≠ 0 := by
  have hleft := left_course lead
  cases hn : Ladder.left (ladders lead) with
  | zero =>
    rw [hn] at hleft
    exact absurd (List.map_eq_nil_iff.mp hleft) h
  | succ n =>
    rw [hn, List.range_succ_eq_map, List.reverse_cons, List.map_eq_append_iff] at hleft
    obtain ⟨before, ends, hsplit, hbefore, hends⟩ := hleft
    obtain ⟨last, rfl, hlast⟩ := List.map_eq_singleton_iff.mp hends
    refine ⟨before, last, hsplit, hlast, fun state hstate hzero => ?_⟩
    have hmem := List.mem_map_of_mem (f := Ladder.left) hstate
    rw [hbefore, hzero] at hmem
    simp at hmem

/-- Each refinement of a run is current in some state, on a ladder of a run led likewise. -/
theorem exists_mem_course {lead : Shape} {r : Run} {s : Shape} (hr : r ∈ lead) (hs : s ∈ r.refinements) :
    ∃ state ∈ course lead, ∃ l ∈ state, l.current = s ∧ l.single = decide (r.length = 1) := by
  have hl : Ladder.start r (decompositions r.cards.toNat) ∈ ladders lead := List.mem_map_of_mem hr
  rw [← rest_start] at hs
  obtain ⟨state, hstate, l, hl, hcurrent, hsingle⟩ := Ladder.exists_state_of_mem_rest hl hs
  obtain ⟨state', hstate', hperm⟩ := exists_of_mem_forall₂ (course_perm lead).flip hstate
  exact ⟨state', hstate', l, hperm.mem_iff.mp hl, hcurrent, hsingle⟩

/-! ## Profiles -/

namespace Ladder

def tuples (state : List Ladder) : List Run := state.map fun l => l.current.flatten

theorem flatten_union_perm (state : List Ladder) : (union state).flatten.Perm (tuples state).flatten := by
  refine (Shape.canonical_perm _).flatten.trans (.of_eq ?_)
  simp [tuples, List.flatMap_def, List.flatten_flatten, Function.comp_def]

theorem profile_union (state : List Ladder) : (union state).profile = Run.sorted (tuples state).flatten :=
  Run.sorted_eq_iff.mpr (flatten_union_perm state)

/-- State by state, each ladder shows no more than the other. -/
theorem profile_union_le {after before : List Ladder}
    (h : List.Forall₂ (fun l k => List.le l.current.profile k.current.profile) after before) :
    List.le (union after).profile (union before).profile := by
  rw [profile_union, profile_union]
  exact Run.sorted_flatten_le (List.forall₂_map_left_iff.mpr (List.forall₂_map_right_iff.mpr h))

theorem profile_union_modify_le {lead : Shape} {state : List Ladder} (h : List.Forall₂ OnWay lead state) (i : Nat) :
    List.le (union (state.modify i advance)).profile (union state).profile := by
  apply profile_union_le
  induction h generalizing i with
  | nil => simp
  | cons hrl hrest ih =>
    cases i with
    | zero => exact .cons (profile_advance_le hrl) (List.forall₂_same.mpr fun l _ => List.le_refl _)
    | succ i => exact .cons (List.le_refl _) (ih i)

theorem profiles_walk {lead : Shape} {start : List Ladder} (h : List.Forall₂ OnWay lead start) (visited : List Nat) :
    ((union start :: (walk start visited).map union).map Shape.profile).Pairwise fun a b => List.le b a := by
  induction visited generalizing start with
  | nil => exact List.pairwise_singleton _ _
  | cons i visited ih =>
    have hnext := ih (forall₂_modify (fun _ _ => OnWay.advance) h i)
    have hstep := profile_union_modify_le h i
    rw [List.map_cons, List.pairwise_cons]
    refine ⟨fun p hp => ?_, hnext⟩
    rcases List.mem_cons.mp hp with rfl | hp
    · exact hstep
    · exact List.le_trans ((List.pairwise_cons.mp hnext).1 p hp) hstep

end Ladder

/-- The descent starts from the lead, each of its runs sorted. -/
theorem union_ladders (lead : Shape) : Ladder.union (ladders lead) = Shape.canonical (lead.map Run.sorted) := by
  rw [Ladder.union, ladders, List.flatMap_map, List.map_eq_flatMap]
  rfl

theorem flatten_map_sorted_perm (s : Shape) : (s.map Run.sorted).flatten.Perm s.flatten :=
  List.Perm.flatten_congr (List.forall₂_map_left_iff.mpr (List.forall₂_same.mpr fun r _ => r.sorted_perm))

theorem profile_union_ladders (lead : Shape) : (Ladder.union (ladders lead)).profile = lead.profile := by
  rw [union_ladders, Shape.profile_canonical]
  exact Run.sorted_eq_iff.mpr (flatten_map_sorted_perm lead)

/-- What follows demands less and less. -/
theorem demands_descend (lead : Shape) (newAdjacency : Bool) (h : lead.IsLead) :
    ∃ shapes, listFollows lead newAdjacency = .ok shapes ∧
      (lead.profile :: shapes.map Shape.profile).Pairwise fun a b => List.le b a := by
  refine ⟨_, listFollows_eq h newAdjacency, ?_⟩
  rw [follows_eq, ← profile_union_ladders]
  refine (Ladder.profiles_walk (Ladder.onWay_ladders lead) (visitsOf lead)).sublist ?_
  exact (((List.filter_sublist).map _).map _).cons_cons _

/-- A tractor of two pairs beside a triple: every follow demands no more than the one before it. -/
theorem demands_descend_tractor :
    Shape.IsLead [[2, 2], [3]] ∧ ∃ shapes, listFollows [[2, 2], [3]] true = .ok shapes ∧
      ([3, 2, 2] :: shapes.map Shape.profile).Pairwise fun a b => List.le b a := by
  have hlead : Shape.IsLead [[2, 2], [3]] := by decide
  have hprofile : Shape.profile [[2, 2], [3]] = [3, 2, 2] := Run.sorted_eq (by decide) (by decide)
  exact ⟨hlead, hprofile ▸ demands_descend [[2, 2], [3]] true hlead⟩

end Tractor
