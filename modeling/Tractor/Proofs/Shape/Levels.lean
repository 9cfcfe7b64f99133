/-
  Tractor.Proofs.Shape.Levels — the descent goes level by level.

  The runs of a lead with most refinements left form the top level. They are visited in
  the order of the lead, each for one refinement, which puts it one level lower. The level
  below is then visited from the run that came down last to the one that came down first,
  and after these the runs that start there, in the order of the lead (`visits`). The
  walk along these visits (`walk`) sorts nothing: it moves the run it is told to.

  - `Follows.step`: the first run of the order moves behind those of its level and before
    all lower ones.
  - `Tracks.level`: so visiting one level from left to right reverses it and puts it
    before the next. `Tracks.visitsFrom` is the induction over the levels.
  - `follows_level_by_level`: the descent of a lead makes the steps of the walk, and what
    is emitted on the way is what the walk shows (`followsByLevel`).
-/

import Tractor.Proofs.Shape.Decomposition
import Tractor.Proofs.Shape.Follow

namespace Tractor

namespace Ladder

/-! ## The walk -/

def startingAt (counts : List Nat) (level : Nat) : List Nat :=
  (List.range counts.length).filter fun i => counts.getD i 0 == level

/-- From `level` down to the first level: those that came down from above, the last one
    first, then those that start on the level. -/
def visitsFrom (counts above : List Nat) : Nat → List Nat
  | 0 => []
  | level + 1 =>
    let here := above.reverse ++ startingAt counts (level + 1)
    here ++ visitsFrom counts here level

def visits (counts : List Nat) : List Nat := visitsFrom counts [] (counts.max?.getD 0)

/-- The states after each visit, which moves the visited run to its next refinement. -/
def walk (ladders : List Ladder) : List Nat → List (List Ladder)
  | [] => []
  | i :: rest => ladders.modify i advance :: walk (ladders.modify i advance) rest

/-- The state is that of the walk up to the order of its ladders, and its first ladder is
    the one just visited. -/
def Matches (state : List Ladder) (visit : Nat × List Ladder) : Prop :=
  state.Perm visit.2 ∧ state.head? = visit.2[visit.1]?

/-- The descent makes the visited steps, where run `i` of `n` starts as `st i`. -/
def Tracks (st : Nat → Ladder) (n : Nat) (ladders : List Ladder) (visited : List Nat) : Prop :=
  List.Forall₂ Matches (descent ladders) (visited.zip (walk ((List.range n).map st) visited))

/-- The ladders are those of `n` runs, and the next step takes them in `order`. -/
structure Follows (st : Nat → Ladder) (n : Nat) (order : List Nat) (ladders : List Ladder) : Prop where
  sorted : ordered ladders = order.map st
  perm : order.Perm (List.range n)

/-! ## One step -/

section

variable {st : Nat → Ladder} {n : Nat} {ladders : List Ladder}

theorem Follows.ladders_perm {order : List Nat} (h : Follows st n order ladders) :
    ladders.Perm ((List.range n).map st) := by
  have hperm := (ordered_perm ladders).symm
  rw [h.sorted] at hperm
  exact hperm.trans (h.perm.map st)

theorem map_update_of_notMem {i : Nat} {l : List Nat} (h : i ∉ l) (a : Ladder) :
    l.map (Function.update st i a) = l.map st :=
  List.map_congr_left fun _ hj => Function.update_of_ne (ne_of_mem_of_not_mem hj h) a st

theorem modify_map_range {i : Nat} :
    ((List.range n).map st).modify i advance = (List.range n).map (Function.update st i (advance (st i))) := by
  apply List.ext_getElem
  · simp
  · intro j hj₁ hj₂
    by_cases hij : i = j
    · subst hij
      simp
    · simp [hij, Function.update_of_ne (Ne.symm hij)]

/-- The first run of the order moves down, and behind those that have as much left. -/
theorem Follows.step {i : Nat} {greater lower : List Nat} (h : Follows st n (i :: (greater ++ lower)) ladders)
    (hi : (st i).rest ≠ []) (hg : ∀ j ∈ greater, (st i).rest.length ≤ (st j).rest.length)
    (hl : ∀ j ∈ lower, (st j).rest.length < (st i).rest.length) :
    ∃ after, Ladder.step ladders = some after ∧ after.head? = some (advance (st i)) ∧
      Follows (Function.update st i (advance (st i))) n (greater ++ i :: lower) after := by
  have hpos := List.length_pos_iff.mpr hi
  have hnodup : i ∉ greater ++ lower := (List.nodup_cons.mp (h.perm.nodup_iff.mpr List.nodup_range)).1
  have hlen : (advance (st i)).rest.length + 1 = (st i).rest.length := by
    rw [rest_advance, List.length_tail]
    omega
  have hsorted := h.sorted
  rw [List.map_cons] at hsorted
  have hrest : sortDown (fun l : Ladder => l.rest.length) ((greater ++ lower).map st) =
      greater.map st ++ lower.map st := by
    have hdesc := ordered_descending ladders
    rw [hsorted] at hdesc
    rw [sortDown_of_descending _ (List.pairwise_cons.mp hdesc).2, List.map_append]
  have hafter : ordered (advance (st i) :: (greater ++ lower).map st) =
      greater.map st ++ advance (st i) :: lower.map st := by
    refine sortDown_cons hrest (List.forall_mem_map.mpr fun j hj => ?_) (List.forall_mem_map.mpr fun j hj => ?_)
    · have := hg j hj
      omega
    · have := hl j hj
      omega
  refine ⟨_, step_eq_some hsorted hi, rfl, ?_, (List.perm_middle).trans h.perm⟩
  simp only [List.mem_append, not_or] at hnodup
  rw [hafter, List.map_append, List.map_cons, map_update_of_notMem hnodup.1, map_update_of_notMem hnodup.2,
    Function.update_self]

theorem Tracks.of_step {i : Nat} {after : List Ladder} {order visited : List Nat} (hstep : step ladders = some after)
    (hhead : after.head? = some (advance (st i))) (hi : i < n)
    (h : Follows (Function.update st i (advance (st i))) n order after)
    (ht : Tracks (Function.update st i (advance (st i))) n after visited) : Tracks st n ladders (i :: visited) := by
  unfold Tracks
  rw [descent_of_step hstep, walk, modify_map_range]
  refine .cons ⟨h.ladders_perm, ?_⟩ ht
  simp [hhead, hi]

/-! ## One level, and all levels -/

/-- A level is visited from left to right; after that its runs stand in reverse before the
    lower ones, with one refinement less. -/
theorem Tracks.level {k : Nat} {visited : List Nat} {level lower : List Nat}
    (h : Follows st n (level ++ lower) ladders) (hlevel : ∀ i ∈ level, (st i).rest.length = k + 1)
    (hlower : ∀ i ∈ lower, (st i).rest.length ≤ k)
    (hnext : ∀ st' after, Follows st' n (level.reverse ++ lower) after → (∀ i ∈ level, (st' i).rest.length = k) →
      (∀ i ∈ lower, st' i = st i) → Tracks st' n after visited) :
    Tracks st n ladders (level ++ visited) := by
  -- by induction on the runs still to visit; a run that was visited is the first of `lower`
  induction level generalizing st ladders lower with
  | nil => exact hnext st ladders h (fun i hi => absurd hi List.not_mem_nil) fun i _ => rfl
  | cons i level ih =>
    rw [List.forall_mem_cons] at hlevel
    have hi : (st i).rest ≠ [] := by
      intro hnil
      rw [hnil] at hlevel
      simp at hlevel
    have hnodup := h.perm.nodup_iff.mpr List.nodup_range
    rw [List.cons_append, List.nodup_cons, List.mem_append, not_or] at hnodup
    obtain ⟨after, hstep, hhead, hafter⟩ := h.step hi (fun j hj => by have := hlevel.2 j hj; omega)
      (fun j hj => by have := hlower j hj; omega)
    have hself : ((Function.update st i (advance (st i))) i).rest.length = k := by
      rw [Function.update_self, rest_advance, List.length_tail, hlevel.1]
      rfl
    have hother : ∀ j, j ≠ i → (Function.update st i (advance (st i))) j = st j :=
      fun j hj => Function.update_of_ne hj _ st
    have hin : i < n := List.mem_range.mp (h.perm.mem_iff.mp List.mem_cons_self)
    refine Tracks.of_step hstep hhead hin hafter (ih hafter ?_ ?_ ?_)
    · intro j hj
      rw [hother j fun e => hnodup.1.1 (e ▸ hj)]
      exact hlevel.2 j hj
    · refine List.forall_mem_cons.mpr ⟨by omega, fun j hj => ?_⟩
      rw [hother j fun e => hnodup.1.2 (e ▸ hj)]
      exact hlower j hj
    · intro st' after' h' hlevel' hlower'
      rw [List.forall_mem_cons] at hlower'
      refine hnext st' after' ?_ (List.forall_mem_cons.mpr ⟨?_, hlevel'⟩) fun j hj => ?_
      · rw [List.reverse_cons, List.append_assoc]
        exact h'
      · rw [hlower'.1]
        exact hself
      · rw [hlower'.2 j hj, hother j fun e => hnodup.1.2 (e ▸ hj)]

/-- The levels one after another: above all that start on `level` or lower stand those
    that came down to it, the last one first. -/
theorem Tracks.visitsFrom {counts : List Nat} (hn : counts.length = n) {level : Nat} {above : List Nat}
    (h : Follows st n (above.reverse ++ byLevel (fun i => counts.getD i 0) (List.range n) level) ladders)
    (habove : ∀ i ∈ above, (st i).rest.length = level)
    (hstart : ∀ i ∈ byLevel (fun i => counts.getD i 0) (List.range n) level, (st i).rest.length = counts.getD i 0) :
    Tracks st n ladders (visitsFrom counts above level) := by
  induction level generalizing st ladders above with
  | zero =>
    -- on level zero no refinement is left
    have hrest : ∀ l ∈ ladders, l.rest = [] := by
      intro l hl
      have hl := (ordered_perm ladders).mem_iff.mpr hl
      rw [h.sorted] at hl
      obtain ⟨i, hi, rfl⟩ := List.mem_map.mp hl
      apply List.eq_nil_of_length_eq_zero
      rcases List.mem_append.mp hi with hi | hi
      · exact habove i (List.mem_reverse.mp hi)
      · have := le_of_mem_byLevel hi
        rw [hstart i hi]
        omega
    unfold Tracks
    rw [descent_of_no_step (step_eq_none hrest)]
    exact .nil
  | succ level ih =>
    -- those that came down and those that start here are visited as one level
    have hhere : above.reverse ++ byLevel (fun i => counts.getD i 0) (List.range n) (level + 1) =
        (above.reverse ++ startingAt counts (level + 1)) ++ byLevel (fun i => counts.getD i 0) (List.range n) level := by
      rw [byLevel, startingAt, hn, List.append_assoc]
    rw [hhere] at h
    rw [byLevel, List.forall_mem_append] at hstart
    refine Tracks.level (k := level) h ?_ ?_ ?_
    · refine List.forall_mem_append.mpr ⟨fun i hi => habove i (List.mem_reverse.mp hi), fun i hi => ?_⟩
      rw [startingAt, hn] at hi
      rw [hstart.1 i hi]
      exact eq_of_beq (List.mem_filter.mp hi).2
    · intro i hi
      have := le_of_mem_byLevel hi
      rw [hstart.2 i hi]
      exact this
    · intro st' after h' hhere' hlower'
      refine ih h' hhere' fun i hi => ?_
      rw [hlower' i hi]
      exact hstart.2 i hi

end

/-- The descent makes the steps of the walk. -/
theorem descent_matches (ladders : List Ladder) :
    List.Forall₂ Matches (descent ladders)
      ((visits (ladders.map fun l => l.rest.length)).zip
        (walk ladders (visits (ladders.map fun l => l.rest.length)))) := by
  let st : Nat → Ladder := fun i => ladders.getD i ⟨[], [], false⟩
  let counts := ladders.map fun l => l.rest.length
  have hst : (List.range ladders.length).map st = ladders := map_getD_range ladders _
  have hcounts : ∀ i, (st i).rest.length = counts.getD i 0 := by
    intro i
    simp only [st, counts, List.getD_eq_getElem?_getD, List.getElem?_map]
    cases ladders[i]? <;> rfl
  have hmax : ∀ i ∈ List.range ladders.length, counts.getD i 0 ≤ counts.max?.getD 0 := by
    intro i hi
    have hi : i < counts.length := by simpa [counts] using List.mem_range.mp hi
    rw [List.getD_eq_getElem?_getD, List.getElem?_eq_getElem hi]
    exact List.le_max?_getD_of_mem (List.getElem_mem hi)
  have hfollows : Follows st ladders.length
      ([].reverse ++ byLevel (fun i => counts.getD i 0) (List.range ladders.length) (counts.max?.getD 0)) ladders := by
    have hsorted := sortDown_map (fun l : Ladder => l.rest.length) st (List.range ladders.length)
    simp only [hst, hcounts] at hsorted
    rw [List.reverse_nil, List.nil_append, ← sortDown_eq_byLevel hmax]
    exact ⟨hsorted, sortDown_perm _ _⟩
  have htracks : Tracks st ladders.length ladders (visits counts) :=
    Tracks.visitsFrom (by simp [counts]) hfollows (fun i hi => absurd hi List.not_mem_nil) fun i _ => hcounts i
  unfold Tracks at htracks
  rw [hst] at htracks
  exact htracks

-- Two runs with two refinements each come down, the second one again, and the third run joins them last.
example : visits [2, 2, 1] = [0, 1, 1, 0, 2] := by decide

/-! ## What the walk shows -/

def blocked (ladders : List Ladder) : Bool :=
  ladders.any fun l => l.single && l.current.any fun r => decide (1 < r.length)

def Filled (l : Ladder) : Prop := ∀ s ∈ l.current :: l.rest, ∀ r ∈ s, r ≠ []

theorem admissible_of_filled (newAdjacency : Bool) {state : List Ladder} (h : ∀ l ∈ state, Filled l) :
    admissible newAdjacency state = (newAdjacency || !blocked state) := by
  rw [admissible, blocked, List.not_any_eq_all_not]
  congr 1
  rw [Bool.eq_iff_iff, List.all_eq_true, List.all_eq_true]
  refine forall₂_congr fun l hl => ?_
  have hone : (l.current.all fun r => r.length == 1) = !l.current.any fun r => decide (1 < r.length) := by
    rw [Bool.eq_iff_iff, List.all_eq_true, Bool.not_eq_true', List.any_eq_false]
    refine forall₂_congr fun r hr => ?_
    have := List.length_pos_iff.mpr (h l hl l.current List.mem_cons_self r hr)
    rw [beq_iff_eq, decide_eq_true_eq]
    omega
  rw [Bool.not_and, hone]

theorem Filled.advance {l : Ladder} (h : Filled l) : Filled (advance l) := by
  obtain ⟨current, rest, single⟩ := l
  cases rest with
  | nil => exact h
  | cons s rest => exact fun t ht => h t (List.mem_cons_of_mem current ht)

theorem filled_of_mem_walk {ladders state : List Ladder} {visited : List Nat} (h : ∀ l ∈ ladders, Filled l)
    (hs : state ∈ walk ladders visited) : ∀ l ∈ state, Filled l := by
  induction visited generalizing ladders with
  | nil => cases hs
  | cons i visited ih =>
    have hmodify : ∀ l ∈ ladders.modify i Ladder.advance, Filled l := by
      intro l hl
      obtain ⟨j, hj, rfl⟩ := List.getElem_of_mem hl
      rw [List.getElem_modify]
      split
      · exact (h _ (List.getElem_mem _)).advance
      · exact h _ (List.getElem_mem _)
    rcases List.mem_cons.mp hs with rfl | hs
    · exact hmodify
    · exact ih hmodify hs

theorem length_walk (ladders : List Ladder) (visited : List Nat) : (walk ladders visited).length = visited.length := by
  induction visited generalizing ladders with
  | nil => rfl
  | cons i visited ih => rw [walk, List.length_cons, ih, List.length_cons]

theorem filter_map_union_congr (newAdjacency : Bool) {a b : List (List Ladder)} (h : List.Forall₂ List.Perm a b) :
    (a.filter (admissible newAdjacency)).map union = (b.filter (admissible newAdjacency)).map union := by
  apply filter_map_eq_of_forall₂
  refine h.imp ?_
  intro s t hperm
  exact ⟨admissible_perm newAdjacency hperm, union_perm hperm⟩

theorem descent_perm_walk (ladders : List Ladder) :
    List.Forall₂ List.Perm (descent ladders) (walk ladders (visits (ladders.map fun l => l.rest.length))) := by
  have h := (descent_matches ladders).imp fun _ _ hm => hm.1
  rw [← List.forall₂_map_right_iff, List.map_snd_zip (Nat.le_of_eq (by rw [length_walk]))] at h
  exact h

end Ladder

def Run.refinements (r : Run) : List Shape :=
  let all := decompositions r.cards.toNat
  all.drop (all.idxOf [r.sorted] + 1)

def visitsOf (lead : Shape) : List Nat := Ladder.visits (lead.map fun r => r.refinements.length)

/-- The union of all current decompositions after each visit, where it may be played. -/
def followsByLevel (lead : Shape) (newAdjacency : Bool) : List Shape :=
  ((Ladder.walk (ladders lead) (visitsOf lead)).filter fun state => newAdjacency || !Ladder.blocked state).map
    Ladder.union

theorem rest_start (r : Run) : (Ladder.start r (decompositions r.cards.toNat)).rest = r.refinements :=
  Ladder.refinements_eq_drop r.sorted _

theorem counts_ladders (lead : Shape) :
    ((ladders lead).map fun l => l.rest.length) = lead.map fun r => r.refinements.length := by
  rw [ladders, List.map_map]
  exact List.map_congr_left fun r _ => congrArg List.length (rest_start r)

theorem filled_of_mem_ladders {lead : Shape} (hne : ∀ r ∈ lead, r ≠ []) : ∀ l ∈ ladders lead, l.Filled := by
  intro l hl
  obtain ⟨r, hr, rfl⟩ := List.mem_map.mp hl
  refine List.forall_mem_cons.mpr ⟨?_, fun s hs t ht => ?_⟩
  · intro t ht hnil
    rw [List.mem_singleton.mp ht] at hnil
    exact hne r hr (List.perm_nil.mp (hnil ▸ r.sorted_perm.symm))
  · rw [rest_start] at hs
    exact ((mem_decompositions.mp (List.mem_of_mem_drop hs)).legal t ht).1

/-- What follows a lead is what the walk level by level shows; the descent makes the steps
    of the walk, one for each refinement of a run. -/
theorem follows_level_by_level (lead : Shape) (newAdjacency : Bool) (h : lead.IsLead) :
    listFollows lead newAdjacency = .ok (followsByLevel lead newAdjacency) ∧
      List.Forall₂ Ladder.Matches (Ladder.descent (ladders lead))
        ((visitsOf lead).zip (Ladder.walk (ladders lead) (visitsOf lead))) ∧
      (Ladder.descent (ladders lead)).length = (lead.map fun r => r.refinements.length).sum := by
  refine ⟨?_, ?_, ?_⟩
  · have hwalk := Ladder.descent_perm_walk (ladders lead)
    rw [counts_ladders] at hwalk
    rw [listFollows_eq h, follows, Ladder.emissions, Ladder.filter_map_union_congr newAdjacency hwalk, followsByLevel,
      visitsOf]
    have hfilled := filled_of_mem_ladders h.nonempty
    rw [List.filter_congr fun state hs =>
      Ladder.admissible_of_filled newAdjacency (Ladder.filled_of_mem_walk hfilled hs)]
  · have hmatches := Ladder.descent_matches (ladders lead)
    rw [counts_ladders] at hmatches
    exact hmatches
  · rw [Ladder.length_descent, Ladder.left_eq_sum, counts_ladders]

/-- Two pairs and a triple: the triple comes down first, and both pairs after it. -/
theorem follows_level_by_level_triple :
    Shape.IsLead [[2], [3], [2]] ∧
      listFollows [[2], [3], [2]] false = .ok (followsByLevel [[2], [3], [2]] false) := by
  have hlead : Shape.IsLead [[2], [3], [2]] := by decide
  exact ⟨hlead, (follows_level_by_level [[2], [3], [2]] false hlead).1⟩

end Tractor
