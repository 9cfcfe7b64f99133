/-
  Tractor.Proofs.Shape.Lockstep — two descents that make the same steps.

  Only ladders with a refinement left take part in a descent: those without stand last in
  the order of every step and are never moved. So two states go in step when the ladders
  that are awake stand in one order in both, whatever else stands between them
  (`Ladder.InStep`). Then both take a step or neither does, and are in step afterwards
  (`InStep.step`); by induction their descents are in step all the way
  (`InStep.descent`), and the second shows what the first does, with what rests beside it
  (`emissions_of_inStep`).

  A single card has no refinement. Put into a lead it stands beside all that follows the
  lead, behind every other run (`listFollows_insert_single`), and so do several
  (`follows_with_single_cards`).
-/

import Tractor.Proofs.Shape.Course
import Tractor.Proofs.Shape.Listed

namespace Tractor

namespace Ladder

/-! ## Awake and at rest -/

def awake (l : Ladder) : Bool := !l.rest.isEmpty

theorem awake_iff {l : Ladder} : l.awake = true ↔ l.rest ≠ [] := by simp [awake]

theorem filter_ordered (p : Ladder → Bool) (ladders : List Ladder) :
    (ordered ladders).filter p = ordered (ladders.filter p) := filter_sortDown p ladders

/-- Where no ladder is awake there is no step. -/
theorem step_eq_none_of_asleep {ladders : List Ladder} (h : ordered (ladders.filter awake) = []) :
    step ladders = none := by
  apply step_eq_none
  intro l hl
  by_contra hne
  have hmem : l ∈ ordered (ladders.filter awake) :=
    (ordered_perm _).mem_iff.mpr (List.mem_filter.mpr ⟨hl, awake_iff.mpr hne⟩)
  simp [h] at hmem

/-- The first ladder that is awake is the first of all. -/
theorem exists_ordered_eq_cons {ladders others : List Ladder} {l : Ladder}
    (h : ordered (ladders.filter awake) = l :: others) :
    l.rest ≠ [] ∧ ∃ rest, ordered ladders = l :: rest ∧ rest.filter awake = others := by
  rw [← filter_ordered] at h
  have hdesc := ordered_descending ladders
  have hl : l ∈ (ordered ladders).filter awake := h ▸ List.mem_cons_self
  obtain ⟨hl, hawake⟩ := List.mem_filter.mp hl
  have hne := awake_iff.mp hawake
  cases ho : ordered ladders with
  | nil => simp [ho] at hl
  | cons head rest =>
    rw [ho] at h hl hdesc
    have hhead : head.awake = true := by
      rcases List.mem_cons.mp hl with rfl | hl
      · exact hawake
      · -- no ladder has more refinements left than the first
        have hle := (List.pairwise_cons.mp hdesc).1 l hl
        apply awake_iff.mpr
        intro hnil
        simp [hnil] at hle
        exact hne hle
    rw [List.filter_cons_of_pos hhead] at h
    obtain ⟨rfl, hrest⟩ := List.cons.inj h
    exact ⟨hne, rest, rfl, hrest⟩

/-! ## In step -/

/-- In `b` the ladders that are awake stand in the order of those in `a`, and there is
    `extra` besides. -/
structure InStep (extra a b : List Ladder) : Prop where
  awake : ordered (a.filter awake) = ordered (b.filter awake)
  perm : b.Perm (a ++ extra)

variable {extra a b : List Ladder}

theorem InStep.step (h : InStep extra a b) : Option.Rel (InStep extra) (step a) (step b) := by
  have hawake := h.awake
  cases ha : ordered (a.filter Ladder.awake) with
  | nil =>
    rw [ha] at hawake
    rw [step_eq_none_of_asleep ha, step_eq_none_of_asleep hawake.symm]
    exact .none
  | cons l others =>
    rw [ha] at hawake
    -- both move the same ladder, the first that is awake; the others may stand elsewhere
    obtain ⟨hl, resta, horda, hresta⟩ := exists_ordered_eq_cons ha
    obtain ⟨-, restb, hordb, hrestb⟩ := exists_ordered_eq_cons hawake.symm
    rw [step_eq_some horda hl, step_eq_some hordb hl]
    refine .some ⟨?_, ?_⟩
    · rw [List.filter_cons, List.filter_cons, hresta, hrestb]
    · have hperm : (l :: restb).Perm (l :: resta ++ extra) := by
        rw [← horda, ← hordb]
        exact (ordered_perm b).trans (h.perm.trans ((ordered_perm a).symm.append_right extra))
      exact hperm.cons_inv.cons _

theorem InStep.descent (h : InStep extra a b) : List.Forall₂ (InStep extra) (descent a) (descent b) := by
  induction a using step_induction generalizing b with
  | stop a ha =>
    have hstep := h.step
    rw [ha] at hstep
    generalize hb : Ladder.step b = after at hstep
    cases hstep with
    | none =>
      rw [descent_of_no_step ha, descent_of_no_step hb]
      exact .nil
  | next a after ha ih =>
    have hstep := h.step
    rw [ha] at hstep
    generalize hb : Ladder.step b = after' at hstep
    cases hstep with
    | some hnext =>
      rw [descent_of_step ha, descent_of_step hb]
      exact .cons hnext (ih hnext)

/-! ## What is emitted in step -/

theorem union_of_inStep (h : InStep extra a b) :
    union b = Shape.canonical (union a ++ extra.flatMap Ladder.current) := by
  rw [union_perm h.perm, union, List.flatMap_append]
  exact Shape.canonical_eq_of_perm ((Shape.canonical_perm _).symm.append_right _)

section

variable {newAdjacency : Bool} (hextra : admissible newAdjacency extra = true)
include hextra

theorem admissible_of_inStep (h : InStep extra a b) : admissible newAdjacency b = admissible newAdjacency a := by
  rw [admissible_perm newAdjacency h.perm]
  unfold admissible at hextra ⊢
  cases newAdjacency with
  | true => rfl
  | false =>
    rw [Bool.false_or] at hextra
    simp [List.all_append, hextra]

/-- Ladders that rest and may be played show beside all that is emitted. -/
theorem emissions_of_inStep (h : InStep extra a b) :
    emissions newAdjacency b =
      (emissions newAdjacency a).map fun s => Shape.canonical (s ++ extra.flatMap Ladder.current) := by
  unfold emissions
  rw [List.map_map]
  symm
  apply filter_map_eq_of_forall₂
  refine h.descent.imp ?_
  intro s t hst
  exact ⟨(admissible_of_inStep hextra hst).symm, (union_of_inStep hst).symm⟩

end

end Ladder

/-! ## Single cards in the lead -/

theorem single_le_of_mem_follows {lead : Shape} (h : lead.IsLead) {newAdjacency : Bool} {s : Shape}
    (hs : s ∈ follows lead newAdjacency) : ∀ t ∈ s, List.le [1] t := by
  rw [follows_eq] at hs
  obtain ⟨state, hstate, rfl⟩ := List.mem_map.mp hs
  have hway := onWay_of_mem_course (List.mem_filter.mp hstate).1
  intro t ht
  obtain ⟨l, hl, ht⟩ := List.mem_flatMap.mp ((Shape.canonical_perm _).mem_iff.mp ht)
  obtain ⟨r, hr, hrl⟩ := exists_of_mem_forall₂ ((List.forall₂_and_left lead state).mpr ⟨fun _ hr => hr, hway⟩) hl
  have htp := Run.playable_of_mem_rungs (h.playable hr) hrl.2.current_mem t ht
  exact Run.single_le htp.1 htp.2

theorem canonical_of_mem_follows {lead : Shape} {newAdjacency : Bool} {s : Shape}
    (hs : s ∈ follows lead newAdjacency) : s.canonical = s := by
  obtain ⟨state, -, rfl⟩ := List.mem_map.mp hs
  exact Shape.canonical_of_descending (Shape.canonical_descending _)

namespace Ladder

def lone : Ladder := ⟨[[1]], [], true⟩

theorem start_single : start [1] (decompositions (Run.cards [1]).toNat) = lone := by
  have hplayable : Run.Playable [1] := ⟨by simp, by simp⟩
  have hnone : Run.refinements [1] = [] := (Run.refinements_eq_nil_iff hplayable).mpr (Or.inl rfl)
  have hrest : refinements (Run.sorted [1]) (decompositions (Run.cards [1]).toNat) = [] := (rest_start [1]).trans hnone
  rw [start, hrest, Run.sorted_singleton]
  rfl

/-- A single card put into the lead leaves all other ladders in step. -/
theorem inStep_insert_single (before after : Shape) :
    InStep [lone] (ladders (before ++ after)) (ladders (before ++ [1] :: after)) := by
  have hlead : ladders (before ++ after) = ladders before ++ ladders after := List.map_append
  have hwider : ladders (before ++ [1] :: after) = ladders before ++ lone :: ladders after := by
    unfold ladders
    rw [List.map_append, List.map_cons, start_single]
  rw [hlead, hwider]
  refine ⟨?_, List.perm_middle.trans (List.perm_append_singleton _ _).symm⟩
  have hlone : lone.awake = false := rfl
  rw [List.filter_append, List.filter_append, List.filter_cons_of_neg (by simp [hlone])]

end Ladder

theorem follows_insert_single {before after : Shape} (h : Shape.IsLead (before ++ after)) (newAdjacency : Bool) :
    follows (before ++ [1] :: after) newAdjacency = (follows (before ++ after) newAdjacency).map (· ++ [[1]]) := by
  have hlone : Ladder.admissible newAdjacency [Ladder.lone] = true := by simp [Ladder.admissible, Ladder.lone]
  refine (Ladder.emissions_of_inStep hlone (Ladder.inStep_insert_single before after)).trans ?_
  refine List.map_congr_left ?_
  intro s hs
  have hcanonical := Shape.canonical_append_single (single_le_of_mem_follows h hs)
  rwa [canonical_of_mem_follows hs] at hcanonical

theorem listFollows_insert_single (before after : Shape) (newAdjacency : Bool) :
    listFollows (before ++ [1] :: after) newAdjacency =
      (listFollows (before ++ after) newAdjacency).map fun shapes => shapes.map (· ++ [[1]]) := by
  -- a single card passes both checks, so they come out as they do without it
  have hempty : (before ++ [1] :: after).any List.isEmpty = (before ++ after).any List.isEmpty := by simp
  have hsmall : ((before ++ [1] :: after).any fun r => r.any (· < 1)) =
      (before ++ after).any fun r => r.any (· < 1) := by simp
  unfold listFollows
  rw [hempty, hsmall]
  cases h1 : (before ++ after).any List.isEmpty with
  | true => rfl
  | false =>
    cases h2 : (before ++ after).any fun r => r.any (· < 1) with
    | true => rfl
    | false =>
      have hlead := (Shape.isLead_iff (before ++ after)).mpr ⟨h1, h2⟩
      exact congrArg Except.ok (follows_insert_single hlead newAdjacency)

/-- Some single cards, `m` of them, are put into the lead one after another, each at any
    place. -/
inductive Shape.Inserted (lead : Shape) : Nat → Shape → Prop
  | none : Inserted lead 0 lead
  | insert {m : Nat} {before after : Shape} :
      Inserted lead m (before ++ after) → Inserted lead (m + 1) (before ++ [1] :: after)

/-- Single cards put into a lead stand at the end of all that follows it and change nothing
    else; a lead that is refused is refused with them for the same reason. -/
theorem follows_with_single_cards (lead wider : Shape) (m : Nat) (newAdjacency : Bool)
    (h : lead.Inserted m wider) :
    listFollows wider newAdjacency =
      (listFollows lead newAdjacency).map fun shapes => shapes.map (· ++ List.replicate m [1]) := by
  induction h with
  | none => cases listFollows lead newAdjacency <;> simp [Except.map]
  | insert _ ih =>
    rw [listFollows_insert_single, ih]
    cases listFollows lead newAdjacency with
    | error fault => rfl
    | ok shapes => simp [Except.map, List.replicate_succ', ← List.append_assoc]

/-- A single card before a tractor of two pairs and one behind it, with a triple at the end. -/
theorem follows_with_single_cards_two :
    Shape.Inserted [[2, 2], [3]] 2 [[1], [2, 2], [1], [3]] ∧
      listFollows [[1], [2, 2], [1], [3]] false =
        (listFollows [[2, 2], [3]] false).map fun shapes => shapes.map (· ++ [[1], [1]]) := by
  have hfirst : Shape.Inserted [[2, 2], [3]] 1 [[1], [2, 2], [3]] := @Shape.Inserted.insert _ 0 [] _ .none
  have hboth : Shape.Inserted [[2, 2], [3]] 2 [[1], [2, 2], [1], [3]] :=
    @Shape.Inserted.insert _ 1 [[1], [2, 2]] _ hfirst
  exact ⟨hboth, follows_with_single_cards _ _ 2 false hboth⟩

end Tractor
