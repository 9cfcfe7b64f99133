/-
  Tractor.Proofs.Shape.Follow — one step of the descent, and the descent as a whole.

  A step orders the ladders, those with most refinements first, and moves the first one
  down by one (`step_eq_some`, `step_eq_none`, `exists_of_step`). So it takes away exactly
  one of the refinements left (`left_of_step`), and there is a step as long as one is left
  (`left_of_no_step`). A descent has therefore as many steps as refinements are left at
  its start (`length_descent`), and room for more steps would change nothing
  (`states_eq_descent`); it is unfolded step by step (`descent_of_step`,
  `descent_of_no_step`), and what is to hold in every state is shown from one step to the
  step before (`step_induction`).

  What is emitted in a state does not depend on the order of its ladders
  (`admissible_perm`, `union_perm`).

  The checks of a lead let through the leads without an empty run and with a card in each
  tuple (`Shape.isLead_iff`).
-/

import Mathlib.Algebra.GroupWithZero.Nat
import Tractor.Shape.Listing
import Tractor.Proofs.Shape.Canonical
import Tractor.Proofs.Shape.Sorting

namespace Tractor

structure Shape.IsLead (lead : Shape) : Prop where
  nonempty : ∀ r ∈ lead, r ≠ []
  positive : ∀ r ∈ lead, ∀ v ∈ r, 1 ≤ v

theorem Shape.isLead_iff (lead : Shape) :
    lead.IsLead ↔ lead.any List.isEmpty = false ∧ lead.any (List.any · (· < 1)) = false := by
  simp only [List.any_eq_false, List.isEmpty_iff, List.any_eq_true, decide_eq_true_eq, not_exists, not_and, Int.not_lt]
  exact ⟨fun h => ⟨h.nonempty, h.positive⟩, fun h => ⟨h.1, h.2⟩⟩

instance (lead : Shape) : Decidable lead.IsLead := decidable_of_iff' _ lead.isLead_iff

theorem Shape.IsLead.one_le_cards {lead : Shape} (h : lead.IsLead) {r : Run} (hr : r ∈ lead) : 1 ≤ r.cards := by
  have := Run.mul_length_le_cards (h.positive r hr)
  have := List.length_pos_iff.mpr (h.nonempty r hr)
  omega

theorem listFollows_eq {lead : Shape} (h : lead.IsLead) (newAdjacency : Bool) :
    listFollows lead newAdjacency = .ok (follows lead newAdjacency) := by
  obtain ⟨hnonempty, hpositive⟩ := lead.isLead_iff.mp h
  rw [listFollows, hnonempty, hpositive]
  rfl

namespace Ladder

/-- The ladders with most refinements first; of equal ones the order is kept. -/
def ordered (ladders : List Ladder) : List Ladder := sortDown (fun l => l.rest.length) ladders

def advance : Ladder → Ladder
  | ⟨_, s :: rest, single⟩ => ⟨s, rest, single⟩
  | l => l

/-- The refinements are what comes after the run's first place among the decompositions. -/
theorem refinements_eq_drop (r : Run) (all : List Shape) : refinements r all = all.drop (all.idxOf [r] + 1) := by
  induction all with
  | nil => rfl
  | cons s all ih =>
    rw [refinements, List.dropWhile_cons, List.idxOf_cons]
    by_cases h : s = [r]
    · subst h
      simp
    · rw [if_pos (bne_iff_ne.mpr h), beq_eq_false_iff_ne.mpr h]
      exact ih

/-! ## One step -/

theorem ordered_perm (ladders : List Ladder) : (ordered ladders).Perm ladders := sortDown_perm _ ladders

theorem ordered_descending (ladders : List Ladder) :
    (ordered ladders).Pairwise fun a b => b.rest.length ≤ a.rest.length := sortDown_descending _ ladders

theorem rest_advance (l : Ladder) : (advance l).rest = l.rest.tail := by
  obtain ⟨current, rest, single⟩ := l
  cases rest <;> rfl

theorem step_eq_some {ladders others : List Ladder} {l : Ladder} (h : ordered ladders = l :: others)
    (hl : l.rest ≠ []) : step ladders = some (advance l :: others) := by
  obtain ⟨current, rest, single⟩ := l
  cases rest with
  | nil => exact absurd rfl hl
  | cons s rest =>
    unfold ordered sortDown at h
    rw [step, h]
    rfl

theorem step_eq_none {ladders : List Ladder} (h : ∀ l ∈ ladders, l.rest = []) : step ladders = none := by
  have hordered : ∀ l ∈ ordered ladders, l.rest = [] := fun l hl => h l ((ordered_perm ladders).mem_iff.mp hl)
  unfold ordered sortDown at hordered
  rw [step]
  split
  · rename_i hcons
    have := hordered _ (hcons ▸ List.mem_cons_self)
    cases this
  · rfl

/-- What a step does: the first of the ordered ladders had a refinement and takes it. -/
theorem exists_of_step {ladders after : List Ladder} (h : step ladders = some after) :
    ∃ l others, ordered ladders = l :: others ∧ l.rest ≠ [] ∧ after = advance l :: others := by
  rw [step] at h
  split at h
  · rename_i hcons
    cases h
    exact ⟨_, _, hcons, List.cons_ne_nil _ _, rfl⟩
  · cases h

/-- Where there is no step, the first of the ordered ladders has no refinement, so none has. -/
theorem rest_of_no_step {ladders : List Ladder} (h : step ladders = none) : ∀ l ∈ ladders, l.rest = [] := by
  intro l hl
  have hl := (ordered_perm ladders).mem_iff.mpr hl
  have hdesc := ordered_descending ladders
  cases ho : ordered ladders with
  | nil => simp [ho] at hl
  | cons head others =>
    have hhead : head.rest = [] := by
      by_cases hne : head.rest = []
      · exact hne
      · rw [step_eq_some ho hne] at h
        cases h
    rw [ho] at hl hdesc
    rcases List.mem_cons.mp hl with rfl | hl
    · exact hhead
    · have := (List.pairwise_cons.mp hdesc).1 l hl
      rw [hhead] at this
      exact List.eq_nil_of_length_eq_zero (by simpa using this)

/-! ## The refinements that are left -/

theorem left_cons (l : Ladder) (ladders : List Ladder) : left (l :: ladders) = l.rest.length + left ladders := rfl

theorem left_eq_sum (ladders : List Ladder) : left ladders = (ladders.map fun l => l.rest.length).sum := by
  induction ladders with
  | nil => rfl
  | cons l ladders ih => rw [left_cons, ih, List.map_cons, List.sum_cons]

theorem left_perm {a b : List Ladder} (h : a.Perm b) : left a = left b := by
  rw [left_eq_sum, left_eq_sum]
  exact (h.map _).sum_nat

theorem left_of_step {ladders after : List Ladder} (h : step ladders = some after) : left after + 1 = left ladders := by
  obtain ⟨l, others, ho, hl, rfl⟩ := exists_of_step h
  have hpos := List.length_pos_iff.mpr hl
  rw [← left_perm (ordered_perm ladders), ho, left_cons, left_cons, rest_advance, List.length_tail]
  omega

theorem left_of_no_step {ladders : List Ladder} (h : step ladders = none) : left ladders = 0 := by
  have hrest := rest_of_no_step h
  rw [left_eq_sum, List.sum_eq_zero_iff_forall_eq_nat]
  intro n hn
  obtain ⟨l, hl, rfl⟩ := List.mem_map.mp hn
  rw [hrest l hl]
  rfl

/-- What holds where no step is possible, and before a step if it holds after it, holds in
    every state. -/
theorem step_induction {motive : List Ladder → Prop} (stop : ∀ state, step state = none → motive state)
    (next : ∀ state after, step state = some after → motive after → motive state) (state : List Ladder) :
    motive state := by
  generalize hn : left state = n
  induction n generalizing state with
  | zero =>
    cases hstep : step state with
    | none => exact stop state hstep
    | some after =>
      have := left_of_step hstep
      omega
  | succ n ih =>
    cases hstep : step state with
    | none => exact stop state hstep
    | some after =>
      have := left_of_step hstep
      exact next state after hstep (ih after (by omega))

theorem length_states {n : Nat} {ladders : List Ladder} (h : left ladders ≤ n) :
    (states n ladders).length = left ladders := by
  induction n generalizing ladders with
  | zero => simp [states]; omega
  | succ n ih =>
    rw [states]
    split
    · rename_i hs
      rw [left_of_no_step hs]
      rfl
    · rename_i after hs
      have := left_of_step hs
      rw [List.length_cons, ih (by omega)]
      exact this

/-- The descent ends because no refinement is left, not because its bound is reached. -/
theorem states_eq_descent {n : Nat} {ladders : List Ladder} (h : left ladders ≤ n) :
    states n ladders = descent ladders := by
  unfold descent
  induction n generalizing ladders with
  | zero => rw [Nat.le_zero.mp h]
  | succ n ih =>
    cases hs : step ladders with
    | none =>
      rw [left_of_no_step hs]
      simp only [states, hs]
    | some after =>
      have := left_of_step hs
      rw [← this]
      simp only [states, hs]
      rw [ih (by omega)]

theorem descent_of_step {ladders after : List Ladder} (h : step ladders = some after) :
    descent ladders = after :: descent after := by
  rw [descent, ← left_of_step h]
  simp only [states, h]
  rfl

theorem descent_of_no_step {ladders : List Ladder} (h : step ladders = none) : descent ladders = [] := by
  rw [descent, left_of_no_step h]
  rfl

theorem length_descent (ladders : List Ladder) : (descent ladders).length = left ladders :=
  length_states (Nat.le_refl _)

/-! ## What is emitted -/

theorem admissible_perm (newAdjacency : Bool) {a b : List Ladder} (h : a.Perm b) :
    admissible newAdjacency a = admissible newAdjacency b := by
  unfold admissible
  rw [h.all_eq]

theorem union_perm {a b : List Ladder} (h : a.Perm b) : union a = union b :=
  Shape.canonical_eq_of_perm (h.flatMap_right _)

end Ladder

end Tractor
