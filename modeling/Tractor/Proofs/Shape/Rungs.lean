/-
  Tractor.Proofs.Shape.Rungs — the way down of one run.

  The rungs of a run are the run itself and its refinements, nearest first
  (`Run.rungs`). A run that is legal is one of the decompositions of its cards, so its
  rungs are the rest of these from there on (`Run.rungs_of_legal`). A run with a single
  card beside other tuples is none of them and stays as it is (`Run.rungs_of_not_legal`).
  Either way no rung comes twice (`Run.nodup_rungs`), each demands no more than the one
  before (`Run.rungs_descending`), and the last one is known (`Run.rungs_last`): a mixed
  run is its own bottom and any other run ends in single cards. So a run has no refinement
  exactly when it is stuck (`Run.refinements_eq_nil_iff`).

  A ladder is on the way of a run when it holds the rungs from some rung on
  (`Ladder.OnWay`); it is so at its start and stays so when it is moved down.
-/

import Tractor.Proofs.Shape.Levels
import Tractor.Proofs.Shape.Demand

namespace Tractor

namespace Run

def rungs (r : Run) : List Shape := [r.sorted] :: r.refinements

def Playable (r : Run) : Prop := r ≠ [] ∧ ∀ v ∈ r, 1 ≤ v

def Mixed (r : Run) : Prop := 1 < r.length ∧ 1 ∈ r

instance (r : Run) : Decidable r.Mixed := inferInstanceAs (Decidable (_ ∧ _))

def Stuck (r : Run) : Prop := r = [1] ∨ r.Mixed

instance (r : Run) : Decidable r.Stuck := inferInstanceAs (Decidable (_ ∨ _))

def bottom (r : Run) : Shape := if r.Mixed then [r.sorted] else List.replicate r.cards.toNat [1]

variable {r : Run}

theorem sorted_eq_singleton_iff {v : Int} : r.sorted = [v] ↔ r = [v] :=
  calc r.sorted = [v] ↔ r.sorted = sorted [v] := by rw [sorted_singleton]
    _ ↔ r.Perm [v] := sorted_eq_iff
    _ ↔ r = [v] := List.perm_singleton

theorem legal_sorted_iff : r.sorted.Legal ↔ r.Legal := by
  have hnil : r.sorted = [] ↔ r = [] := ⟨fun h => List.nil_perm.mp (h ▸ r.sorted_perm), fun h => by simp [h, sorted]⟩
  simp only [Legal, ne_eq, hnil, sorted_eq_singleton_iff, r.sorted_perm.mem_iff]

theorem not_mixed_of_length_eq_one (h : r.length = 1) : ¬ r.Mixed := by
  rintro ⟨hlen, -⟩
  omega

theorem Legal.not_mixed (h : r.Legal) : ¬ r.Mixed := by
  rintro ⟨hlen, hone⟩
  rcases h.2 with rfl | htwo
  · simp at hlen
  · have := htwo 1 hone
    omega

theorem eq_single_of_not_mixed (h : ¬ r.Mixed) (hone : 1 ∈ r) : r = [1] := by
  have hlen : r.length = 1 := by
    have := List.length_pos_of_mem hone
    have : ¬ 1 < r.length := fun hlen => h ⟨hlen, hone⟩
    omega
  obtain ⟨v, rfl⟩ := List.length_eq_one_iff.mp hlen
  rw [List.mem_singleton.mp hone]

theorem Playable.legal (hr : r.Playable) (h : ¬ r.Mixed) : r.Legal := by
  obtain ⟨hne, hpos⟩ := hr
  refine ⟨hne, ?_⟩
  by_cases hone : 1 ∈ r
  · exact Or.inl (eq_single_of_not_mixed h hone)
  · right
    intro v hv
    have := hpos v hv
    have : v ≠ 1 := fun e => hone (e ▸ hv)
    omega

theorem Legal.cards_nonneg (h : r.Legal) : 0 ≤ r.cards := by
  have := mul_length_le_cards h.positive
  omega

/-! ## All rungs -/

theorem rungs_of_legal (h : r.Legal) : r.rungs <:+ decompositions r.cards.toNat := by
  have hmem : [r.sorted] ∈ decompositions r.cards.toNat := by
    refine mem_decompositions.mpr ⟨?_, ?_, List.pairwise_singleton _ _⟩
    · simpa using legal_sorted_iff.mpr h
    · rw [Shape.cards_eq_flatten, List.flatten_singleton, cards_perm r.sorted_perm, Int.toNat_of_nonneg h.cards_nonneg]
  have hdrop := List.drop_eq_getElem_cons (List.idxOf_lt_length_of_mem hmem)
  rw [List.getElem_idxOf] at hdrop
  exact ⟨_, (congrArg _ hdrop.symm).trans (List.take_append_drop _ _)⟩

/-- A run that is not legal is no decomposition of its cards, and nothing comes after it. -/
theorem rungs_of_not_legal (h : ¬ r.Legal) : r.rungs = [[r.sorted]] := by
  have hmem : [r.sorted] ∉ decompositions r.cards.toNat := by
    intro hmem
    exact h (legal_sorted_iff.mp ((mem_decompositions.mp hmem).legal _ List.mem_cons_self))
  have hnil : r.refinements = [] := List.drop_eq_nil_of_le (by rw [List.idxOf_eq_length hmem]; omega)
  rw [rungs, hnil]

theorem isDecomposition_of_mem_rungs (h : r.Legal) {s : Shape} (hs : s ∈ r.rungs) : IsDecomposition r.cards s := by
  rw [← Int.toNat_of_nonneg h.cards_nonneg]
  exact mem_decompositions.mp ((rungs_of_legal h).mem hs)

/-- Down the rungs no run is empty and no tuple without a card. -/
theorem playable_of_mem_rungs (hr : r.Playable) {s : Shape} (hs : s ∈ r.rungs) : ∀ t ∈ s, t.Playable := by
  intro t ht
  by_cases h : r.Legal
  · have hlegal := (isDecomposition_of_mem_rungs h hs).legal t ht
    exact ⟨hlegal.1, hlegal.positive⟩
  · rw [rungs_of_not_legal h, List.mem_singleton] at hs
    subst hs
    rw [List.mem_singleton.mp ht]
    refine ⟨?_, fun v hv => hr.2 v (r.sorted_perm.mem_iff.mp hv)⟩
    intro hnil
    exact hr.1 (List.nil_perm.mp (hnil ▸ r.sorted_perm))

/-- A decomposition that demands less than a legal run comes after it. -/
theorem mem_refinements_of_lt (h : r.Legal) {s : Shape} (hs : IsDecomposition r.cards s)
    (hlt : List.lt s.profile r.sorted) : s ∈ r.refinements := by
  obtain ⟨before, hsplit⟩ := rungs_of_legal h
  have hmem : s ∈ decompositions r.cards.toNat := mem_decompositions.mpr (by rwa [Int.toNat_of_nonneg h.cards_nonneg])
  have hdesc := profiles_descending r.cards.toNat
  rw [← hsplit] at hmem hdesc
  rcases List.mem_append.mp hmem with hs | hs
  · have hle := (List.pairwise_append.mp hdesc).2.2 s hs [r.sorted] List.mem_cons_self
    rw [Shape.profile_sorted] at hle
    exact absurd hlt hle
  · rcases List.mem_cons.mp hs with rfl | hs
    · rw [Shape.profile_sorted] at hlt
      exact absurd hlt (List.lt_irrefl _)
    · exact hs

theorem rungs_descending (r : Run) : r.rungs.Pairwise fun s t => List.le t.profile s.profile := by
  by_cases h : r.Legal
  · exact (profiles_descending _).sublist (rungs_of_legal h).sublist
  · rw [rungs_of_not_legal h]
    exact List.pairwise_singleton _ _

theorem nodup_rungs (r : Run) : r.rungs.Nodup := by
  by_cases h : r.Legal
  · exact (Shape.nodup_distinct _).sublist (rungs_of_legal h).sublist
  · simp [rungs_of_not_legal h]

theorem profile_le_of_mem_rungs {s : Shape} (hs : s ∈ r.rungs) : List.le s.profile r.sorted := by
  rw [← Shape.profile_sorted r]
  rcases List.mem_cons.mp hs with rfl | hs
  · exact List.le_refl _
  · exact (List.pairwise_cons.mp r.rungs_descending).1 s hs

/-! ## The last rung -/

section

variable (hr : r.Playable)
include hr

theorem rungs_last : ∃ before, r.rungs = before ++ [r.bottom] := by
  by_cases h : r.Mixed
  · exact ⟨[], by rw [rungs_of_not_legal fun hl => hl.not_mixed h, bottom, if_pos h, List.nil_append]⟩
  · obtain ⟨before, hsplit⟩ := rungs_of_legal (hr.legal h)
    have hlast := getLast?_decompositions r.cards.toNat
    rw [← hsplit, rungs, List.getLast?_append_cons] at hlast
    rw [bottom, if_neg h]
    exact List.getLast?_eq_some_iff.mp hlast

theorem bottom_le_of_mem_rungs {s : Shape} (hs : s ∈ r.rungs) : List.le r.bottom.profile s.profile := by
  obtain ⟨before, hlast⟩ := rungs_last hr
  have hdesc := r.rungs_descending
  rw [hlast] at hs hdesc
  rcases List.mem_append.mp hs with hs | hs
  · exact (List.pairwise_append.mp hdesc).2.2 s hs r.bottom List.mem_cons_self
  · rw [List.mem_singleton.mp hs]
    exact List.le_refl _

omit hr in
theorem bottom_eq_iff : r.bottom = [r.sorted] ↔ r.Stuck := by
  by_cases h : r.Mixed
  · simp [bottom, Stuck, h]
  · rw [bottom, if_neg h, Stuck, or_iff_left h]
    constructor
    · intro hbottom
      have hmem : r.sorted ∈ List.replicate r.cards.toNat [1] := hbottom ▸ List.mem_cons_self
      exact sorted_eq_singleton_iff.mp (List.eq_of_mem_replicate hmem)
    · rintro rfl
      rw [sorted_singleton]
      rfl

/-- A rung with nothing below it is the last one. -/
theorem eq_nil_iff_of_suffix {s : Shape} {rest : List Shape} (h : s :: rest <:+ r.rungs) :
    rest = [] ↔ s = r.bottom := by
  obtain ⟨above, hsplit⟩ := h
  obtain ⟨before, hlast⟩ := rungs_last hr
  have hend : (s :: rest).getLast? = some r.bottom := by
    rw [← List.getLast?_append_cons above, hsplit, hlast, List.getLast?_concat]
  constructor
  · rintro rfl
    simpa using hend
  · rintro rfl
    have hnodup := r.nodup_rungs
    rw [← hsplit, List.nodup_append] at hnodup
    cases rest with
    | nil => rfl
    | cons t rest =>
      rw [List.getLast?_cons_cons] at hend
      exact absurd (List.mem_of_getLast? hend) (List.nodup_cons.mp hnodup.2.1).1

/-- Only the last rung has its tuples. -/
theorem eq_bottom_of_flatten_perm {s : Shape} (hs : s ∈ r.rungs) (hp : s.flatten.Perm r.bottom.flatten) :
    s = r.bottom := by
  by_cases h : r.Mixed
  · rw [rungs_of_not_legal fun hl => hl.not_mixed h, List.mem_singleton] at hs
    rw [hs, bottom, if_pos h]
  · have hlegal := hr.legal h
    have hdec := isDecomposition_of_mem_rungs hlegal hs
    rw [← Int.toNat_of_nonneg hlegal.cards_nonneg] at hdec
    rw [bottom, if_neg h] at hp ⊢
    rw [List.flatten_replicate_singleton] at hp
    exact hdec.eq_singles_of_forall fun v hv => List.eq_of_mem_replicate (hp.mem_iff.mp hv)

theorem refinements_eq_nil_iff : r.refinements = [] ↔ r.Stuck := by
  rw [eq_nil_iff_of_suffix hr (List.suffix_refl r.rungs), ← bottom_eq_iff]
  exact eq_comm

end

end Run

theorem Shape.IsLead.playable {lead : Shape} (h : lead.IsLead) {r : Run} (hr : r ∈ lead) : r.Playable :=
  ⟨h.nonempty r hr, h.positive r hr⟩

namespace Ladder

structure OnWay (r : Run) (l : Ladder) : Prop where
  single : l.single = decide (r.length = 1)
  rungs : l.current :: l.rest <:+ r.rungs

variable {r : Run} {l : Ladder}

theorem onWay_start (r : Run) : OnWay r (start r (decompositions r.cards.toNat)) := by
  refine ⟨rfl, ?_⟩
  rw [rest_start]
  exact List.suffix_refl _

theorem OnWay.advance (h : OnWay r l) : OnWay r l.advance := by
  obtain ⟨current, rest, single⟩ := l
  cases rest with
  | nil => exact h
  | cons s rest => exact ⟨h.single, (List.suffix_cons current _).trans h.rungs⟩

theorem OnWay.current_mem (h : OnWay r l) : l.current ∈ r.rungs := h.rungs.mem List.mem_cons_self

/-- A ladder that shows the run itself was not moved yet. -/
theorem OnWay.rest_of_current (h : OnWay r l) (hc : l.current = [r.sorted]) : l.rest = r.refinements := by
  obtain ⟨above, hsplit⟩ := h.rungs
  rw [hc] at hsplit
  cases above with
  | nil => exact (List.cons.inj hsplit).2
  | cons s above =>
    have hnodup := r.nodup_rungs
    obtain ⟨-, hrest⟩ := List.cons.inj hsplit
    rw [Run.rungs, ← hrest] at hnodup
    exact absurd (List.mem_append_right _ List.mem_cons_self) (List.nodup_cons.mp hnodup).1

theorem profile_advance_le (h : OnWay r l) : List.le l.advance.current.profile l.current.profile := by
  obtain ⟨current, rest, single⟩ := l
  cases rest with
  | nil => exact List.le_refl _
  | cons s rest =>
    have hdesc := r.rungs_descending.sublist h.rungs.sublist
    exact (List.pairwise_cons.mp hdesc).1 s List.mem_cons_self

end Ladder

end Tractor
