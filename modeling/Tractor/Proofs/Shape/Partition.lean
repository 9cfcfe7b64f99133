/-
  Tractor.Proofs.Shape.Partition — the partitions of `n` cards are the descending lists
  of positive sizes with sum `n`.

  One more card raises the first tuple of some size, or lies alone (`mem_additions`).
  Both keep the sizes descending (`IsPartition.of_mem_additions`), and each partition of
  `n + 1` cards arises so: take one card from a tuple of any size, of equal ones the last
  (`IsPartition.lowered`). Sorting and dropping repeats changes no membership, so
  `mem_partitions` follows by induction on `n`, and the order is that of the sort
  (`partitions_descending`). What is sorted has equal partitions side by side, so each is
  kept once (`nodup_partitions`) and the order is strict (`listPartitions_exact`).
-/

import Tractor.Shape.Listing
import Tractor.Proofs.Shape.Repeats

namespace Tractor

structure IsPartition (n : Int) (p : Run) : Prop where
  descending : p.Descending
  positive : ∀ v ∈ p, 1 ≤ v
  cards : p.cards = n

namespace Partition

/-! ## One more card -/

/-- Which sizes were seen counts, not how often or in which order. -/
theorem raisings_congr {seen seen' : Run} (h : ∀ x, x ∈ seen ↔ x ∈ seen') (p : Run) :
    raisings seen p = raisings seen' p := by
  induction p generalizing seen seen' with
  | nil => rfl
  | cons x xs ih =>
    have hcontains : seen.contains x = seen'.contains x := by simp [h]
    have hcons : ∀ y, y ∈ x :: seen ↔ y ∈ x :: seen' := by simp [h]
    rw [raisings, raisings, hcontains, ih h, ih hcons]

theorem raisings_cons (seen : Run) (x : Int) (xs : Run) :
    raisings seen (x :: xs) =
      (if x ∈ seen then [] else [(x + 1) :: xs]) ++ (raisings (x :: seen) xs).map (x :: ·) := by
  by_cases hx : x ∈ seen
  · have hseen : ∀ y, y ∈ seen ↔ y ∈ x :: seen := fun y => by
      rw [List.mem_cons, iff_or_self]
      rintro rfl
      exact hx
    rw [raisings, if_pos (List.contains_iff_mem.mpr hx), if_pos hx, List.nil_append, raisings_congr hseen]
  · rw [raisings, if_neg (fun h => hx (List.contains_iff_mem.mp h)), if_neg hx, List.singleton_append]

/-- A raising adds a card to the first tuple of a size that was not seen. -/
theorem mem_raisings {seen p q : Run} :
    q ∈ raisings seen p ↔ ∃ before x after, p = before ++ x :: after ∧ q = before ++ (x + 1) :: after ∧
      x ∉ before ∧ x ∉ seen := by
  induction p generalizing seen q with
  | nil => simp [raisings]
  | cons y ys ih =>
    rw [raisings_cons, List.mem_append, List.mem_map]
    constructor
    · rintro (h | ⟨q', hq', rfl⟩)
      · split at h
        · cases h
        · rename_i hy
          rw [List.mem_singleton.mp h]
          exact ⟨[], y, ys, rfl, rfl, List.not_mem_nil, hy⟩
      · obtain ⟨before, x, after, rfl, rfl, hx, hseen⟩ := ih.mp hq'
        rw [List.mem_cons, not_or] at hseen
        exact ⟨y :: before, x, after, rfl, rfl, List.not_mem_cons_of_ne_of_not_mem hseen.1 hx, hseen.2⟩
    · rintro ⟨before, x, after, hp, rfl, hx, hseen⟩
      cases before with
      | nil =>
        obtain ⟨rfl, rfl⟩ := List.cons.inj hp
        exact Or.inl (by simp [hseen])
      | cons z before =>
        obtain ⟨rfl, rfl⟩ := List.cons.inj hp
        rw [List.mem_cons, not_or] at hx
        have hseen' := List.not_mem_cons_of_ne_of_not_mem hx.1 hseen
        exact Or.inr ⟨_, ih.mpr ⟨before, x, after, rfl, rfl, hx.2, hseen'⟩, rfl⟩

theorem mem_additions {p q : Run} :
    q ∈ additions p ↔ q = p ++ [1] ∨
      ∃ before x after, p = before ++ x :: after ∧ q = before ++ (x + 1) :: after ∧ x ∉ before := by
  rw [additions, List.mem_append, mem_raisings, List.mem_singleton, or_comm]
  simp

theorem mem_next {ps : List Run} {q : Run} : q ∈ next ps ↔ ∃ p ∈ ps, q ∈ additions p := by
  rw [next, mem_eraseReps, List.mem_mergeSort, grown, List.mem_flatMap]

/-! ## One card less -/

/-- Take one card from the last tuple of size `v`; a single card is gone then. -/
def lowered (v : Int) : Run → Run
  | [] => []
  | x :: xs => if v ∈ xs then x :: lowered v xs else if v = 1 then xs else (v - 1) :: xs

theorem lowered_append {before after : Run} {v : Int} (hv : v ∉ after) :
    lowered v (before ++ v :: after) = before ++ if v = 1 then after else (v - 1) :: after := by
  induction before with
  | nil => simp [lowered, hv]
  | cons x before ih => simp [lowered, ih]

theorem exists_last {v : Int} {q : Run} (hv : v ∈ q) : ∃ before after, q = before ++ v :: after ∧ v ∉ after := by
  obtain ⟨after, before, hq, hafter⟩ := List.eq_append_cons_of_mem (List.mem_reverse.mpr hv)
  refine ⟨before.reverse, after.reverse, ?_, by simpa using hafter⟩
  rw [← List.reverse_reverse q, hq]
  simp

end Partition

/-! ## Descending lists of positive sizes -/

namespace IsPartition

theorem append_single {n : Int} {p : Run} (h : IsPartition n p) : IsPartition (n + 1) (p ++ [1]) := by
  refine ⟨?_, ?_, ?_⟩
  · refine List.pairwise_append.mpr ⟨h.descending, List.pairwise_singleton _ _, fun v hv w hw => ?_⟩
    rw [List.mem_singleton.mp hw]
    exact h.positive v hv
  · intro v hv
    rcases List.mem_append.mp hv with hv | hv
    · exact h.positive v hv
    · have := List.mem_singleton.mp hv
      omega
  · rw [Run.cards_append, h.cards]
    rfl

/-- A tuple may have any other size between those of its neighbours. -/
theorem resize {n : Int} {before after : Run} {x y : Int} (h : IsPartition n (before ++ x :: after))
    (hbefore : ∀ v ∈ before, y ≤ v) (hafter : ∀ v ∈ after, v ≤ y) (hy : 1 ≤ y) :
    IsPartition (n - x + y) (before ++ y :: after) := by
  obtain ⟨hdesc, hpos, hcards⟩ := h
  obtain ⟨hb, ha, hba⟩ := List.pairwise_append.mp hdesc
  rw [List.forall_mem_append, List.forall_mem_cons] at hpos
  refine ⟨?_, ?_, ?_⟩
  · refine List.pairwise_append.mpr ⟨hb, List.pairwise_cons.mpr ⟨hafter, (List.pairwise_cons.mp ha).2⟩, fun v hv => ?_⟩
    exact List.forall_mem_cons.mpr ⟨hbefore v hv, fun w hw => hba v hv w (List.mem_cons_of_mem x hw)⟩
  · exact List.forall_mem_append.mpr ⟨hpos.1, List.forall_mem_cons.mpr ⟨hy, hpos.2.2⟩⟩
  · rw [Run.cards_append, Run.cards_cons] at hcards ⊢
    omega

/-- The first of several equal tuples may grow: those before it are larger. -/
theorem raise_first {n : Int} {before after : Run} {x : Int} (h : IsPartition n (before ++ x :: after)) (hx : x ∉ before) :
    IsPartition (n + 1) (before ++ (x + 1) :: after) := by
  obtain ⟨-, ha, hba⟩ := List.pairwise_append.mp h.descending
  have hpos := h.positive x (List.mem_append_right _ List.mem_cons_self)
  have hbefore : ∀ v ∈ before, x + 1 ≤ v := fun v hv => by
    have hle := hba v hv x List.mem_cons_self
    have hne : v ≠ x := fun e => hx (e ▸ hv)
    omega
  have hafter : ∀ v ∈ after, v ≤ x + 1 := fun v hv => by
    have := (List.pairwise_cons.mp ha).1 v hv
    omega
  have hraised := h.resize hbefore hafter (by omega)
  rwa [show n - x + (x + 1) = n + 1 by omega] at hraised

/-- The last of several equal tuples may shrink: those after it are smaller. -/
theorem lower_last {n : Int} {before after : Run} {x : Int} (h : IsPartition (n + 1) (before ++ x :: after))
    (hx : x ∉ after) (hone : x ≠ 1) : IsPartition n (before ++ (x - 1) :: after) := by
  obtain ⟨-, ha, hba⟩ := List.pairwise_append.mp h.descending
  have hpos := h.positive x (List.mem_append_right _ List.mem_cons_self)
  have hbefore : ∀ v ∈ before, x - 1 ≤ v := fun v hv => by
    have := hba v hv x List.mem_cons_self
    omega
  have hafter : ∀ v ∈ after, v ≤ x - 1 := fun v hv => by
    have hle := (List.pairwise_cons.mp ha).1 v hv
    have hne : v ≠ x := fun e => hx (e ▸ hv)
    omega
  have hlowered := h.resize hbefore hafter (by omega)
  rwa [show n + 1 - x + (x - 1) = n by omega] at hlowered

theorem of_mem_additions {n : Int} {p q : Run} (h : IsPartition n p) (hq : q ∈ Partition.additions p) :
    IsPartition (n + 1) q := by
  rcases Partition.mem_additions.mp hq with rfl | ⟨before, x, after, rfl, rfl, hx⟩
  · exact h.append_single
  · exact h.raise_first hx

/-- A single card stands last, and without it a partition is one of a card less. -/
theorem exists_append_single {n : Int} {q : Run} (h : IsPartition (n + 1) q) (hone : 1 ∈ q) :
    ∃ p, IsPartition n p ∧ q = p ++ [1] := by
  obtain ⟨hdesc, hpos, hcards⟩ := h
  rcases List.eq_nil_or_concat q with rfl | ⟨p, v, rfl⟩
  · cases hone
  rw [List.concat_eq_append] at hdesc hpos hcards hone ⊢
  obtain ⟨hp, -, hlast⟩ := List.pairwise_append.mp hdesc
  have hv : v = 1 := by
    have := hpos v (List.mem_append_right _ List.mem_cons_self)
    rcases List.mem_append.mp hone with hone | hone
    · have := hlast 1 hone v List.mem_cons_self
      omega
    · exact (List.mem_singleton.mp hone).symm
  subst hv
  refine ⟨p, ⟨hp, fun w hw => hpos w (List.mem_append_left _ hw), ?_⟩, rfl⟩
  rw [Run.cards_append, Run.cards_cons] at hcards
  have hnil : Run.cards [] = 0 := rfl
  omega

/-- Without one card of a tuple a partition is one of a card less, to which the card can be
    added again. -/
theorem lowered {n v : Int} {q : Run} (h : IsPartition (n + 1) q) (hv : v ∈ q) :
    IsPartition n (Partition.lowered v q) ∧ q ∈ Partition.additions (Partition.lowered v q) := by
  by_cases hone : v = 1
  · subst hone
    obtain ⟨p, hp, rfl⟩ := h.exists_append_single hv
    have hlowered : Partition.lowered 1 (p ++ [1]) = p := by simp [Partition.lowered_append]
    rw [hlowered]
    exact ⟨hp, Partition.mem_additions.mpr (Or.inl rfl)⟩
  · obtain ⟨before, after, rfl, hafter⟩ := Partition.exists_last hv
    rw [Partition.lowered_append hafter, if_neg hone]
    refine ⟨h.lower_last hafter hone, Partition.mem_additions.mpr (Or.inr ?_)⟩
    refine ⟨before, v - 1, after, rfl, by rw [Int.sub_add_cancel], fun hmem => ?_⟩
    have := (List.pairwise_append.mp h.descending).2.2 (v - 1) hmem v List.mem_cons_self
    omega

theorem exists_additions {n : Nat} {q : Run} (h : IsPartition (n + 1 : Nat) q) :
    ∃ p, IsPartition n p ∧ q ∈ Partition.additions p := by
  have hsucc : IsPartition ((n : Int) + 1) q := h
  have hne : q ≠ [] := by
    rintro rfl
    have hnil : Run.cards [] = 0 := rfl
    have := h.cards
    omega
  obtain ⟨v, hv⟩ := List.exists_mem_of_ne_nil q hne
  exact ⟨_, hsucc.lowered hv⟩

/-- Nothing is split only into nothing. -/
theorem eq_nil {p : Run} (h : IsPartition 0 p) : p = [] := by
  obtain ⟨-, hpos, hcards⟩ := h
  have := Run.mul_length_le_cards hpos
  exact List.eq_nil_of_length_eq_zero (by omega)

end IsPartition

theorem mem_partitions {n : Nat} {p : Run} : p ∈ partitions n ↔ IsPartition n p := by
  induction n generalizing p with
  | zero =>
    constructor
    · intro h
      rw [List.mem_singleton.mp h]
      exact ⟨List.Pairwise.nil, fun v hv => absurd hv List.not_mem_nil, rfl⟩
    · intro h
      rw [h.eq_nil]
      exact List.mem_singleton.mpr rfl
  | succ n ih =>
    rw [partitions, Partition.mem_next]
    constructor
    · rintro ⟨q, hq, hp⟩
      exact (ih.mp hq).of_mem_additions hp
    · intro h
      obtain ⟨q, hq, hp⟩ := h.exists_additions
      exact ⟨q, ih.mpr hq, hp⟩

/-- Larger partitions come first. -/
theorem partitions_descending (n : Nat) : (partitions n).Pairwise fun p q => List.le q p := by
  cases n with
  | zero => exact List.pairwise_singleton _ _
  | succ n =>
    have hsorted := Shape.canonical_descending (Partition.grown (partitions n))
    exact hsorted.sublist (eraseReps_sublist _)

theorem nodup_partitions (n : Nat) : (partitions n).Nodup := by
  cases n with
  | zero => exact List.nodup_cons.mpr ⟨List.not_mem_nil, List.nodup_nil⟩
  | succ n =>
    have hsorted := Shape.canonical_descending (Partition.grown (partitions n))
    exact nodup_eraseReps (fun p q hqp hpq => List.le_antisymm hpq hqp) hsorted

theorem partitions_strictly_descending (n : Nat) : (partitions n).Pairwise fun p q => List.lt q p := by
  refine (partitions_descending n).imp₂ (fun p q hle hne => ?_) (nodup_partitions n)
  exact (List.le_iff_lt_or_eq.mp hle).resolve_right (Ne.symm hne)

/-- The listing of `n` cards gives each descending list of positive sizes with sum `n` once,
    and each before all that are lexicographically smaller. -/
theorem listPartitions_exact (n : Int) (hn : 1 ≤ n) :
    ∃ ps, listPartitions n = .ok ps ∧ (∀ p, p ∈ ps ↔ IsPartition n p) ∧ ps.Nodup ∧
      ps.Pairwise fun p q => List.lt q p := by
  refine ⟨partitions n.toNat, ?_, fun p => ?_, nodup_partitions _, partitions_strictly_descending _⟩
  · rw [listPartitions, if_neg (by omega)]
  · rw [mem_partitions, Int.toNat_of_nonneg (by omega)]

/-- Of six cards two triples come before a pair and four single cards; with a single card
    before the pair these are no partition. -/
theorem listPartitions_exact_six :
    (1 : Int) ≤ 6 ∧ ∃ ps, listPartitions 6 = .ok ps ∧ [3, 3] ∈ ps ∧ [2, 1, 1, 1, 1] ∈ ps ∧
      ¬ [[2, 1, 1, 1, 1], [3, 3]].Sublist ps ∧ [1, 2, 1, 1, 1] ∉ ps := by
  obtain ⟨ps, hok, hmem, -, horder⟩ := listPartitions_exact 6 (by decide)
  have htriples : IsPartition 6 [3, 3] := ⟨by decide, by decide, by decide⟩
  have hpair : IsPartition 6 [2, 1, 1, 1, 1] := ⟨by decide, by decide, by decide⟩
  refine ⟨by decide, ps, hok, (hmem _).mpr htriples, (hmem _).mpr hpair, fun hsub => ?_, fun hp => ?_⟩
  · exact absurd (List.pairwise_iff_forall_sublist.mp horder hsub) (by decide)
  · exact absurd ((hmem _).mp hp).descending (by decide)

end Tractor
