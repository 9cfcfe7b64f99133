/-
  Tractor.Proofs.Shape.Sorting — sorting by a number.

  - `map_mergeSort_ascending`: numbers that differ come out strictly ascending, which only
    one order of them is (`eq_of_perm_of_ascending`).
  - `sortDown`: the greatest first, and equal ones in the order in which they stood. An
    element put in front comes out behind the greater ones and before all others
    (`sortDown_cons`). So the result is one level after another (`sortDown_eq_byLevel`), and
    what is taken out of it is what is taken out before and then sorted
    (`filter_sortDown`).
-/

namespace Tractor

variable {α : Type} (key : α → Nat)

/-- Sorting by keys that differ leaves them in strictly ascending order. -/
theorem map_mergeSort_ascending {l : List α} (h : (l.map key).Nodup) :
    ((l.mergeSort fun a b => decide (key a ≤ key b)).map key).Pairwise (· < ·) := by
  have hle : (l.mergeSort fun a b => decide (key a ≤ key b)).Pairwise fun a b => decide (key a ≤ key b) = true := by
    refine List.pairwise_mergeSort (fun a b c hab hbc => ?_) (fun a b => ?_) l
    · simp only [decide_eq_true_eq] at hab hbc ⊢
      omega
    · simp only [Bool.or_eq_true, decide_eq_true_eq]
      omega
  have hne := ((List.mergeSort_perm l fun a b => decide (key a ≤ key b)).map key).nodup_iff.mpr h
  refine List.pairwise_map.mpr (hle.imp₂ (fun a b hab hne => ?_) (List.pairwise_map.mp hne))
  have := of_decide_eq_true hab
  omega

/-- Only one order is strictly ascending. -/
theorem eq_of_perm_of_ascending {l l' : List α} (h : l.Perm l') (hl : l.Pairwise fun a b => key a < key b)
    (hl' : l'.Pairwise fun a b => key a < key b) : l = l' :=
  h.eq_of_pairwise (fun _ _ _ _ hab hba => absurd hab (Nat.lt_asymm hba)) hl hl'

def sortDown (l : List α) : List α := l.mergeSort fun a b => decide (key b ≤ key a)

/-- The elements with key `k`, then those with the next lower key, and so on. -/
def byLevel (l : List α) : Nat → List α
  | 0 => l.filter fun a => key a == 0
  | k + 1 => l.filter (fun a => key a == k + 1) ++ byLevel l k

theorem sortDown_perm (l : List α) : (sortDown key l).Perm l := List.mergeSort_perm ..

theorem sortDown_le_trans (a b c : α) (hab : decide (key b ≤ key a) = true) (hbc : decide (key c ≤ key b) = true) :
    decide (key c ≤ key a) = true := by
  simp only [decide_eq_true_eq] at hab hbc ⊢
  omega

theorem sortDown_le_total (a b : α) : (decide (key b ≤ key a) || decide (key a ≤ key b)) = true := by
  simp only [Bool.or_eq_true, decide_eq_true_eq]
  omega

theorem sortDown_descending (l : List α) : (sortDown key l).Pairwise fun a b => key b ≤ key a :=
  (List.pairwise_mergeSort (sortDown_le_trans key) (sortDown_le_total key) l).imp fun h => of_decide_eq_true h

theorem sortDown_of_descending {l : List α} (h : l.Pairwise fun a b => key b ≤ key a) : sortDown key l = l :=
  List.mergeSort_of_pairwise (h.imp fun h => decide_eq_true h)

theorem sortDown_map {β : Type} (f : β → α) (l : List β) :
    sortDown key (l.map f) = (sortDown (fun b => key (f b)) l).map f := by
  unfold sortDown
  rw [List.map_mergeSort]
  intro a _ b _
  rfl

variable {key}

/-- What stands in front comes out behind the greater ones and before all others. -/
theorem sortDown_cons {x : α} {l greater others : List α} (h : sortDown key l = greater ++ others)
    (hg : ∀ a ∈ greater, key x < key a) (ho : ∀ a ∈ others, key a ≤ key x) :
    sortDown key (x :: l) = greater ++ x :: others := by
  obtain ⟨front, back, hsort, hl, hfront⟩ := List.mergeSort_cons (sortDown_le_trans key) (sortDown_le_total key) x l
  have hdesc := sortDown_descending key (x :: l)
  rw [sortDown, hsort] at hdesc ⊢
  have hback := (List.pairwise_cons.mp (List.pairwise_append.mp hdesc).2.1).1
  -- both splits divide the sorted rest into what is greater than `x` and what is not
  have hsplit : front ++ back = greater ++ others := hl.symm.trans h
  have hf : (front ++ back).filter (fun a => key x < key a) = front := by
    rw [List.filter_append, List.filter_eq_self.mpr, List.filter_eq_nil_iff.mpr, List.append_nil]
    · intro a ha
      have := hback a ha
      simp only [decide_eq_true_eq]
      omega
    · intro a ha
      simpa using hfront a ha
  have hgr : (greater ++ others).filter (fun a => key x < key a) = greater := by
    rw [List.filter_append, List.filter_eq_self.mpr, List.filter_eq_nil_iff.mpr, List.append_nil]
    · intro a ha
      have := ho a ha
      simp only [decide_eq_true_eq]
      omega
    · intro a ha
      simpa using hg a ha
  have hfg : front = greater := by rw [← hf, hsplit, hgr]
  subst hfg
  rw [List.append_cancel_left hsplit]

theorem le_of_mem_byLevel {l : List α} {k : Nat} {a : α} (h : a ∈ byLevel key l k) : key a ≤ k := by
  induction k with
  | zero =>
    have := (List.mem_filter.mp h).2
    rw [beq_iff_eq] at this
    omega
  | succ k ih =>
    rcases List.mem_append.mp h with h | h
    · have := (List.mem_filter.mp h).2
      rw [beq_iff_eq] at this
      omega
    · have := ih h
      omega

theorem byLevel_cons_of_lt {x : α} {k : Nat} (h : k < key x) (l : List α) : byLevel key (x :: l) k = byLevel key l k := by
  induction k with
  | zero => rw [byLevel, List.filter_cons_of_neg (by rw [beq_iff_eq]; omega), byLevel]
  | succ k ih => rw [byLevel, List.filter_cons_of_neg (by rw [beq_iff_eq]; omega), ih (by omega), byLevel]

/-- An element stands first on its level. -/
theorem byLevel_cons {x : α} {k : Nat} (h : key x ≤ k) (l : List α) :
    ∃ greater others, byLevel key l k = greater ++ others ∧ byLevel key (x :: l) k = greater ++ x :: others ∧
      (∀ a ∈ greater, key x < key a) ∧ ∀ a ∈ others, key a ≤ key x := by
  induction k with
  | zero =>
    refine ⟨[], byLevel key l 0, rfl, ?_, fun a ha => absurd ha List.not_mem_nil, fun a ha => ?_⟩
    · rw [byLevel, List.filter_cons_of_pos (by rw [beq_iff_eq]; omega)]
      rfl
    · have := le_of_mem_byLevel ha
      omega
  | succ k ih =>
    by_cases hx : key x = k + 1
    · refine ⟨[], byLevel key l (k + 1), rfl, ?_, fun a ha => absurd ha List.not_mem_nil, fun a ha => ?_⟩
      · rw [byLevel, List.filter_cons_of_pos (by rw [beq_iff_eq]; omega), byLevel_cons_of_lt (by omega)]
        rfl
      · rw [hx]
        exact le_of_mem_byLevel ha
    · obtain ⟨greater, others, hl, hxl, hg, ho⟩ := ih (by omega)
      refine ⟨l.filter (fun a => key a == k + 1) ++ greater, others, ?_, ?_, ?_, ho⟩
      · rw [byLevel, hl, List.append_assoc]
      · rw [byLevel, List.filter_cons_of_neg (by rwa [beq_iff_eq]), hxl, List.append_assoc]
      · intro a ha
        rcases List.mem_append.mp ha with ha | ha
        · have := (List.mem_filter.mp ha).2
          rw [beq_iff_eq] at this
          omega
        · exact hg a ha

theorem sortDown_eq_byLevel {l : List α} {k : Nat} (h : ∀ a ∈ l, key a ≤ k) : sortDown key l = byLevel key l k := by
  induction l with
  | nil =>
    have : ∀ k, byLevel key [] k = [] := by
      intro k
      induction k with
      | zero => rfl
      | succ k ih => rw [byLevel, ih]; rfl
    rw [this, sortDown, List.mergeSort_nil]
  | cons x l ih =>
    rw [List.forall_mem_cons] at h
    obtain ⟨greater, others, hl, hxl, hg, ho⟩ := byLevel_cons h.1 l
    rw [hxl]
    exact sortDown_cons ((ih h.2).trans hl) hg ho

theorem filter_byLevel (p : α → Bool) (l : List α) (k : Nat) :
    (byLevel key l k).filter p = byLevel key (l.filter p) k := by
  induction k with
  | zero => simp [byLevel, Bool.and_comm]
  | succ k ih => simp [byLevel, ih, Bool.and_comm]

/-- Whether one sorts before or after taking out makes no difference. -/
theorem filter_sortDown (p : α → Bool) (l : List α) : (sortDown key l).filter p = sortDown key (l.filter p) := by
  have hmax : ∀ a ∈ l, key a ≤ (l.map key).max?.getD 0 := by
    intro a ha
    exact List.le_max?_getD_of_mem (List.mem_map_of_mem ha)
  have hmax' : ∀ a ∈ l.filter p, key a ≤ (l.map key).max?.getD 0 := by
    intro a ha
    exact hmax a (List.mem_filter.mp ha).1
  rw [sortDown_eq_byLevel hmax, sortDown_eq_byLevel hmax', filter_byLevel]

end Tractor
