/-
  Tractor.Proofs.Shape.Canonical — sorting runs and shapes loses nothing and leaves one
  form.

  - `Run.le_iff`: runs are compared in the lexicographic order of lists.
  - `Run.sorted_perm`, `Run.sorted_descending`: a sorted run has the same tuples, from
    large to small.
  - `Shape.canonical_perm`, `Shape.canonical_descending`: a canonical shape has the same
    runs in descending order; a shape that is in that order is its own canonical form
    (`Shape.canonical_of_descending`).
  - `Shape.canonical_eq_iff`: two shapes share their canonical form exactly when one
    reorders the other's runs.
-/

import Tractor.Shape.Basic

namespace Tractor

namespace Run

theorem le_iff (a b : Run) : le a b = true ↔ List.le a b := by
  induction a generalizing b with
  | nil => exact ⟨fun _ => List.nil_le b, fun _ => rfl⟩
  | cons x xs ih =>
    cases b with
    | nil => exact ⟨fun h => absurd h Bool.false_ne_true, fun h => absurd List.Lex.nil h⟩
    | cons y ys =>
      rw [le_cons, ih]
      exact List.cons_le_cons_iff.symm

def Descending (r : Run) : Prop := r.Pairwise fun x y => y ≤ x

instance (r : Run) : Decidable r.Descending := inferInstanceAs (Decidable (r.Pairwise fun x y => y ≤ x))

theorem sorted_perm (r : Run) : r.sorted.Perm r := List.mergeSort_perm ..

theorem sorted_descending (r : Run) : r.sorted.Descending := by
  have h : r.sorted.Pairwise fun x y => decide (y ≤ x) = true := by
    refine List.pairwise_mergeSort (fun a b c hab hbc => ?_) (fun a b => ?_) r
    · simp only [decide_eq_true_eq] at hab hbc ⊢
      omega
    · simp only [Bool.or_eq_true, decide_eq_true_eq]
      omega
  exact h.imp fun h => of_decide_eq_true h

/-- Only one order of the tuples is descending. -/
theorem Descending.eq_of_perm {a b : Run} (ha : a.Descending) (hb : b.Descending) (h : a.Perm b) : a = b :=
  h.eq_of_pairwise (fun _ _ _ _ hxy hyx => Int.le_antisymm hyx hxy) ha hb

theorem cards_cons (v : Int) (r : Run) : cards (v :: r) = v + cards r := rfl

theorem cards_append (a b : Run) : cards (a ++ b) = cards a + cards b := by
  induction a with
  | nil => simp [cards]
  | cons v a ih => rw [List.cons_append, cards_cons, cards_cons, ih]; omega

theorem cards_perm {a b : Run} (h : a.Perm b) : a.cards = b.cards := by
  induction h with
  | nil => rfl
  | cons v _ ih => rw [cards_cons, cards_cons, ih]
  | swap v w r => simp only [cards_cons]; omega
  | trans _ _ ih₁ ih₂ => exact ih₁.trans ih₂

theorem cards_replicate (k : Nat) (v : Int) : cards (List.replicate k v) = k * v := by
  induction k with
  | zero => simp [cards]
  | succ k ih => rw [List.replicate_succ, cards_cons, ih, Int.natCast_add, Int.add_mul]; omega

/-- Tuples of at least `k` cards each take at least `k` cards each. -/
theorem mul_length_le_cards {k : Int} {r : Run} (h : ∀ v ∈ r, k ≤ v) : k * r.length ≤ r.cards := by
  induction r with
  | nil => simp [cards]
  | cons v r ih =>
    rw [cards_cons, List.length_cons, Int.natCast_add, Int.mul_add]
    have := h v List.mem_cons_self
    have := ih fun w hw => h w (List.mem_cons_of_mem v hw)
    omega

end Run

namespace Shape

def Descending (s : Shape) : Prop := s.Pairwise fun a b => List.le b a

instance (s : Shape) : Decidable s.Descending := inferInstanceAs (Decidable (s.Pairwise fun a b => List.le b a))

theorem canonical_perm (s : Shape) : s.canonical.Perm s := List.mergeSort_perm ..

theorem canonical_descending (s : Shape) : s.canonical.Descending := by
  have h : s.canonical.Pairwise fun a b => Run.le b a = true :=
    List.pairwise_mergeSort (fun a b c hab hbc => Run.le_trans c b a hbc hab) (fun a b => Run.le_total b a) s
  exact h.imp fun h => (Run.le_iff _ _).mp h

theorem canonical_of_descending {s : Shape} (h : s.Descending) : s.canonical = s :=
  List.mergeSort_of_pairwise (h.imp fun h => (Run.le_iff _ _).mpr h)

/-- Only one order of the runs is descending. -/
theorem Descending.eq_of_perm {a b : Shape} (ha : a.Descending) (hb : b.Descending) (h : a.Perm b) : a = b :=
  h.eq_of_pairwise (fun r t _ _ hrt htr => Run.le_antisymm r t ((Run.le_iff r t).mpr htr) ((Run.le_iff t r).mpr hrt))
    ha hb

theorem canonical_eq_of_perm {a b : Shape} (h : a.Perm b) : a.canonical = b.canonical :=
  a.canonical_descending.eq_of_perm b.canonical_descending
    ((a.canonical_perm.trans h).trans b.canonical_perm.symm)

theorem canonical_eq {a b : Shape} (h : a.Perm b) (hb : b.Descending) : a.canonical = b :=
  (canonical_eq_of_perm h).trans (canonical_of_descending hb)

theorem canonical_eq_iff {a b : Shape} : a.canonical = b.canonical ↔ a.Perm b := by
  constructor
  · intro h
    exact a.canonical_perm.symm.trans (h ▸ b.canonical_perm)
  · exact canonical_eq_of_perm

theorem cards_eq_flatten (s : Shape) : s.cards = Run.cards s.flatten := by
  induction s with
  | nil => rfl
  | cons r s ih =>
    rw [List.flatten_cons, Run.cards_append, ← ih]
    rfl

theorem cards_cons (r : Run) (s : Shape) : cards (r :: s) = r.cards + cards s := rfl

theorem cards_append (a b : Shape) : cards (a ++ b) = cards a + cards b := by
  rw [cards_eq_flatten, cards_eq_flatten, cards_eq_flatten, List.flatten_append, Run.cards_append]

theorem cards_perm {a b : Shape} (h : a.Perm b) : a.cards = b.cards := by
  rw [cards_eq_flatten, cards_eq_flatten, Run.cards_perm h.flatten]

theorem cards_nonneg {s : Shape} (h : ∀ r ∈ s, 0 ≤ r.cards) : 0 ≤ s.cards := by
  induction s with
  | nil => exact Int.le_refl 0
  | cons r s ih =>
    rw [List.forall_mem_cons] at h
    rw [cards_cons]
    have := ih h.2
    omega

theorem cards_le_of_mem {s : Shape} (h : ∀ r ∈ s, 0 ≤ r.cards) {t : Run} (ht : t ∈ s) : t.cards ≤ s.cards := by
  rw [cards_perm (List.perm_cons_erase ht), cards_cons]
  have hrest : 0 ≤ cards (s.erase t) := cards_nonneg fun r hr => h r (List.mem_of_mem_erase hr)
  omega

end Shape

end Tractor
