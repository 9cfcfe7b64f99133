/-
  Tractor.Shape.Basic — runs, shapes, and when two shapes are the same.

  A tuple is a set of equal cards, named by its size. A run is the sizes of the
  tuples played at consecutive ranks, and a shape is the runs of one play. The order
  of the tuples in a run matters; the order of the runs of a shape does not, so every
  shape has a canonical form: its runs in descending lexicographic order.

  - `Run.le`: the lexicographic order of runs, which is total (`le_refl`, `le_total`,
    `le_trans`, `le_antisymm`).
  - `Shape.canonical`: two shapes share it exactly when one reorders the other's runs.
  - `Shape.distinct`: of the shapes that reorder one another, the first is kept.
-/

import Std.Data.HashSet

namespace Tractor

/-- The tuple sizes at consecutive ranks. -/
abbrev Run := List Int

namespace Run

/-- Lexicographic order; a proper beginning of a run comes before it. -/
def le : Run → Run → Bool
  | [], _ => true
  | _ :: _, [] => false
  | x :: xs, y :: ys => decide (x < y) || (decide (x = y) && le xs ys)

def sorted (r : Run) : Run := r.mergeSort fun x y => decide (y ≤ x)

def cards (r : Run) : Int := r.foldr (· + ·) 0

theorem le_refl (a : Run) : le a a = true := by
  induction a with
  | nil => rfl
  | cons x xs ih => simp [le, ih]

theorem le_cons (x y : Int) (xs ys : Run) :
    le (x :: xs) (y :: ys) = true ↔ x < y ∨ x = y ∧ le xs ys = true := by
  simp [le]

theorem le_total (a b : Run) : (le a b || le b a) = true := by
  induction a generalizing b with
  | nil => rfl
  | cons x xs ih =>
    cases b with
    | nil => rfl
    | cons y ys =>
      rw [Bool.or_eq_true, le_cons, le_cons]
      rcases Int.lt_trichotomy x y with h | h | h
      · exact Or.inl (Or.inl h)
      · rcases Bool.or_eq_true .. ▸ ih ys with i | i
        · exact Or.inl (Or.inr ⟨h, i⟩)
        · exact Or.inr (Or.inr ⟨h.symm, i⟩)
      · exact Or.inr (Or.inl h)

theorem le_trans (a b c : Run) (hab : le a b = true) (hbc : le b c = true) : le a c = true := by
  induction a generalizing b c with
  | nil => rfl
  | cons x xs ih =>
    cases b with
    | nil => simp [le] at hab
    | cons y ys =>
      cases c with
      | nil => simp [le] at hbc
      | cons z zs =>
        rw [le_cons] at hab hbc ⊢
        rcases hab with h | ⟨h, i⟩ <;> rcases hbc with k | ⟨k, j⟩
        · exact Or.inl (Int.lt_trans h k)
        · exact Or.inl (k ▸ h)
        · exact Or.inl (h ▸ k)
        · exact Or.inr ⟨h.trans k, ih ys zs i j⟩

theorem le_antisymm (a b : Run) (hab : le a b = true) (hba : le b a = true) : a = b := by
  induction a generalizing b with
  | nil =>
    cases b with
    | nil => rfl
    | cons y ys => simp [le] at hba
  | cons x xs ih =>
    cases b with
    | nil => simp [le] at hab
    | cons y ys =>
      rw [le_cons] at hab hba
      rcases hab with h | ⟨h, i⟩ <;> rcases hba with k | ⟨_, j⟩
      · omega
      · omega
      · omega
      · rw [h, ih ys i j]

end Run

abbrev Shape := List Run

namespace Shape

def canonical (s : Shape) : Shape := s.mergeSort fun a b => Run.le b a

def cards (s : Shape) : Int := s.foldr (fun r n => r.cards + n) 0

/-- `kept` is what was kept so far, the latest first, and `seen` its canonical forms. -/
def distinctFrom (seen : Std.HashSet Shape) (kept : List Shape) : List Shape → List Shape
  | [] => kept.reverse
  | s :: rest =>
    if seen.contains s.canonical then distinctFrom seen kept rest
    else distinctFrom (seen.insert s.canonical) (s :: kept) rest

/-- Drop every shape that reorders the runs of an earlier one. -/
def distinct (shapes : List Shape) : List Shape := distinctFrom ∅ [] shapes

end Shape

end Tractor
