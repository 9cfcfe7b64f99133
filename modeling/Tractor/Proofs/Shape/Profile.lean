/-
  Tractor.Proofs.Shape.Profile — how much a shape demands, told by its tuple sizes.

  The profile of a shape is all its tuple sizes from large to small, and a shape demands
  less than another when its profile is lexicographically smaller. That is so exactly when
  it has fewer tuples of some size and equally many of each larger one
  (`Run.sorted_lt_iff`). How many tuples there are of a size adds up when shapes are put
  together, so:

  - `Run.sorted_append_le`, `Run.sorted_flatten_le`: parts that demand no more demand no
    more together.
  - `Run.forall₂_perm_of_flatten_perm`: if they have the same tuples together, each part
    has the same tuples.

  The shapes of a partition have its sizes as their profile (`profile_of_mem_ofPartition`).
  Of the decompositions of `n` cards the one into single cards demands least
  (`IsDecomposition.eq_singles`).
-/

import Tractor.Proofs.Shape.Decomposition

namespace Tractor

namespace Run

def Weaker (a b : Run) : Prop := ∃ v, a.count v < b.count v ∧ ∀ w, v < w → a.count w = b.count w

variable {a b c d : Run}

/-! ## Sorted runs -/

theorem sorted_eq_iff : a.sorted = b.sorted ↔ a.Perm b := by
  constructor
  · intro h
    exact a.sorted_perm.symm.trans (h ▸ b.sorted_perm)
  · intro h
    exact a.sorted_descending.eq_of_perm b.sorted_descending ((a.sorted_perm.trans h).trans b.sorted_perm.symm)

theorem sorted_eq (h : a.Perm b) (hb : b.Descending) : a.sorted = b :=
  a.sorted_descending.eq_of_perm hb (a.sorted_perm.trans h)

theorem sorted_of_descending (h : a.Descending) : a.sorted = a := sorted_eq (List.Perm.refl a) h

@[simp] theorem sorted_sorted (a : Run) : a.sorted.sorted = a.sorted := sorted_of_descending a.sorted_descending

@[simp] theorem sorted_singleton (v : Int) : sorted [v] = [v] := sorted_of_descending (List.pairwise_singleton _ v)

@[simp] theorem count_sorted (a : Run) (v : Int) : a.sorted.count v = a.count v := a.sorted_perm.count_eq v

/-- No tuple of a sorted run is larger than its first. -/
theorem count_eq_zero_of_descending {x v : Int} (h : Descending (x :: a)) (hv : x < v) : List.count v (x :: a) = 0 := by
  apply List.count_eq_zero.mpr
  intro hmem
  rcases List.mem_cons.mp hmem with rfl | hmem
  · omega
  · have := (List.pairwise_cons.mp h).1 v hmem
    omega

/-! ## Fewer tuples of the largest size that differs -/

theorem Weaker.not_perm (h : a.Weaker b) : ¬ a.Perm b := by
  intro hp
  obtain ⟨v, hv, -⟩ := h
  rw [hp.count_eq] at hv
  omega

theorem weaker_cons_self {x : Int} : Weaker (x :: a) (x :: b) ↔ a.Weaker b := by
  simp [Weaker, List.count_cons]

theorem weaker_of_head_lt {x y : Int} (ha : Descending (x :: a)) (hb : Descending (y :: b)) (h : x < y) :
    Weaker (x :: a) (y :: b) := by
  refine ⟨y, ?_, fun w hw => ?_⟩
  · simp [count_eq_zero_of_descending ha h]
  · rw [count_eq_zero_of_descending ha (by omega), count_eq_zero_of_descending hb hw]

theorem not_weaker_of_head_lt {x y : Int} (hb : Descending (y :: b)) (h : y < x) : ¬ Weaker (x :: a) (y :: b) := by
  rintro ⟨v, hv, hlarger⟩
  by_cases hvx : v < x
  · have hx := hlarger x hvx
    simp [count_eq_zero_of_descending hb h] at hx
  · rw [count_eq_zero_of_descending hb (by omega : y < v)] at hv
    omega

/-- Of two sorted runs the one with fewer of the largest tuples that differ is the smaller. -/
theorem weaker_iff_lt (ha : a.Descending) (hb : b.Descending) : a.Weaker b ↔ List.lt a b := by
  induction a generalizing b with
  | nil =>
    cases b with
    | nil => exact iff_of_false (fun h => h.not_perm (List.Perm.refl _)) (List.not_lt_nil _)
    | cons y b =>
      refine iff_of_true ⟨y, by simp, fun w hw => ?_⟩ (List.nil_lt_cons y b)
      rw [count_eq_zero_of_descending hb hw, List.count_nil]
  | cons x a ih =>
    cases b with
    | nil => exact iff_of_false (fun ⟨v, hv, _⟩ => by simp at hv) (List.not_lt_nil _)
    | cons y b =>
      rw [show List.lt (x :: a) (y :: b) ↔ x < y ∨ x = y ∧ List.lt a b from List.cons_lt_cons_iff]
      rcases Int.lt_trichotomy x y with h | rfl | h
      · exact iff_of_true (weaker_of_head_lt ha hb h) (Or.inl h)
      · rw [weaker_cons_self, ih (List.pairwise_cons.mp ha).2 (List.pairwise_cons.mp hb).2]
        simp
      · exact iff_of_false (not_weaker_of_head_lt hb h) (by omega)

theorem sorted_lt_iff : List.lt a.sorted b.sorted ↔ a.Weaker b := by
  rw [← weaker_iff_lt a.sorted_descending b.sorted_descending]
  simp only [Weaker, count_sorted]

theorem sorted_le_iff : List.le a.sorted b.sorted ↔ a.Weaker b ∨ a.Perm b := by
  rw [← sorted_lt_iff, ← sorted_eq_iff]
  exact List.le_iff_lt_or_eq

/-! ## Runs put together -/

theorem Weaker.append (h : a.Weaker b) (k : c.Weaker d ∨ c.Perm d) : Weaker (a ++ c) (b ++ d) := by
  obtain ⟨v, hv, hlarger⟩ := h
  unfold Weaker
  simp only [List.count_append]
  rcases k with ⟨u, hu, hlarger'⟩ | hp
  · -- the larger of the two sizes decides
    rcases Int.lt_trichotomy v u with h | rfl | h
    · exact ⟨u, by have := hlarger u h; omega, fun w hw => by rw [hlarger w (by omega), hlarger' w hw]⟩
    · exact ⟨v, by omega, fun w hw => by rw [hlarger w hw, hlarger' w hw]⟩
    · exact ⟨v, by have := hlarger' v h; omega, fun w hw => by rw [hlarger w hw, hlarger' w (by omega)]⟩
  · exact ⟨v, by have := hp.count_eq v; omega, fun w hw => by rw [hlarger w hw, hp.count_eq]⟩

theorem Weaker.append_left (h : c.Weaker d) (k : a.Weaker b ∨ a.Perm b) : Weaker (a ++ c) (b ++ d) := by
  have hcomm : ∀ x y : Run, sorted (x ++ y) = sorted (y ++ x) := fun x y => sorted_eq_iff.mpr List.perm_append_comm
  rw [← sorted_lt_iff, hcomm a, hcomm b, sorted_lt_iff]
  exact h.append k

theorem sorted_append_le (h : List.le a.sorted b.sorted) (k : List.le c.sorted d.sorted) :
    List.le (sorted (a ++ c)) (sorted (b ++ d)) := by
  rw [sorted_le_iff] at h k ⊢
  rcases h with h | h
  · exact Or.inl (h.append k)
  · rcases k with k | k
    · exact Or.inl (k.append_left (Or.inr h))
    · exact Or.inr (h.append k)

theorem perm_of_append_perm (h : List.le a.sorted b.sorted) (k : List.le c.sorted d.sorted)
    (hp : (a ++ c).Perm (b ++ d)) : a.Perm b ∧ c.Perm d := by
  rw [sorted_le_iff] at h k
  constructor
  · exact h.resolve_left fun h => (h.append k).not_perm hp
  · exact k.resolve_left fun k => (k.append_left h).not_perm hp

section

variable {as bs : List Run} (h : List.Forall₂ (fun a b => List.le a.sorted b.sorted) as bs)
include h

theorem sorted_flatten_le : List.le (sorted as.flatten) (sorted bs.flatten) := by
  induction h with
  | nil => exact List.le_refl _
  | cons hab _ ih => exact sorted_append_le hab ih

theorem forall₂_perm_of_flatten_perm (hp : as.flatten.Perm bs.flatten) : List.Forall₂ List.Perm as bs := by
  induction h with
  | nil => exact .nil
  | cons hab hrest ih =>
    obtain ⟨hab, hp⟩ := perm_of_append_perm hab (sorted_flatten_le hrest) hp
    exact .cons hab (ih hp)

end

end Run

/-! ## Profiles -/

namespace Shape

def profile (s : Shape) : Run := Run.sorted s.flatten

theorem profile_perm {s t : Shape} (h : s.Perm t) : s.profile = t.profile := Run.sorted_eq_iff.mpr h.flatten

theorem profile_canonical (s : Shape) : s.canonical.profile = s.profile := profile_perm s.canonical_perm

@[simp] theorem profile_singleton (r : Run) : profile [r] = r.sorted := by simp [profile]

theorem profile_sorted (r : Run) : profile [r.sorted] = r.sorted := by simp

end Shape

theorem profile_of_mem_ofPartition {n : Int} {p : Run} {s : Shape} (h : IsPartition n p)
    (hs : s ∈ Decomposition.ofPartition p) : s.profile = p :=
  Run.sorted_eq (Decomposition.flatten_perm_of_mem_ofPartition h hs) h.descending

/-! ## Single cards only -/

theorem cards_replicate_single (n : Nat) : Shape.cards (List.replicate n [1]) = n := by
  rw [Shape.cards_eq_flatten, List.flatten_replicate_singleton, Run.cards_replicate, Int.mul_one]

theorem isDecomposition_singles (n : Nat) : IsDecomposition n (List.replicate n [1]) := by
  refine ⟨fun r hr => ?_, cards_replicate_single n, ?_⟩
  · rw [List.eq_of_mem_replicate hr]
    exact ⟨List.cons_ne_nil 1 [], Or.inl rfl⟩
  · exact List.pairwise_replicate.mpr (Or.inr (List.le_refl _))

namespace IsDecomposition

variable {n : Nat} {s : Shape} (h : IsDecomposition n s)
include h

theorem eq_singles_of_forall (hone : ∀ v ∈ s.flatten, v = 1) : s = List.replicate n [1] := by
  have hs : s = List.replicate s.length [1] := by
    refine List.eq_replicate_iff.mpr ⟨rfl, fun r hr => (h.legal r hr).2.resolve_right fun htwo => ?_⟩
    obtain ⟨v, hv⟩ := List.exists_mem_of_ne_nil r (h.legal r hr).1
    have := htwo v hv
    have := hone v (List.mem_flatten.mpr ⟨r, hr, hv⟩)
    omega
  have hcards := h.cards
  rw [hs, cards_replicate_single] at hcards
  rwa [Int.ofNat_inj.mp hcards] at hs

/-- Nothing demands less than single cards. -/
theorem eq_singles (hle : List.le s.profile (Shape.profile (List.replicate n [1]))) : s = List.replicate n [1] := by
  unfold Shape.profile at hle
  rw [List.flatten_replicate_singleton, Run.sorted_le_iff] at hle
  apply h.eq_singles_of_forall
  intro v hv
  rcases hle with ⟨u, hu, hlarger⟩ | hp
  · -- the single cards have tuples of size one only, so this is the size that differs
    have hu1 : u = 1 := List.eq_of_mem_replicate (List.count_pos_iff.mp (Nat.zero_lt_of_lt hu))
    obtain ⟨r, hr, hvr⟩ := List.mem_flatten.mp hv
    have hpos := (h.legal r hr).positive v hvr
    by_cases hv1 : v = 1
    · exact hv1
    · have hcount := hlarger v (by omega)
      rw [List.count_eq_zero.mpr fun hmem => hv1 (List.eq_of_mem_replicate hmem)] at hcount
      exact absurd hv (List.count_eq_zero.mp hcount)
  · exact List.eq_of_mem_replicate (hp.mem_iff.mp hv)

end IsDecomposition

end Tractor
