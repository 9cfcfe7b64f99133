/-
  Tractor.Proofs.Shape.Orders — arrangements are the orders of positions, each written out
  once.

  The values of a cluster can be told apart by their positions. Then every order of the
  positions gives an order of the values, and the arrangements are these in the order of
  the positions, each kept where it is first seen.

  - `positionOrders_ascending`, `mem_positionOrders`: the orders of positions are all of
    them, in lexicographic order.
  - `arrangements_eq_eraseDups_orders`: no arrangement is listed late or twice; they are the
    reorderings of the values (`mem_arrangements`).
  - `mem_choices`: a choice takes one member of each list.
  - `Earlier`: of two choices the one that takes an earlier member from the first list in
    which they differ. Choices are listed that way (`choices_order`), the first list varying
    slowest, so none comes twice (`nodup_choices`).
-/

import Mathlib.Data.List.Perm.Basic
import Tractor.Shape.Arrangement
import Tractor.Proofs.Shape.Lists
import Tractor.Proofs.Shape.Repeats

namespace Tractor

/-! ## Orders of positions -/

section

variable {α β : Type}

/-- Each element of a list in turn, with the others in their order. -/
def picks : List α → List (α × List α)
  | [] => []
  | a :: l => (a, l) :: (picks l).map fun p => (p.1, a :: p.2)

/-- The orders of `n` of the elements: those that start with the first element, then those
    that start with the second, and so on. -/
def ordersOfLength : Nat → List α → List (List α)
  | 0, _ => [[]]
  | n + 1, l => (picks l).flatMap fun p => (ordersOfLength n p.2).map (p.1 :: ·)

def positionOrders (n : Nat) : List (List Nat) := ordersOfLength n (List.range n)

def orders (values : Run) : List Run := (positionOrders values.length).map fun o => o.map fun i => values.getD i 0

theorem map_fst_picks (l : List α) : (picks l).map Prod.fst = l := by
  induction l with
  | nil => rfl
  | cons a l ih =>
    rw [picks, List.map_cons, List.map_map]
    exact congrArg (a :: ·) ih

theorem perm_of_mem_picks {l : List α} {p : α × List α} (h : p ∈ picks l) : (p.1 :: p.2).Perm l := by
  induction l generalizing p with
  | nil => cases h
  | cons a l ih =>
    rcases List.mem_cons.mp h with rfl | h
    · exact List.Perm.refl _
    · obtain ⟨q, hq, rfl⟩ := List.mem_map.mp h
      exact (List.Perm.swap a q.1 q.2).trans ((ih hq).cons a)

theorem sublist_of_mem_picks {l : List α} {p : α × List α} (h : p ∈ picks l) : p.2.Sublist l := by
  induction l generalizing p with
  | nil => cases h
  | cons a l ih =>
    rcases List.mem_cons.mp h with rfl | h
    · exact List.sublist_cons_self a l
    · obtain ⟨q, hq, rfl⟩ := List.mem_map.mp h
      exact (ih hq).cons_cons a

theorem picks_map (f : α → β) (l : List α) : picks (l.map f) = (picks l).map (Prod.map f (List.map f)) := by
  induction l with
  | nil => rfl
  | cons a l ih => simp [picks, ih, Function.comp_def]

theorem length_of_mem_picks {l : List α} {p : α × List α} {n : Nat} (h : p ∈ picks l) (hn : l.length = n + 1) :
    p.2.length = n := by
  have := (perm_of_mem_picks h).length_eq
  simp at this
  omega

/-- With a pick before the orders of its rest come all orders that begin with its element. -/
theorem mem_map_cons_iff {l r : List α} {p : α × List α} {rests : List (List α)} (hp : p ∈ picks l)
    (hrests : ∀ t, t ∈ rests ↔ t.Perm p.2) : r ∈ rests.map (p.1 :: ·) ↔ r.Perm l ∧ r.head? = some p.1 := by
  have hperm := perm_of_mem_picks hp
  constructor
  · intro hr
    obtain ⟨t, ht, rfl⟩ := List.mem_map.mp hr
    exact ⟨(((hrests t).mp ht).cons p.1).trans hperm, rfl⟩
  · intro ⟨hr, hhead⟩
    obtain ⟨t, rfl⟩ := List.head?_eq_some_iff.mp hhead
    have ht : t.Perm p.2 := (List.perm_cons p.1).mp (hr.trans hperm.symm)
    exact List.mem_map.mpr ⟨t, (hrests t).mpr ht, rfl⟩

theorem mem_ordersOfLength {n : Nat} {l r : List α} (hn : l.length = n) : r ∈ ordersOfLength n l ↔ r.Perm l := by
  induction n generalizing l r with
  | zero =>
    rw [List.length_eq_zero_iff.mp hn, List.perm_nil]
    exact List.mem_singleton
  | succ n ih =>
    have hblock : ∀ p ∈ picks l, r ∈ (ordersOfLength n p.2).map (p.1 :: ·) ↔ r.Perm l ∧ r.head? = some p.1 :=
      fun p hp => mem_map_cons_iff hp fun t => ih (length_of_mem_picks hp hn)
    rw [ordersOfLength, List.mem_flatMap]
    constructor
    · intro ⟨p, hp, hr⟩
      exact ((hblock p hp).mp hr).1
    · intro h
      obtain ⟨a, t, rfl⟩ := List.exists_cons_of_length_eq_add_one (h.length_eq.trans hn)
      obtain ⟨p, hp, rfl⟩ : ∃ p ∈ picks l, p.1 = a := by
        rw [← List.mem_map, map_fst_picks]
        exact h.subset List.mem_cons_self
      exact ⟨p, hp, (hblock p hp).mpr ⟨h, rfl⟩⟩

theorem ordersOfLength_map (f : α → β) (n : Nat) (l : List α) :
    ordersOfLength n (l.map f) = (ordersOfLength n l).map (List.map f) := by
  induction n generalizing l with
  | zero => rfl
  | succ n ih =>
    rw [ordersOfLength, ordersOfLength, picks_map, List.flatMap_map, List.map_flatMap]
    refine congrArg (List.flatMap · (picks l)) (funext fun p => ?_)
    simp [ih, Function.comp_def]

theorem mem_positionOrders {n : Nat} {o : List Nat} : o ∈ positionOrders n ↔ o.Perm (List.range n) :=
  mem_ordersOfLength List.length_range

theorem ordersOfLength_ascending {l : List Nat} (h : l.Pairwise (· < ·)) (n : Nat) :
    (ordersOfLength n l).Pairwise (· < ·) := by
  induction n generalizing l with
  | zero => exact List.pairwise_singleton _ _
  | succ n ih =>
    refine List.pairwise_flatMap.mpr ⟨fun p hp => ?_, ?_⟩
    · have ht := ih (h.sublist (sublist_of_mem_picks hp))
      exact List.pairwise_map.mpr (ht.imp fun hst => List.cons_lt_cons_iff.mpr (Or.inr ⟨rfl, hst⟩))
    · rw [← map_fst_picks l, List.pairwise_map] at h
      refine h.imp fun hpq s hs t ht => ?_
      obtain ⟨s, -, rfl⟩ := List.mem_map.mp hs
      obtain ⟨t, -, rfl⟩ := List.mem_map.mp ht
      exact List.cons_lt_cons_iff.mpr (Or.inl hpq)

theorem positionOrders_ascending (n : Nat) : (positionOrders n).Pairwise (· < ·) :=
  ordersOfLength_ascending List.pairwise_lt_range n

end

theorem map_getD_range {α : Type} (values : List α) (d : α) :
    ((List.range values.length).map fun i => values.getD i d) = values := by
  apply List.ext_getElem
  · simp
  · intro i hi₁ hi₂
    simp [hi₂]

theorem orders_eq (values : Run) : orders values = ordersOfLength values.length values := by
  rw [orders, positionOrders, ← ordersOfLength_map, map_getD_range]

/-! ## Kept where first seen -/

section

variable {α β κ : Type} [BEq β] [LawfulBEq β] [BEq κ] [LawfulBEq κ]

theorem eraseDups_map {f : κ → β} (hf : Function.Injective f) (l : List κ) :
    (l.map f).eraseDups = l.eraseDups.map f := by
  match l with
  | [] => rfl
  | a :: l =>
    have hfilter : (l.map f).filter (fun b => !b == f a) = (l.filter fun b => !b == a).map f := by
      rw [List.filter_map]
      refine congrArg (List.map f) (List.filter_congr fun b _ => ?_)
      simp [hf.eq_iff]
    rw [List.map_cons, List.eraseDups_cons, List.eraseDups_cons, hfilter, List.map_cons, eraseDups_map hf]
termination_by l.length
decreasing_by exact Nat.lt_succ_of_le (List.length_filter_le ..)

theorem find?_filter_of_ne {key : α → κ} {k j : κ} (hne : k ≠ j) (l : List α) :
    (l.filter fun b => !key b == j).find? (fun b => key b == k) = l.find? fun b => key b == k := by
  rw [List.find?_filter]
  refine congrArg (l.find? ·) (funext fun b => ?_)
  by_cases hb : key b = k
  · simp [hb, hne]
  · simp [hb]

/-- Where blocks of one key have the same members and blocks of two keys have none in common,
    the first block of each key is kept and the others are dropped. -/
theorem eraseDups_flatMap {key : α → κ} {f : α → List β} {g : κ → List β} {l : List α}
    (hsame : ∀ a ∈ l, ∀ b ∈ l, key a = key b → ∀ x ∈ f a, x ∈ f b)
    (hdisjoint : ∀ a ∈ l, ∀ b ∈ l, ∀ x ∈ f a, x ∈ f b → key a = key b)
    (hfirst : ∀ k a, l.find? (fun b => key b == k) = some a → g k = (f a).eraseDups) :
    (l.flatMap f).eraseDups = (l.map key).eraseDups.flatMap g := by
  match l with
  | [] => rfl
  | a :: l =>
    have hmem : ∀ b ∈ l.filter (fun b => !key b == key a), b ∈ a :: l := fun b hb =>
      List.mem_cons_of_mem a (List.mem_filter.mp hb).1
    -- what the first block leaves of the others are the blocks of other keys
    have hrest : (l.flatMap f).removeAll (f a) = (l.filter fun b => !key b == key a).flatMap f := by
      refine filter_flatMap_of_forall fun b hb x hx => ?_
      have hb := List.mem_cons_of_mem a hb
      by_cases hk : key b = key a
      · simp [hk, hsame b hb a List.mem_cons_self hk x hx]
      · have hxa : x ∉ f a := fun hxa => hk (hdisjoint b hb a List.mem_cons_self x hx hxa)
        simp [hk, hxa]
    have hkeys : (l.map key).filter (fun k => !k == key a) = (l.filter fun b => !key b == key a).map key := by
      rw [List.filter_map]
      rfl
    have hhead : g (key a) = (f a).eraseDups := hfirst (key a) a (by simp)
    rw [List.flatMap_cons, List.eraseDups_append, hrest, List.map_cons, List.eraseDups_cons, hkeys, List.flatMap_cons,
      hhead]
    refine congrArg ((f a).eraseDups ++ ·) (eraseDups_flatMap ?_ ?_ fun k b hb => ?_)
    · exact fun b hb c hc => hsame b (hmem b hb) c (hmem c hc)
    · exact fun b hb c hc => hdisjoint b (hmem b hb) c (hmem c hc)
    · -- the first of the key among the others is the first of the key among all
      have hk : key b = k := by simpa using List.find?_some hb
      have hne : key b ≠ key a := by simpa using (List.mem_filter.mp (List.mem_of_find?_eq_some hb)).2
      rw [hk] at hne
      refine hfirst k b ?_
      rw [List.find?_cons_of_neg (by simpa using Ne.symm hne), ← find?_filter_of_ne hne, hb]
termination_by l.length
decreasing_by exact Nat.lt_succ_of_le (List.length_filter_le ..)

end

/-! ## Arrangements -/

theorem eq_of_find?_picks {values : Run} {v : Int} {p : Int × Run}
    (h : (picks values).find? (fun q => q.1 == v) = some p) : p = (v, values.erase v) := by
  induction values generalizing p with
  | nil => simp [picks] at h
  | cons w values ih =>
    by_cases hw : w = v
    · subst hw
      simp [picks] at h
      simp [h]
    · rw [picks, List.find?_cons_of_neg (by simpa using hw), List.find?_map] at h
      obtain ⟨q, hq, rfl⟩ := Option.map_eq_some_iff.mp h
      rw [ih hq, List.erase_cons_tail (by simpa using hw)]

theorem arrangementsOfLength_eq_eraseDups {n : Nat} {values : Run} (hn : values.length = n) :
    arrangementsOfLength n values = (ordersOfLength n values).eraseDups := by
  induction n generalizing values with
  | zero => rfl
  | succ n ih =>
    have hblock : ∀ p ∈ picks values, ∀ r, r ∈ (ordersOfLength n p.2).map (p.1 :: ·) ↔
        r.Perm values ∧ r.head? = some p.1 :=
      fun p hp r => mem_map_cons_iff hp fun t => mem_ordersOfLength (length_of_mem_picks hp hn)
    have hsame : ∀ p ∈ picks values, ∀ q ∈ picks values, p.1 = q.1 →
        ∀ r ∈ (ordersOfLength n p.2).map (p.1 :: ·), r ∈ (ordersOfLength n q.2).map (q.1 :: ·) := by
      intro p hp q hq hpq r hr
      rw [hblock q hq, ← hpq]
      exact (hblock p hp r).mp hr
    have hdisjoint : ∀ p ∈ picks values, ∀ q ∈ picks values,
        ∀ r ∈ (ordersOfLength n p.2).map (p.1 :: ·), r ∈ (ordersOfLength n q.2).map (q.1 :: ·) → p.1 = q.1 := by
      intro p hp q hq r hrp hrq
      have hp := ((hblock p hp r).mp hrp).2
      have hq := ((hblock q hq r).mp hrq).2
      exact Option.some.inj (hp.symm.trans hq)
    have hfirst : ∀ v p, (picks values).find? (fun q => q.1 == v) = some p →
        (arrangementsOfLength n (values.erase v)).map (v :: ·) = ((ordersOfLength n p.2).map (p.1 :: ·)).eraseDups := by
      intro v p hfind
      have hlen := length_of_mem_picks (List.mem_of_find?_eq_some hfind) hn
      obtain rfl := eq_of_find?_picks hfind
      rw [ih hlen, eraseDups_map List.cons_injective]
    rw [arrangementsOfLength, ordersOfLength, eraseDups_flatMap hsame hdisjoint hfirst, map_fst_picks]

/-- The arrangements are the orders of the positions, each kept where it is first seen. -/
theorem arrangements_eq_eraseDups_orders (values : Run) : arrangements values = (orders values).eraseDups := by
  rw [orders_eq]
  exact arrangementsOfLength_eq_eraseDups rfl

example : (orders [2, 3, 2]).eraseDups = [[2, 3, 2], [2, 2, 3], [3, 2, 2]] := by decide

theorem mem_arrangements {values r : Run} : r ∈ arrangements values ↔ r.Perm values := by
  rw [arrangements_eq_eraseDups_orders, List.mem_eraseDups, orders_eq, mem_ordersOfLength rfl]

theorem nodup_arrangements (values : Run) : (arrangements values).Nodup := by
  rw [arrangements_eq_eraseDups_orders]
  exact nodup_eraseDups _

/-! ## Choices -/

section

variable {α : Type}

theorem mem_choices {xss : List (List α)} {ys : List α} :
    ys ∈ choices xss ↔ List.Forall₂ (fun y xs => y ∈ xs) ys xss := by
  induction xss generalizing ys with
  | nil => simp [choices]
  | cons xs xss ih =>
    rw [choices, List.mem_flatMap]
    constructor
    · rintro ⟨x, hx, hy⟩
      obtain ⟨t, ht, rfl⟩ := List.mem_map.mp hy
      exact .cons hx (ih.mp ht)
    · rintro (_ | ⟨hy, ht⟩)
      exact ⟨_, hy, List.mem_map.mpr ⟨_, ih.mpr ht, rfl⟩⟩

inductive Earlier : List (List α) → List α → List α → Prop
  | here {xs : List α} {xss : List (List α)} {x y : α} {s t : List α} :
      [x, y].Sublist xs → Earlier (xs :: xss) (x :: s) (y :: t)
  | later {xs : List α} {xss : List (List α)} {x : α} {s t : List α} :
      Earlier xss s t → Earlier (xs :: xss) (x :: s) (x :: t)

theorem choices_order (xss : List (List α)) : (choices xss).Pairwise (Earlier xss) := by
  induction xss with
  | nil => exact List.pairwise_singleton _ _
  | cons xs xss ih =>
    refine List.pairwise_flatMap.mpr ⟨fun x _ => ?_, ?_⟩
    · exact List.pairwise_map.mpr (ih.imp .later)
    · refine (pairwise_pair_sublist xs).imp fun hxy s hs t ht => ?_
      obtain ⟨s, -, rfl⟩ := List.mem_map.mp hs
      obtain ⟨t, -, rfl⟩ := List.mem_map.mp ht
      exact .here hxy

theorem Earlier.ne {xss : List (List α)} {s t : List α} (h : Earlier xss s t) (hnodup : ∀ xs ∈ xss, xs.Nodup) :
    s ≠ t := by
  induction h with
  | here hxy =>
    have hxy := (hnodup _ List.mem_cons_self).sublist hxy
    intro heq
    simp [(List.cons.inj heq).1] at hxy
  | later _ ih =>
    intro heq
    exact ih (fun xs hxs => hnodup xs (List.mem_cons_of_mem _ hxs)) (List.cons.inj heq).2

theorem nodup_choices {xss : List (List α)} (h : ∀ xs ∈ xss, xs.Nodup) : (choices xss).Nodup :=
  (choices_order xss).imp fun hst => hst.ne h

end

end Tractor
