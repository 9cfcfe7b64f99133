/-
  Tractor.Proofs.Shape.Lists — two lists side by side, and what stands before what in one.

  What is related place by place stays so when one place changes (`forall₂_modify`), and
  gives each member its partner (`exists_of_mem_forall₂`). A function that may fail gives a
  list for a list when it fails nowhere, place by place (`mapM_eq_ok_iff`); otherwise the
  leftmost failure counts (`mapM_eq_error_iff`).

  One element stands before another in a list when the two, in this order, are a sublist of
  it. An order that never holds both ways and is that of a list says which of two elements
  stands first (`pair_sublist_iff`), which element is the first of all
  (`head?_eq_of_pairwise`) and which the last (`getLast?_eq_of_pairwise`). Sorting is
  stable: of two elements that tie the one that stood first still does
  (`pairwise_mergeSort`). Elements of one kind stand together when nothing between two of
  them, by the order of the list, is of another kind (`filter_infix_of_pairwise`).
-/

import Mathlib.Data.List.Forall2
import Mathlib.Data.List.Nodup
import Mathlib.Data.List.Pairwise

namespace Tractor

/-! ## Side by side -/

theorem forall₂_modify {α β : Type} {R : α → β → Prop} {f : β → β} (hf : ∀ a b, R a b → R a (f b)) {as : List α}
    {bs : List β} (h : List.Forall₂ R as bs) (i : Nat) : List.Forall₂ R as (bs.modify i f) := by
  induction h generalizing i with
  | nil => simp
  | cons hab hrest ih =>
    cases i with
    | zero => exact .cons (hf _ _ hab) hrest
    | succ i => exact .cons hab (ih i)

theorem map_eq_map_of_forall₂ {α β γ : Type} {f : α → γ} {g : β → γ} {as : List α} {bs : List β}
    (h : List.Forall₂ (fun a b => f a = g b) as bs) : as.map f = bs.map g := by
  rwa [← List.forall₂_eq_eq_eq, List.forall₂_map_left_iff, List.forall₂_map_right_iff]

theorem forall₂_and_right {α β : Type} {R : α → β → Prop} {p : β → Prop} {as : List α} {bs : List β}
    (h : List.Forall₂ R as bs) (hp : ∀ b ∈ bs, p b) : List.Forall₂ (fun a b => R a b ∧ p b) as bs := by
  induction h with
  | nil => exact .nil
  | cons hab _ ih =>
    rw [List.forall_mem_cons] at hp
    exact .cons ⟨hab, hp.1⟩ (ih hp.2)

theorem forall₂_imp_of_mem {α β : Type} {R S : α → β → Prop} {as : List α} {bs : List β} (h : List.Forall₂ R as bs)
    (himp : ∀ a ∈ as, ∀ b, R a b → S a b) : List.Forall₂ S as bs :=
  ((List.forall₂_and_left as bs).mpr ⟨himp, h⟩).imp fun _ b hab => hab.1 b hab.2

theorem exists_of_mem_forall₂ {α β : Type} {R : α → β → Prop} {as : List α} {bs : List β} (h : List.Forall₂ R as bs)
    {b : β} (hb : b ∈ bs) : ∃ a ∈ as, R a b := by
  induction h with
  | nil => cases hb
  | cons hab _ ih =>
    rcases List.mem_cons.mp hb with rfl | hb
    · exact ⟨_, List.mem_cons_self, hab⟩
    · obtain ⟨a, ha, hab⟩ := ih hb
      exact ⟨a, List.mem_cons_of_mem _ ha, hab⟩

/-- What passes on one side passes on the other and shows the same. -/
theorem filter_map_eq_of_forall₂ {α β γ : Type} {p : α → Bool} {q : β → Bool} {f : α → γ} {g : β → γ} {as : List α}
    {bs : List β} (h : List.Forall₂ (fun a b => p a = q b ∧ f a = g b) as bs) :
    (as.filter p).map f = (bs.filter q).map g := by
  induction h with
  | nil => rfl
  | cons hab _ ih =>
    obtain ⟨hp, hf⟩ := hab
    rw [List.filter_cons, List.filter_cons, hp]
    split
    · rw [List.map_cons, List.map_cons, hf, ih]
    · exact ih

/-! ## One after another, as long as none fails -/

section

variable {ε α β : Type} {f : α → Except ε β} {a : α} {as : List α} {b : β} {bs : List β} {e : ε}

theorem mapM_eq_some_iff {f : α → Option β} : as.mapM f = some bs ↔ List.Forall₂ (fun a b => f a = some b) as bs := by
  induction as generalizing bs with
  | nil => simp [eq_comm]
  | cons a as ih =>
    simp only [List.mapM_cons, Option.bind_eq_bind, Option.bind_eq_some_iff, Option.pure_def, Option.some.injEq,
      List.forall₂_cons_left_iff, ih]
    constructor
    · rintro ⟨b, hb, rest, hrest, h⟩
      exact ⟨b, rest, hb, hrest, h.symm⟩
    · rintro ⟨b, rest, hb, hrest, h⟩
      exact ⟨b, hb, rest, hrest, h.symm⟩

theorem mapM_eq_none_iff {f : α → Option β} : as.mapM f = none ↔ ∃ a ∈ as, f a = none := by
  induction as with
  | nil => simp
  | cons a as ih =>
    rw [List.mapM_cons]
    cases ha : f a with
    | none => simp [ha]
    | some b => cases hrest : as.mapM f <;> simp [ha, ← ih, hrest]

theorem mapM_cons_of_error (h : f a = .error e) : (a :: as).mapM f = .error e := by
  rw [List.mapM_cons, h]
  rfl

theorem mapM_cons_of_ok (h : f a = .ok b) : (a :: as).mapM f = (as.mapM f).map (b :: ·) := by
  rw [List.mapM_cons, h]
  cases as.mapM f <;> rfl

theorem mapM_eq_ok_iff : as.mapM f = .ok bs ↔ List.Forall₂ (fun a b => f a = .ok b) as bs := by
  induction as generalizing bs with
  | nil => simp [pure, Except.pure, eq_comm]
  | cons a as ih =>
    rw [List.forall₂_cons_left_iff]
    cases ha : f a with
    | error e => simp [mapM_cons_of_error ha]
    | ok b =>
      rw [mapM_cons_of_ok ha]
      cases hrest : as.mapM f with
      | error e => simp [Except.map, ← ih, hrest]
      | ok rest => simp [Except.map, ← ih, hrest, eq_comm]

/-- The leftmost element that fails decides. -/
theorem mapM_eq_error_iff : as.mapM f = .error e ↔
    ∃ before a after, as = before ++ a :: after ∧ (∀ b ∈ before, ∃ c, f b = .ok c) ∧ f a = .error e := by
  induction as with
  | nil => simp [pure, Except.pure]
  | cons a as ih =>
    cases ha : f a with
    | error d =>
      rw [mapM_cons_of_error ha]
      constructor
      · rintro ⟨⟩
        exact ⟨[], a, as, rfl, by simp, ha⟩
      · rintro ⟨before, b, after, hsplit, hbefore, hb⟩
        rcases List.cons_eq_append_iff.mp hsplit with ⟨rfl, h⟩ | ⟨before, rfl, -⟩
        · rw [(List.cons.inj h).1, ha] at hb
          rw [Except.error.inj hb]
        · obtain ⟨c, hc⟩ := hbefore a List.mem_cons_self
          simp [ha] at hc
    | ok b =>
      have hmap : (as.mapM f).map (b :: ·) = .error e ↔ as.mapM f = .error e := by
        cases as.mapM f <;> simp [Except.map]
      rw [mapM_cons_of_ok ha, hmap, ih]
      constructor
      · rintro ⟨before, c, after, rfl, hbefore, hc⟩
        exact ⟨a :: before, c, after, rfl, List.forall_mem_cons.mpr ⟨⟨b, ha⟩, hbefore⟩, hc⟩
      · rintro ⟨before, c, after, hsplit, hbefore, hc⟩
        rcases List.cons_eq_append_iff.mp hsplit with ⟨rfl, h⟩ | ⟨before, rfl, rfl⟩
        · rw [(List.cons.inj h).1, ha] at hc
          cases hc
        · exact ⟨before, c, after, rfl, (List.forall_mem_cons.mp hbefore).2, hc⟩

end

/-! ## One by one -/

@[simp] theorem flatten_map_singleton {α : Type} (l : List α) : (l.map ([·])).flatten = l := by
  rw [← List.flatMap_def, List.flatMap_singleton']

theorem exists_eq_map_singleton {α : Type} {ls : List (List α)} (h : ∀ l ∈ ls, l.length = 1) :
    ∃ l : List α, ls = l.map ([·]) := by
  induction ls with
  | nil => exact ⟨[], rfl⟩
  | cons l ls ih =>
    rw [List.forall_mem_cons] at h
    obtain ⟨x, rfl⟩ := List.length_eq_one_iff.mp h.1
    obtain ⟨rest, rfl⟩ := ih h.2
    exact ⟨x :: rest, rfl⟩

theorem eq_nil_of_flatten_eq_nil {α : Type} {ls : List (List α)} (hne : ∀ l ∈ ls, l ≠ []) (h : ls.flatten = []) :
    ls = [] :=
  List.eq_nil_iff_forall_not_mem.mpr fun l hl => hne l hl (List.flatten_eq_nil_iff.mp h l hl)

theorem map_eq_self {α : Type} {f : α → α} {l : List α} (h : ∀ a ∈ l, f a = a) : l.map f = l := by
  rw [List.map_congr_left h, List.map_id']

/-- Where a test on the members of `f a` depends on `a` only, `a` may be tested instead. -/
theorem filter_flatMap_of_forall {α β : Type} {f : α → List β} {p : β → Bool} {q : α → Bool} {l : List α}
    (h : ∀ a ∈ l, ∀ b ∈ f a, p b = q a) : (l.flatMap f).filter p = (l.filter q).flatMap f := by
  induction l with
  | nil => rfl
  | cons a l ih =>
    rw [List.forall_mem_cons] at h
    rw [List.flatMap_cons, List.filter_append, ih h.2, List.filter_congr h.1, List.filter_cons]
    cases q a <;> simp

/-- In lists without repeats an element comes as often as there are lists that hold it. -/
theorem count_flatMap_of_nodup {α β : Type} [BEq β] [LawfulBEq β] {f : α → List β} (hf : ∀ a, (f a).Nodup)
    (l : List α) (b : β) : (l.flatMap f).count b = l.countP fun a => decide (b ∈ f a) := by
  induction l with
  | nil => rfl
  | cons a l ih =>
    rw [List.flatMap_cons, List.count_append, ih, (hf a).count, List.countP_cons, Nat.add_comm]
    simp

/-- Where only one element of a list without repeats passes a test, the test leaves that one. -/
theorem filter_eq_singleton {α : Type} {p : α → Bool} {l : List α} (h : l.Nodup) {a : α} (ha : a ∈ l)
    (hp : ∀ b ∈ l, p b = true ↔ b = a) : l.filter p = [a] := by
  refine List.perm_singleton.mp ((List.perm_ext_iff_of_nodup (h.filter p) (List.nodup_singleton a)).mpr fun b => ?_)
  rw [List.mem_filter, List.mem_singleton]
  constructor
  · rintro ⟨hb, hpb⟩
    exact (hp b hb).mp hpb
  · rintro rfl
    exact ⟨ha, (hp b ha).mpr rfl⟩

/-! ## The greatest number -/

theorem foldl_max_le_iff {l : List Nat} {a n : Nat} : l.foldl max a ≤ n ↔ a ≤ n ∧ ∀ x ∈ l, x ≤ n := by
  induction l generalizing a with
  | nil => simp
  | cons x l ih => rw [List.foldl_cons, ih, Nat.max_le, List.forall_mem_cons, and_assoc]

/-! ## Before and after -/

variable {α : Type} {R : α → α → Prop} {l : List α}

theorem pairwise_pair_sublist (l : List α) : l.Pairwise fun a b => [a, b].Sublist l :=
  List.pairwise_iff_forall_sublist.mpr id

/-- In a list whose order is `R` the elements stand as `R` says. -/
theorem pair_sublist_iff (h : l.Pairwise R) (asymm : ∀ a b, R a b → ¬ R b a) {a b : α} (ha : a ∈ l) (hb : b ∈ l)
    (hne : a ≠ b) : [a, b].Sublist l ↔ R a b := by
  have hR : ∀ {x y}, [x, y].Sublist l → R x y := List.pairwise_iff_forall_sublist.mp h
  have htotal : l.Pairwise fun x y => [x, y].Sublist l ∨ [y, x].Sublist l :=
    (pairwise_pair_sublist l).imp Or.inl
  have : Std.Symm fun x y => [x, y].Sublist l ∨ [y, x].Sublist l := ⟨fun _ _ => Or.symm⟩
  refine ⟨hR, fun hab => ?_⟩
  exact (htotal.forall ha hb hne).resolve_right fun hba => asymm a b hab (hR hba)

/-- Of two elements of a list without repeats only one stands before the other. -/
theorem not_pair_sublist_swap (h : l.Nodup) {a b : α} (hab : [a, b].Sublist l) : ¬ [b, a].Sublist l := by
  intro hba
  induction l with
  | nil => cases hab
  | cons x l ih =>
    obtain ⟨hx, hl⟩ := List.nodup_cons.mp h
    -- unless both pairs are in the rest, `x` is in it too
    cases hab with
    | cons _ hab =>
      cases hba with
      | cons _ hba => exact ih hl hab hba
      | cons_cons _ _ => exact hx (hab.subset (List.mem_cons_of_mem a List.mem_cons_self))
    | cons_cons _ hb =>
      cases hba with
      | cons _ hba => exact hx (hba.subset (List.mem_cons_of_mem b List.mem_cons_self))
      | cons_cons _ _ => exact hx (hb.subset List.mem_cons_self)

theorem head?_eq_of_pairwise (h : l.Pairwise R) {a : α} (ha : a ∈ l) (hfirst : ∀ b ∈ l, R b a → b = a) :
    l.head? = some a := by
  cases l with
  | nil => cases ha
  | cons b l =>
    rcases List.mem_cons.mp ha with rfl | hal
    · rfl
    · have hba := hfirst b List.mem_cons_self ((List.pairwise_cons.mp h).1 a hal)
      rw [hba, List.head?_cons]

theorem getLast?_eq_of_pairwise (h : l.Pairwise R) {a : α} (ha : a ∈ l) (hlast : ∀ b ∈ l, R a b → b = a) :
    l.getLast? = some a := by
  rw [← List.head?_reverse]
  exact head?_eq_of_pairwise (List.pairwise_reverse.mpr h) (List.mem_reverse.mpr ha) fun b hb =>
    hlast b (List.mem_reverse.mp hb)

/-- Sorting by `le` keeps the order `R` of elements that tie. -/
theorem pairwise_mergeSort {le : α → α → Bool} (trans : ∀ a b c, le a b = true → le b c = true → le a c = true)
    (total : ∀ a b, (le a b || le b a) = true) (h : l.Pairwise R) :
    (l.mergeSort le).Pairwise fun a b => le a b = true ∧ (le b a = true → R a b) := by
  induction l with
  | nil => simp
  | cons a l ih =>
    obtain ⟨ha, hl⟩ := List.pairwise_cons.mp h
    obtain ⟨front, back, hsort, hrest, hfront⟩ := List.mergeSort_cons trans total a l
    have hsorted := List.pairwise_mergeSort trans total (a :: l)
    have ih := ih hl
    rw [hsort] at hsorted ⊢
    rw [hrest] at ih
    obtain ⟨-, hback, hcross⟩ := List.pairwise_append.mp hsorted
    obtain ⟨ihfront, ihback, ihcross⟩ := List.pairwise_append.mp ih
    refine List.pairwise_append.mpr ⟨ihfront, List.pairwise_cons.mpr ⟨fun b hb => ?_, ihback⟩, fun b hb c hc => ?_⟩
    · have hmem : b ∈ l := List.mem_mergeSort.mp (hrest ▸ List.mem_append_right front hb)
      exact ⟨(List.pairwise_cons.mp hback).1 b hb, fun _ => ha b hmem⟩
    · rcases List.mem_cons.mp hc with rfl | hc
      · -- what came before `a` does not tie with it
        refine ⟨hcross b hb _ List.mem_cons_self, fun hab => ?_⟩
        simpa [hab] using hfront b hb
      · exact ihcross b hb c hc

/-! ## In one piece -/

variable {p : α → Bool}

/-- What the order puts between two elements of a kind is of that kind. -/
def IsConvex (R : α → α → Prop) (p : α → Bool) : Prop :=
  ∀ a b c, p a = true → R a b → R b c → p c = true → p b = true

theorem filter_prefix_of_pairwise (hp : IsConvex R p) {a : α} (ha : p a = true) (h : (a :: l).Pairwise R) :
    l.filter p <+: l := by
  induction l with
  | nil => exact List.prefix_refl _
  | cons b l ih =>
    obtain ⟨hab, hl⟩ := List.pairwise_cons.mp h
    by_cases hb : p b = true
    · rw [List.filter_cons_of_pos hb, List.prefix_cons_inj]
      exact ih (List.pairwise_cons.mpr ⟨fun c hc => hab c (List.mem_cons_of_mem b hc), (List.pairwise_cons.mp hl).2⟩)
    · -- the kind that `a` is of ended before `b`
      have hnone : (b :: l).filter p = [] := by
        refine List.filter_eq_nil_iff.mpr fun c hc hpc => hb ?_
        rcases List.mem_cons.mp hc with rfl | hc
        · exact hpc
        · exact hp a b c ha (hab b List.mem_cons_self) ((List.pairwise_cons.mp hl).1 c hc) hpc
      rw [hnone]
      exact List.nil_prefix

/-- The elements of a convex kind are one piece of the list. -/
theorem filter_infix_of_pairwise (hp : IsConvex R p) (h : l.Pairwise R) : l.filter p <:+: l := by
  induction l with
  | nil => exact List.infix_refl _
  | cons a l ih =>
    by_cases ha : p a = true
    · rw [List.filter_cons_of_pos ha]
      exact (List.prefix_cons_inj a |>.mpr (filter_prefix_of_pairwise hp ha h)).isInfix
    · rw [List.filter_cons_of_neg ha]
      exact (ih (List.pairwise_cons.mp h).2).trans (List.suffix_cons a l).isInfix

/-- The elements of a kind that leads to nothing else are the end of the list. -/
theorem filter_suffix_of_pairwise (hp : ∀ a b, p a = true → R a b → p b = true) (h : l.Pairwise R) :
    l.filter p <:+ l := by
  induction l with
  | nil => exact List.suffix_refl _
  | cons a l ih =>
    obtain ⟨ha, hl⟩ := List.pairwise_cons.mp h
    by_cases hpa : p a = true
    · have hall : (a :: l).filter p = a :: l := by
        refine List.filter_eq_self.mpr fun b hb => ?_
        rcases List.mem_cons.mp hb with rfl | hb
        · exact hpa
        · exact hp a b hpa (ha b hb)
      exact ⟨[], hall⟩
    · rw [List.filter_cons_of_neg hpa]
      exact (ih hl).trans (List.suffix_cons a l)

end Tractor
