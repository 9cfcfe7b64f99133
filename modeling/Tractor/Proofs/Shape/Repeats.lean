/-
  Tractor.Proofs.Shape.Repeats — dropping repeats keeps one of each.

  Partitions and clusterings are sorted and drop neighbours that are equal; shapes drop
  every later one that reorders the runs of an earlier one. Cards, in a hand or on a
  level, drop every later one that is equal (`nodup_eraseDups`).

  - `eraseReps_sublist`, `mem_eraseReps`: dropping equal neighbours keeps the order and
    loses no element; of a sorted list it keeps each element once (`nodup_eraseReps`), and
    where no element comes twice it keeps all (`eraseReps_of_nodup`).
  - `Shape.distinct_sublist`, `Shape.exists_mem_distinct`: of the shapes some are kept, in
    order, and each shape is a reordering of one that is kept.
  - `Shape.nodup_canonical_distinct`: no two kept shapes reorder one another.
-/

import Tractor.Proofs.Shape.Canonical

namespace Tractor

/-! ## Equal neighbours -/

section

variable {α : Type} [BEq α]

theorem eraseReps_loop (a : α) (l acc : List α) :
    List.eraseRepsBy.loop (· == ·) a l acc = acc.reverse ++ (a :: l).eraseReps := by
  induction l generalizing a acc with
  | nil => simp [List.eraseReps, List.eraseRepsBy, List.eraseRepsBy.loop]
  | cons b l ih =>
    rw [List.eraseReps, List.eraseRepsBy, List.eraseRepsBy.loop]
    split
    · rename_i h
      rw [List.eraseRepsBy.loop, h, ih a acc, ih a []]
      simp
    · rename_i h
      rw [List.eraseRepsBy.loop, h, ih b (a :: acc), ih b [a]]
      simp

theorem eraseReps_cons_cons (a b : α) (l : List α) :
    (a :: b :: l).eraseReps = if a == b then (a :: l).eraseReps else a :: (b :: l).eraseReps := by
  rw [List.eraseReps, List.eraseRepsBy, List.eraseRepsBy.loop]
  split
  · rename_i h
    rw [h, eraseReps_loop]
    simp
  · rename_i h
    rw [h, eraseReps_loop]
    simp

theorem eraseReps_sublist (l : List α) : l.eraseReps.Sublist l := by
  match l with
  | [] => exact List.Sublist.slnil
  | [a] => exact List.Sublist.refl _
  | a :: b :: l =>
    rw [eraseReps_cons_cons]
    split
    · exact (eraseReps_sublist (a :: l)).trans ((List.sublist_cons_self b l).cons_cons a)
    · exact (eraseReps_sublist (b :: l)).cons_cons a

variable [LawfulBEq α]

theorem mem_eraseReps {x : α} {l : List α} : x ∈ l.eraseReps ↔ x ∈ l := by
  match l with
  | [] => rfl
  | [a] => rfl
  | a :: b :: l =>
    rw [eraseReps_cons_cons]
    split
    · rename_i h
      rw [mem_eraseReps, ← eq_of_beq h]
      simp
    · rw [List.mem_cons, mem_eraseReps, ← List.mem_cons]

/-- In a sorted list equal elements are neighbours, so no repeat is left. -/
theorem nodup_eraseReps {R : α → α → Prop} (antisymm : ∀ a b, R a b → R b a → a = b) {l : List α}
    (h : l.Pairwise R) : l.eraseReps.Nodup := by
  match l with
  | [] => exact List.nodup_nil
  | [a] => exact List.nodup_cons.mpr ⟨List.not_mem_nil, List.nodup_nil⟩
  | a :: b :: l =>
    rw [eraseReps_cons_cons]
    obtain ⟨ha, hbl⟩ := List.pairwise_cons.mp h
    split
    · exact nodup_eraseReps antisymm (h.sublist ((List.sublist_cons_self b l).cons_cons a))
    · rename_i hne
      refine List.nodup_cons.mpr ⟨fun hmem => ?_, nodup_eraseReps antisymm hbl⟩
      rw [mem_eraseReps, List.mem_cons] at hmem
      rcases hmem with rfl | hmem
      · exact hne (beq_self_eq_true _)
      · -- what comes after `b` is not before it
        have hab := antisymm a b (ha b List.mem_cons_self) ((List.pairwise_cons.mp hbl).1 a hmem)
        exact hne (hab ▸ beq_self_eq_true _)

/-- Where no element comes twice nothing is dropped. -/
theorem eraseReps_of_nodup {l : List α} (h : l.Nodup) : l.eraseReps = l := by
  match l with
  | [] => rfl
  | [a] => rfl
  | a :: b :: l =>
    obtain ⟨ha, hbl⟩ := List.nodup_cons.mp h
    have hne : ¬ (a == b) = true := fun hab => ha (eq_of_beq hab ▸ List.mem_cons_self)
    rw [eraseReps_cons_cons, if_neg hne, eraseReps_of_nodup hbl]

/-! ## Equal elements -/

theorem nodup_eraseDups (l : List α) : l.eraseDups.Nodup := by
  match l with
  | [] => exact List.nodup_nil
  | a :: l =>
    rw [List.eraseDups_cons]
    refine List.nodup_cons.mpr ⟨fun ha => ?_, nodup_eraseDups (l.filter fun b => !b == a)⟩
    simpa using (List.mem_filter.mp (List.mem_eraseDups.mp ha)).2
termination_by l.length
decreasing_by exact Nat.lt_succ_of_le (List.length_filter_le ..)

end

/-! ## Reordered shapes -/

namespace Shape

theorem distinctFrom_kept (seen : Std.HashSet Shape) (kept shapes : List Shape) :
    distinctFrom seen kept shapes = kept.reverse ++ distinctFrom seen [] shapes := by
  induction shapes generalizing seen kept with
  | nil => simp [distinctFrom]
  | cons s rest ih =>
    simp only [distinctFrom]
    split
    · exact ih seen kept
    · rw [ih _ (s :: kept), ih _ [s]]
      simp

theorem distinctFrom_cons_seen {seen : Std.HashSet Shape} {s : Shape} (h : s.canonical ∈ seen)
    (rest : List Shape) : distinctFrom seen [] (s :: rest) = distinctFrom seen [] rest := by
  rw [distinctFrom, if_pos (Std.HashSet.mem_iff_contains.mp h)]

theorem distinctFrom_cons_new {seen : Std.HashSet Shape} {s : Shape} (h : s.canonical ∉ seen)
    (rest : List Shape) :
    distinctFrom seen [] (s :: rest) = s :: distinctFrom (seen.insert s.canonical) [] rest := by
  rw [distinctFrom, if_neg (fun hc => h (Std.HashSet.mem_iff_contains.mpr hc)), distinctFrom_kept]
  rfl

theorem distinctFrom_sublist (seen : Std.HashSet Shape) (shapes : List Shape) :
    (distinctFrom seen [] shapes).Sublist shapes := by
  induction shapes generalizing seen with
  | nil => exact List.Sublist.slnil
  | cons s rest ih =>
    by_cases h : s.canonical ∈ seen
    · rw [distinctFrom_cons_seen h]
      exact (ih seen).cons s
    · rw [distinctFrom_cons_new h]
      exact (ih _).cons_cons s

/-- What is kept was not seen before, and its canonical forms differ. -/
theorem distinctFrom_fresh (seen : Std.HashSet Shape) (shapes : List Shape) :
    (∀ s ∈ distinctFrom seen [] shapes, s.canonical ∉ seen) ∧
      ((distinctFrom seen [] shapes).map canonical).Nodup := by
  induction shapes generalizing seen with
  | nil => exact ⟨fun s hs => absurd hs (List.not_mem_nil), List.nodup_nil⟩
  | cons s rest ih =>
    by_cases h : s.canonical ∈ seen
    · rw [distinctFrom_cons_seen h]
      exact ih seen
    · obtain ⟨hnew, hnodup⟩ := ih (seen.insert s.canonical)
      rw [distinctFrom_cons_new h]
      refine ⟨?_, ?_⟩
      · intro t ht
        rcases List.mem_cons.mp ht with rfl | ht
        · exact h
        · intro hmem
          exact hnew t ht (Std.HashSet.mem_insert.mpr (Or.inr hmem))
      · rw [List.map_cons, List.nodup_cons]
        refine ⟨?_, hnodup⟩
        intro hmem
        obtain ⟨t, ht, hts⟩ := List.mem_map.mp hmem
        exact hnew t ht (Std.HashSet.mem_insert.mpr (Or.inl (by simp [hts])))

theorem exists_mem_distinctFrom (seen : Std.HashSet Shape) {shapes : List Shape} {s : Shape}
    (hs : s ∈ shapes) : s.canonical ∈ seen ∨ ∃ t ∈ distinctFrom seen [] shapes, t.canonical = s.canonical := by
  induction shapes generalizing seen with
  | nil => cases hs
  | cons u rest ih =>
    by_cases h : u.canonical ∈ seen
    · rw [distinctFrom_cons_seen h]
      rcases List.mem_cons.mp hs with rfl | hs
      · exact Or.inl h
      · exact ih seen hs
    · rw [distinctFrom_cons_new h]
      rcases List.mem_cons.mp hs with rfl | hs
      · exact Or.inr ⟨s, List.mem_cons_self, rfl⟩
      · rcases ih (seen.insert u.canonical) hs with hmem | ⟨t, ht, hts⟩
        · rcases Std.HashSet.mem_insert.mp hmem with heq | hmem
          · exact Or.inr ⟨u, List.mem_cons_self, eq_of_beq heq⟩
          · exact Or.inl hmem
        · exact Or.inr ⟨t, List.mem_cons_of_mem u ht, hts⟩

theorem distinct_sublist (shapes : List Shape) : (distinct shapes).Sublist shapes :=
  distinctFrom_sublist ∅ shapes

theorem nodup_canonical_distinct (shapes : List Shape) : ((distinct shapes).map canonical).Nodup :=
  (distinctFrom_fresh ∅ shapes).2

theorem nodup_distinct (shapes : List Shape) : (distinct shapes).Nodup :=
  (List.pairwise_map.mp (nodup_canonical_distinct shapes)).imp fun hne heq => hne (congrArg canonical heq)

theorem exists_mem_distinct {shapes : List Shape} {s : Shape} (hs : s ∈ shapes) :
    ∃ t ∈ distinct shapes, t.Perm s := by
  rcases exists_mem_distinctFrom ∅ hs with hmem | ⟨t, ht, hts⟩
  · exact absurd hmem Std.HashSet.not_mem_empty
  · exact ⟨t, ht, canonical_eq_iff.mp hts⟩

end Shape

end Tractor
