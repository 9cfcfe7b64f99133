/-
  Tractor.Proofs.Shape.Distinct — which of the shapes that reorder one another is kept.

  Dropping repeats goes through a list once and remembers canonical forms. What it keeps
  can be told from the list alone: the shapes that reorder the runs of none before them.

  - `Shape.distinct_concat`: a shape at the end is kept unless it reorders an earlier one.
  - `Shape.distinct_eq_firstSeen`: what is kept, by the places in the list.
  - `Shape.distinct_of_nodup`: where no shape reorders another all are kept.
  - `Shape.distinct_keeps_first_seen`: of the shapes with one canonical form the first is
    kept and no other, so every shape has one of its reorderings among those that are kept.
-/

import Mathlib.Data.List.Induction
import Mathlib.Data.List.Nodup
import Mathlib.Data.List.Perm.Subperm
import Tractor.Proofs.Shape.Repeats

namespace Tractor

namespace Shape

/-- The shapes of a list that reorder the runs of none before them. -/
def firstSeen (shapes : List Shape) : List Shape :=
  (shapes.zipIdx.filter fun (p : Shape × Nat) => decide (∀ t ∈ shapes.take p.2, ¬ t.Perm p.1)).map Prod.fst

/-! ## One shape more -/

theorem distinctFrom_concat (seen : Std.HashSet Shape) (shapes : List Shape) (s : Shape) :
    distinctFrom seen [] (shapes ++ [s]) =
      distinctFrom seen [] shapes ++ if s.canonical ∈ seen ∨ ∃ t ∈ shapes, t.Perm s then [] else [s] := by
  induction shapes generalizing seen with
  | nil =>
    by_cases h : s.canonical ∈ seen
    · simp [distinctFrom_cons_seen h, distinctFrom, h]
    · simp [distinctFrom_cons_new h, distinctFrom, h]
  | cons u rest ih =>
    rw [List.cons_append]
    by_cases h : u.canonical ∈ seen
    · -- a reordering of `u` was seen as well
      have hu : u.Perm s → s.canonical ∈ seen := fun hus => canonical_eq_of_perm hus ▸ h
      have hseen : (s.canonical ∈ seen ∨ ∃ t ∈ rest, t.Perm s) ↔ s.canonical ∈ seen ∨ ∃ t ∈ u :: rest, t.Perm s := by
        rw [List.exists_mem_cons_iff, ← or_assoc, or_iff_left_of_imp hu]
      rw [distinctFrom_cons_seen h, distinctFrom_cons_seen h, ih]
      simp only [hseen]
    · have hseen : (s.canonical ∈ seen.insert u.canonical ∨ ∃ t ∈ rest, t.Perm s) ↔
          s.canonical ∈ seen ∨ ∃ t ∈ u :: rest, t.Perm s := by
        rw [List.exists_mem_cons_iff, Std.HashSet.mem_insert, beq_iff_eq, canonical_eq_iff, or_left_comm, or_assoc]
      rw [distinctFrom_cons_new h, distinctFrom_cons_new h, ih, List.cons_append]
      simp only [hseen]

theorem distinct_concat (shapes : List Shape) (s : Shape) :
    distinct (shapes ++ [s]) = distinct shapes ++ if ∃ t ∈ shapes, t.Perm s then [] else [s] := by
  unfold distinct
  rw [distinctFrom_concat]
  simp only [Std.HashSet.not_mem_empty, false_or]

theorem firstSeen_concat (shapes : List Shape) (s : Shape) :
    firstSeen (shapes ++ [s]) = firstSeen shapes ++ if ∃ t ∈ shapes, t.Perm s then [] else [s] := by
  have hbefore : (shapes.zipIdx.filter fun (p : Shape × Nat) => decide (∀ t ∈ (shapes ++ [s]).take p.2, ¬ t.Perm p.1)) =
      shapes.zipIdx.filter fun (p : Shape × Nat) => decide (∀ t ∈ shapes.take p.2, ¬ t.Perm p.1) := by
    refine List.filter_congr fun p hp => ?_
    have hle : p.2 ≤ shapes.length := by
      have := List.snd_lt_of_mem_zipIdx hp
      omega
    rw [List.take_append_of_le_length hle]
  have hlast : (∀ t ∈ (shapes ++ [s]).take shapes.length, ¬ t.Perm s) ↔ ¬ ∃ t ∈ shapes, t.Perm s := by
    rw [List.take_left]
    simp
  unfold firstSeen
  rw [List.zipIdx_append, List.filter_append, List.map_append, hbefore, Nat.zero_add, List.zipIdx_singleton]
  simp only [List.filter_singleton, hlast]
  by_cases h : ∃ t ∈ shapes, t.Perm s <;> simp [h]

theorem distinct_eq_firstSeen (shapes : List Shape) : distinct shapes = firstSeen shapes := by
  induction shapes using List.reverseRecOn with
  | nil => rfl
  | append_singleton shapes s ih => rw [distinct_concat, firstSeen_concat, ih]

/-! ## One of each -/

/-- Where no shape reorders another all are kept. -/
theorem distinct_of_nodup {shapes : List Shape} (h : (shapes.map canonical).Nodup) : distinct shapes = shapes := by
  refine (distinct_sublist shapes).eq_of_length_le ?_
  refine (List.subperm_of_subset h.of_map fun s hs => ?_).length_le
  obtain ⟨t, ht, hts⟩ := exists_mem_distinct hs
  rwa [List.inj_on_of_nodup_map h ((distinct_sublist shapes).subset ht) hs (canonical_eq_of_perm hts)] at ht

theorem countP_distinct {shapes : List Shape} {s : Shape} (hs : s ∈ shapes) :
    (distinct shapes).countP (fun t => t.Perm s) = 1 := by
  obtain ⟨t, ht, hts⟩ := exists_mem_distinct hs
  have hmem : s.canonical ∈ (distinct shapes).map canonical := List.mem_map.mpr ⟨t, ht, canonical_eq_of_perm hts⟩
  have hcount := List.count_eq_one_of_mem (nodup_canonical_distinct shapes) hmem
  rw [List.count_eq_countP, List.countP_map] at hcount
  rw [← hcount]
  refine List.countP_congr fun t _ => ?_
  simp [canonical_eq_iff]

/-- Canonical forms tell shapes apart up to the order of their runs. Of a list of shapes
    those are kept, in order, that reorder none before them; dropping repeats again drops
    nothing, and every shape of the list reorders exactly one that is kept. -/
theorem distinct_keeps_first_seen (a b : Shape) (shapes : List Shape) :
    (a.canonical = b.canonical ↔ b.Perm a) ∧ (distinct shapes).Sublist shapes ∧
      distinct shapes = firstSeen shapes ∧ distinct (distinct shapes) = distinct shapes ∧
      ∀ s ∈ shapes, (distinct shapes).countP (fun t => t.Perm s) = 1 := by
  refine ⟨?_, distinct_sublist shapes, distinct_eq_firstSeen shapes, ?_, fun s hs => countP_distinct hs⟩
  · rw [canonical_eq_iff]
    exact List.perm_comm
  · exact distinct_of_nodup (nodup_canonical_distinct shapes)

/-- Runs of any numbers, one of them empty: the last shape reorders the first. -/
theorem distinct_keeps_first_seen_pairs :
    [[3], [], [2, -1]] ∈ [[[2, -1], [3], []], [[3], [2]], [[3], [], [2, -1]]] ∧
      (distinct [[[2, -1], [3], []], [[3], [2]], [[3], [], [2, -1]]]).countP
        (fun t => t.Perm [[3], [], [2, -1]]) = 1 := by
  have hmem : [[3], [], [2, -1]] ∈ [[[2, -1], [3], []], [[3], [2]], [[3], [], [2, -1]]] := by decide
  obtain ⟨-, -, -, -, hone⟩ := distinct_keeps_first_seen [] [] [[[2, -1], [3], []], [[3], [2]], [[3], [], [2, -1]]]
  exact ⟨hmem, hone _ hmem⟩

end Shape

end Tractor
