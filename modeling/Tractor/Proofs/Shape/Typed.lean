/-
  Tractor.Proofs.Shape.Typed — which texts are typed shapes, and what is refused.

  A text is read word by word. The parts of a word lie between its commas. A word is a run
  when each part is a numeral and none stands for a number below one; with a part that is no
  numeral it is a bad run, and otherwise it has a bad size (`Run.Reading`). A text is a
  shape when it has a word and every word is a run; of the words that are none the leftmost
  is what the refusal names (`Shape.Reading`).

  - `Run.ofTyped_eq_iff`: a word without a blank is read in just this way.
  - `Shape.ofText_grammar`: so is every text.
-/

import Tractor.Proofs.Shape.Lists
import Tractor.Proofs.Text.Numeral
import Tractor.Shape.Written

namespace Tractor

/-! ## Runs -/

inductive Run.Reading (word : List Char) : Except ShapeFault Run → Prop
  | run {r : Run} : List.Forall₂ Text.IsNumeral (word.splitOn ',') r → (∀ v ∈ r, 1 ≤ v) → Reading word (.ok r)
  | badSize {r : Run} : List.Forall₂ Text.IsNumeral (word.splitOn ',') r → (∃ v ∈ r, v < 1) →
      Reading word (.error (.badSize (String.ofList word)))
  | badRun {part : List Char} : part ∈ word.splitOn ',' → (∀ v, ¬ Text.IsNumeral part v) →
      Reading word (.error (.badRun (String.ofList word)))

section

variable {word : List Char} (hword : ∀ c ∈ word, Text.isBlank c = false)

include hword

theorem Text.integer?_part_iff {part : List Char} (hpart : part ∈ word.splitOn ',') {v : Int} :
    integer? part = some v ↔ IsNumeral part v := by
  refine integer?_eq_some_iff fun c hc => hword c ?_
  rw [← pieces_eq_splitOn] at hpart
  exact mem_of_mem_pieces hpart c hc

theorem Text.mapM_integer?_parts_iff {vs : List Int} :
    (word.splitOn ',').mapM integer? = some vs ↔ List.Forall₂ IsNumeral (word.splitOn ',') vs := by
  rw [mapM_eq_some_iff]
  refine ⟨fun h => ?_, fun h => ?_⟩
  · exact forall₂_imp_of_mem h fun _ hpart _ => (integer?_part_iff hword hpart).mp
  · exact forall₂_imp_of_mem h fun _ hpart _ => (integer?_part_iff hword hpart).mpr

theorem Run.reading_ofTyped : Reading word (ofTyped word) := by
  unfold ofTyped
  rw [Text.pieces_eq_splitOn]
  cases hparts : (word.splitOn ',').mapM Text.integer? with
  | none =>
    obtain ⟨part, hpart, hnone⟩ := mapM_eq_none_iff.mp hparts
    refine .badRun hpart fun v hv => ?_
    rw [(Text.integer?_part_iff hword hpart).mpr hv] at hnone
    cases hnone
  | some r =>
    have hr := (Text.mapM_integer?_parts_iff hword).mp hparts
    by_cases hsmall : r.any (· < 1) = true
    · show Reading word (if r.any (· < 1) then _ else _)
      rw [if_pos hsmall]
      exact .badSize hr (by simpa using hsmall)
    · show Reading word (if r.any (· < 1) then _ else _)
      rw [if_neg hsmall]
      exact .run hr (by simpa using hsmall)

theorem Run.ofTyped_eq_iff {answer : Except ShapeFault Run} : ofTyped word = answer ↔ Reading word answer := by
  refine ⟨fun h => h ▸ reading_ofTyped hword, fun h => ?_⟩
  unfold ofTyped
  rw [Text.pieces_eq_splitOn]
  cases h with
  | run hr hpositive =>
    rw [(Text.mapM_integer?_parts_iff hword).mpr hr]
    exact if_neg (by simpa using hpositive)
  | badSize hr hsmall =>
    rw [(Text.mapM_integer?_parts_iff hword).mpr hr]
    exact if_pos (by simpa using hsmall)
  | badRun hpart hno =>
    have hnone : (word.splitOn ',').mapM Text.integer? = none := by
      refine mapM_eq_none_iff.mpr ⟨_, hpart, Option.eq_none_iff_forall_ne_some.mpr fun v hv => ?_⟩
      exact hno v ((Text.integer?_part_iff hword hpart).mp hv)
    rw [hnone]

end

/-! ## Shapes -/

inductive Shape.Reading : List (List Char) → Except ShapeFault Shape → Prop
  | noRun : Reading [] (.error .noRun)
  | shape {words : List (List Char)} {s : Shape} :
      words ≠ [] → List.Forall₂ (fun word r => Run.Reading word (.ok r)) words s → Reading words (.ok s)
  | leftmost {before after : List (List Char)} {word : List Char} {fault : ShapeFault} :
      (∀ w ∈ before, ∃ r, Run.Reading w (.ok r)) → Run.Reading word (.error fault) →
      Reading (before ++ word :: after) (.error fault)

theorem Shape.mapM_ofTyped_eq_iff {words : List (List Char)} (hne : words ≠ [])
    (hwords : ∀ w ∈ words, ∀ c ∈ w, Text.isBlank c = false) {answer : Except ShapeFault Shape} :
    words.mapM Run.ofTyped = answer ↔ Reading words answer := by
  refine ⟨fun h => ?_, fun h => ?_⟩
  · cases answer with
    | ok s =>
      exact .shape hne (forall₂_imp_of_mem (mapM_eq_ok_iff.mp h) fun w hw _ => (Run.ofTyped_eq_iff (hwords w hw)).mp)
    | error fault =>
      obtain ⟨before, word, after, hsplit, hbefore, hword⟩ := mapM_eq_error_iff.mp h
      rw [hsplit, List.forall_mem_append, List.forall_mem_cons] at hwords
      rw [hsplit]
      refine .leftmost (fun w hw => ?_) ((Run.ofTyped_eq_iff hwords.2.1).mp hword)
      obtain ⟨r, hr⟩ := hbefore w hw
      exact ⟨r, (Run.ofTyped_eq_iff (hwords.1 w hw)).mp hr⟩
  · cases h with
    | noRun => exact absurd rfl hne
    | shape _ hs =>
      exact mapM_eq_ok_iff.mpr (forall₂_imp_of_mem hs fun w hw _ => (Run.ofTyped_eq_iff (hwords w hw)).mpr)
    | leftmost hbefore hword =>
      rw [List.forall_mem_append, List.forall_mem_cons] at hwords
      refine mapM_eq_error_iff.mpr ⟨_, _, _, rfl, fun w hw => ?_, (Run.ofTyped_eq_iff hwords.2.1).mpr hword⟩
      obtain ⟨r, hr⟩ := hbefore w hw
      exact ⟨r, (Run.ofTyped_eq_iff (hwords.1 w hw)).mpr hr⟩

theorem Shape.Reading.eq_noRun {words : List (List Char)} {answer : Except ShapeFault Shape} (h : Reading words answer)
    (hnil : words = []) : answer = .error .noRun := by
  cases h with
  | noRun => rfl
  | shape hne _ => exact absurd hnil hne
  | leftmost _ _ => simp at hnil

theorem Shape.ofTyped_eq_iff {typed : List Char} {answer : Except ShapeFault Shape} :
    ofTyped typed = answer ↔ Reading (Text.words typed) answer := by
  unfold ofTyped
  cases hwords : Text.words typed with
  | nil =>
    refine ⟨fun h => ?_, fun h => (h.eq_noRun rfl).symm⟩
    rw [← h]
    exact .noRun
  | cons w ws =>
    have hmem := (Text.words_eq_iff.mp hwords).of_mem
    exact mapM_ofTyped_eq_iff (by simp) fun v hv => (hmem v hv).2

example : Shape.ofText " 2,+1_0\t0,x -1 " = .error (.badRun "0,x") := by decide +kernel

end Tractor
