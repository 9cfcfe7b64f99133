/-
  Tractor.Proofs.Text.Words — the words of a text, and a text put together from words.

  A word is a stretch without a blank that ends where the text ends or a blank follows, and
  begins where the text begins or after a blank. `IsWords` says of a text and a list that
  the list is all its words in order; it reads the text from left to right, a blank or a
  whole word at a time.

  - `words_eq_iff`: `words` gives these and nothing else.
  - `words_intercalate`: words with a space between each two are read back as they are.
-/

import Tractor.Text.Blank

namespace Tractor.Text

/-! ## Pieces -/

theorem pieces_eq_splitOnP (separator : Char → Bool) (cs : List Char) :
    pieces separator cs = cs.splitOnP separator := by
  induction cs with
  | nil => rfl
  | cons c cs ih =>
    rw [pieces, List.splitOnP_cons_eq_if_modifyHead, ih]
    split
    · rfl
    · cases hsplit : cs.splitOnP separator with
      | nil => exact absurd hsplit (List.splitOnP_ne_nil separator cs)
      | cons p ps => rfl

theorem exists_pieces_eq_cons (separator : Char → Bool) (cs : List Char) : ∃ p ps, pieces separator cs = p :: ps := by
  rw [pieces_eq_splitOnP]
  exact List.exists_cons_of_ne_nil (List.splitOnP_ne_nil separator cs)

theorem mem_of_mem_pieces {separator : Char → Bool} {cs p : List Char} (hp : p ∈ pieces separator cs) :
    ∀ c ∈ p, c ∈ cs := by
  induction cs generalizing p with
  | nil =>
    rw [List.mem_singleton.mp hp]
    simp
  | cons x cs ih =>
    obtain ⟨q, qs, hpieces⟩ := exists_pieces_eq_cons separator cs
    intro c hc
    unfold pieces at hp
    rw [hpieces] at hp ih
    split at hp
    · rcases List.mem_cons.mp hp with rfl | hp
      · cases hc
      · exact List.mem_cons_of_mem x (ih hp c hc)
    · rcases List.mem_cons.mp hp with rfl | hp
      · rcases List.mem_cons.mp hc with rfl | hc
        · exact List.mem_cons_self
        · exact List.mem_cons_of_mem x (ih List.mem_cons_self c hc)
      · exact List.mem_cons_of_mem x (ih (List.mem_cons_of_mem q hp) c hc)

theorem pieces_eq_splitOn (c : Char) (cs : List Char) : pieces (· == c) cs = cs.splitOn c := by
  rw [pieces_eq_splitOnP, List.splitOn_eq_splitOnP]

/-! ## Words -/

inductive IsWords : List Char → List (List Char) → Prop
  | nil : IsWords [] []
  | blank {c : Char} {cs : List Char} {ws : List (List Char)} :
      isBlank c = true → IsWords cs ws → IsWords (c :: cs) ws
  | word {w cs : List Char} {ws : List (List Char)} :
      w ≠ [] → (∀ c ∈ w, isBlank c = false) → (∀ c ∈ cs.head?, isBlank c = true) → IsWords cs ws →
      IsWords (w ++ cs) (w :: ws)

@[simp] theorem words_nil : words [] = [] := rfl

theorem words_cons_blank {c : Char} (hc : isBlank c = true) (cs : List Char) : words (c :: cs) = words cs := by
  simp [words, pieces, hc]

theorem words_append {w cs : List Char} (hne : w ≠ []) (hw : ∀ c ∈ w, isBlank c = false)
    (hcs : ∀ c ∈ cs.head?, isBlank c = true) : words (w ++ cs) = w :: words cs := by
  cases cs with
  | nil =>
    unfold words
    rw [List.append_nil, pieces_eq_splitOnP, List.splitOnP_eq_singleton hw]
    simp [hne, pieces]
  | cons c cs =>
    have hc : isBlank c = true := hcs c rfl
    rw [words_cons_blank hc]
    unfold words
    rw [pieces_eq_splitOnP, List.splitOnP_append_cons_of_forall_mem hw c hc, pieces_eq_splitOnP]
    simp [hne]

theorem IsWords.words_eq {cs : List Char} {ws : List (List Char)} (h : IsWords cs ws) : words cs = ws := by
  induction h with
  | nil => rfl
  | blank hc _ ih => rw [words_cons_blank hc, ih]
  | word hne hw hcs _ ih => rw [words_append hne hw hcs, ih]

theorem isWords_words : ∀ cs : List Char, IsWords cs (words cs)
  | [] => .nil
  | c :: cs => by
    by_cases hc : isBlank c = true
    · rw [words_cons_blank hc]
      exact .blank hc (isWords_words cs)
    · -- the word that `c` begins goes on up to the first blank, and what follows is shorter
      have hsplit := List.takeWhile_append_dropWhile (p := fun x => !isBlank x) (l := c :: cs)
      have hne : (c :: cs).takeWhile (fun x => !isBlank x) ≠ [] := by simp [hc]
      have hw : ∀ x ∈ (c :: cs).takeWhile (fun x => !isBlank x), isBlank x = false := by
        intro x hx
        simpa using List.all_eq_true.mp List.all_takeWhile x hx
      have hrest : ∀ x ∈ ((c :: cs).dropWhile fun x => !isBlank x).head?, isBlank x = true := by
        intro x hx
        have := List.head?_dropWhile_not (fun x => !isBlank x) (c :: cs)
        simp_all
      have hshorter : ((c :: cs).dropWhile fun x => !isBlank x).length < (c :: cs).length := by
        rw [List.dropWhile_cons_of_pos (by simp [hc]), List.length_cons]
        exact Nat.lt_succ_of_le (List.dropWhile_suffix _).length_le
      rw [← hsplit, words_append hne hw hrest]
      exact .word hne hw hrest (isWords_words _)
termination_by cs => cs.length
decreasing_by
  · exact Nat.lt_succ_self cs.length
  · exact hshorter

/-- The words of a text are its longest stretches without a blank. -/
theorem words_eq_iff {cs : List Char} {ws : List (List Char)} : words cs = ws ↔ IsWords cs ws := by
  refine ⟨fun h => ?_, IsWords.words_eq⟩
  rw [← h]
  exact isWords_words cs

theorem IsWords.of_mem {cs : List Char} {ws : List (List Char)} (h : IsWords cs ws) :
    ∀ w ∈ ws, w ≠ [] ∧ ∀ c ∈ w, isBlank c = false := by
  induction h with
  | nil => simp
  | blank _ _ ih => exact ih
  | word hne hw _ _ ih => exact List.forall_mem_cons.mpr ⟨⟨hne, hw⟩, ih⟩

theorem words_intercalate {ws : List (List Char)} (h : ∀ w ∈ ws, w ≠ [] ∧ ∀ c ∈ w, isBlank c = false) :
    words ([' '].intercalate ws) = ws := by
  induction ws with
  | nil => rfl
  | cons w ws ih =>
    rw [List.forall_mem_cons] at h
    obtain ⟨⟨hne, hw⟩, hws⟩ := h
    cases ws with
    | nil =>
      have hend : words (w ++ []) = w :: words [] := words_append hne hw (by simp)
      simpa using hend
    | cons v ws =>
      have hspace : isBlank ' ' = true := by decide
      rw [List.intercalate_cons_cons, List.append_assoc, List.singleton_append, words_append hne hw (by simp [hspace]),
        words_cons_blank hspace, ih hws]

/-! ## Ends -/

theorem dropWhile_eq_self {kind : Char → Bool} {cs : List Char} (h : ∀ c ∈ cs, kind c = false) :
    cs.dropWhile kind = cs := by
  cases cs with
  | nil => rfl
  | cons c cs => exact List.dropWhile_cons_of_neg (by simp [h c])

theorem trim_eq_self {kind : Char → Bool} {cs : List Char} (h : ∀ c ∈ cs, kind c = false) : trim kind cs = cs := by
  unfold trim
  rw [dropWhile_eq_self h, dropWhile_eq_self (by simpa using h), List.reverse_reverse]

end Tractor.Text
