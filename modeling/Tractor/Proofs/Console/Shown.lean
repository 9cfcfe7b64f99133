/-
  Tractor.Proofs.Console.Shown — a shape that was shown can be typed again.

  A shape is shown with brackets around its runs and a space after each comma; it is typed
  without them (`Shape.retyped`). What is left are the decimal numerals of a run with commas
  between them and the runs with spaces between them (`Shape.retyped_shown`), so the words
  are the runs again and the parts of a word its sizes.

  - `Shape.ofTyped_retyped`: what was shown and typed again is the same shape.
  - `Shape.shown_inj`: shapes without an empty run that are shown alike are one shape.
  - `nodup_texts_ofShapes`: a listing of such shapes, each once, shows no text twice.
  - `shown_shapes_read_back`: the three together.
-/

import Tractor.Proofs.Console.Follow

namespace Tractor

/-! ## Without brackets, closed up -/

/-- The text without the space after each comma. -/
def Text.closeUp : List Char → List Char
  | [] => []
  | ',' :: ' ' :: cs => ',' :: closeUp cs
  | c :: cs => c :: closeUp cs

def Text.isBracket (c : Char) : Bool := c == '[' || c == ']'

def Shape.retyped (shown : List Char) : List Char := Text.closeUp (shown.filter (!Text.isBracket ·))

namespace Text

@[simp] theorem isBracket_open : isBracket '[' = true := rfl

@[simp] theorem isBracket_close : isBracket ']' = true := rfl

@[simp] theorem isBracket_comma : isBracket ',' = false := rfl

@[simp] theorem isBracket_space : isBracket ' ' = false := rfl

theorem isBracket_of_mem_decimal {v : Int} {c : Char} (hc : c ∈ decimal v) : isBracket c = false := by
  have hopen : c ≠ '[' := fun e => notMem_decimal rfl (by decide) v (e ▸ hc)
  have hclose : c ≠ ']' := fun e => notMem_decimal rfl (by decide) v (e ▸ hc)
  simp [isBracket, hopen, hclose]

theorem comma_notMem_decimal (v : Int) : ',' ∉ decimal v := notMem_decimal rfl (by decide) v

theorem closeUp_comma_space (cs : List Char) : closeUp (',' :: ' ' :: cs) = ',' :: closeUp cs := rfl

theorem closeUp_cons {c : Char} (h : c ≠ ',') (cs : List Char) : closeUp (c :: cs) = c :: closeUp cs := by
  rw [closeUp]
  intro _ e
  exact absurd e h

theorem closeUp_append {p : List Char} (h : ',' ∉ p) (cs : List Char) : closeUp (p ++ cs) = p ++ closeUp cs := by
  induction p with
  | nil => rfl
  | cons c p ih =>
    rw [List.mem_cons, not_or] at h
    rw [List.cons_append, closeUp_cons (Ne.symm h.1), ih h.2, List.cons_append]

theorem closeUp_intercalate_append {ps : List (List Char)} (h : ∀ p ∈ ps, ',' ∉ p) (cs : List Char) :
    closeUp ([',', ' '].intercalate ps ++ cs) = [','].intercalate ps ++ closeUp cs := by
  induction ps with
  | nil => rfl
  | cons p ps ih =>
    rw [List.forall_mem_cons] at h
    cases ps with
    | nil => simpa using closeUp_append h.1 cs
    | cons q ps =>
      simp only [List.intercalate_cons_cons, List.append_assoc, List.cons_append, List.nil_append]
      rw [closeUp_append h.1, closeUp_comma_space, ih h.2]

theorem filter_intercalate (p : Char → Bool) (separator : List Char) (ls : List (List Char)) :
    (separator.intercalate ls).filter p = (separator.filter p).intercalate (ls.map (List.filter p)) := by
  induction ls with
  | nil => rfl
  | cons l ls ih =>
    cases ls with
    | nil => simp
    | cons k ls => simp_all

theorem mem_of_mem_intercalate {separator : List Char} {ls : List (List Char)} {c : Char}
    (h : c ∈ separator.intercalate ls) : c ∈ separator ∨ ∃ l ∈ ls, c ∈ l := by
  induction ls with
  | nil => cases h
  | cons l ls ih =>
    cases ls with
    | nil => exact Or.inr ⟨l, List.mem_cons_self, by simpa using h⟩
    | cons k ls =>
      rw [List.intercalate_cons_cons, List.mem_append, List.mem_append] at h
      rcases h with (h | h) | h
      · exact Or.inr ⟨l, List.mem_cons_self, h⟩
      · exact Or.inl h
      · rcases ih h with h | ⟨m, hm, hc⟩
        · exact Or.inl h
        · exact Or.inr ⟨m, List.mem_cons_of_mem l hm, hc⟩

end Text

def Run.written (r : Run) : List Char := [','].intercalate (r.map Text.decimal)

namespace Run

theorem filter_shown (r : Run) :
    r.shown.filter (!Text.isBracket ·) = [',', ' '].intercalate (r.map Text.decimal) := by
  have hdecimal : ∀ v : Int, (Text.decimal v).filter (!Text.isBracket ·) = Text.decimal v := by
    intro v
    refine List.filter_eq_self.mpr fun c hc => ?_
    rw [Text.isBracket_of_mem_decimal hc]
    rfl
  unfold shown
  simp [Text.filter_intercalate, Function.comp_def, hdecimal]

theorem splitOn_written {r : Run} (hne : r ≠ []) : r.written.splitOn ',' = r.map Text.decimal := by
  refine List.splitOn_intercalate ',' (fun p hp => ?_) (by simpa using hne)
  obtain ⟨v, -, rfl⟩ := List.mem_map.mp hp
  exact Text.comma_notMem_decimal v

theorem written_isWord {r : Run} (hne : r ≠ []) : r.written ≠ [] ∧ ∀ c ∈ r.written, Text.isBlank c = false := by
  refine ⟨fun h => ?_, fun c hc => ?_⟩
  · have hparts := splitOn_written hne
    rw [h, List.splitOn_nil] at hparts
    obtain ⟨v, -, hv⟩ := List.mem_map.mp (hparts ▸ List.mem_singleton_self [])
    exact Text.decimal_ne_nil v hv
  · rcases Text.mem_of_mem_intercalate hc with hc | ⟨p, hp, hc⟩
    · rw [List.mem_singleton.mp hc]
      decide
    · obtain ⟨v, -, rfl⟩ := List.mem_map.mp hp
      exact Text.isBlank_of_mem_decimal hc

end Run

namespace Shape

theorem filter_shown (s : Shape) : s.shown.filter (!Text.isBracket ·) =
    [' '].intercalate (s.map fun r => [',', ' '].intercalate (r.map Text.decimal)) := by
  unfold shown
  simp [Text.filter_intercalate, Function.comp_def, Run.filter_shown]

/-- Typed again, the text of a shape is its runs with a space between each two. -/
theorem retyped_shown (s : Shape) : retyped s.shown = [' '].intercalate (s.map Run.written) := by
  unfold retyped
  rw [filter_shown]
  have hcomma : ∀ r : Run, ∀ p ∈ r.map Text.decimal, ',' ∉ p := by
    intro r p hp
    obtain ⟨v, -, rfl⟩ := List.mem_map.mp hp
    exact Text.comma_notMem_decimal v
  induction s with
  | nil => rfl
  | cons r s ih =>
    cases s with
    | nil => simpa [Run.written, Text.closeUp] using Text.closeUp_intercalate_append (hcomma r) []
    | cons q s =>
      simp only [List.map_cons, List.intercalate_cons_cons, List.append_assoc, List.cons_append, List.nil_append] at ih ⊢
      rw [Text.closeUp_intercalate_append (hcomma r), Text.closeUp_cons (by decide), ih]
      rfl

theorem words_retyped {s : Shape} (h : ∀ r ∈ s, r ≠ []) : Text.words (retyped s.shown) = s.map Run.written := by
  rw [retyped_shown]
  refine Text.words_intercalate fun w hw => ?_
  obtain ⟨r, hr, rfl⟩ := List.mem_map.mp hw
  exact Run.written_isWord (h r hr)

/-- What was shown and typed again is the same shape. -/
theorem ofTyped_retyped {s : Shape} (hne : s ≠ []) (hlead : s.IsLead)
    (hdigits : ∀ r ∈ s, ∀ v ∈ r, (Text.decimal v).length ≤ 4300) : ofTyped (retyped s.shown) = .ok s := by
  refine ofTyped_eq_iff.mpr ?_
  rw [words_retyped hlead.nonempty]
  refine .shape (by simpa using hne) (List.forall₂_map_left_iff.mpr (List.forall₂_same.mpr fun r hr => ?_))
  refine .run ?_ (hlead.positive r hr)
  rw [Run.splitOn_written (hlead.nonempty r hr), List.forall₂_map_left_iff, List.forall₂_same]
  exact fun v hv => Text.isNumeral_decimal (hdigits r hr v hv)

theorem shown_inj {s t : Shape} (hs : ∀ r ∈ s, r ≠ []) (ht : ∀ r ∈ t, r ≠ []) (h : s.shown = t.shown) : s = t := by
  have hsizes : ∀ {u : Shape}, (∀ r ∈ u, r ≠ []) →
      (Text.words (retyped u.shown)).map (List.splitOn ',') = u.map (List.map Text.decimal) := by
    intro u hu
    rw [words_retyped hu, List.map_map]
    exact List.map_congr_left fun r hr => Run.splitOn_written (hu r hr)
  have hdecimal := hsizes hs
  rw [h, hsizes ht] at hdecimal
  exact (List.map_injective_iff.mpr (List.map_injective_iff.mpr Text.decimal_injective) hdecimal).symm

end Shape

/-! ## Listings -/

namespace Console

theorem texts_ofShapes (title : String) {shapes : List Shape} (h : shapes ≠ []) :
    (Grid.ofShapes title shapes).second.cells.map Cell.text = shapes.map fun s => String.ofList s.shown := by
  unfold Grid.ofShapes
  simp [h, Function.comp_def]

/-- A listing of shapes without an empty run, each once, shows no text twice. -/
theorem nodup_texts_ofShapes (title : String) {shapes : List Shape} (hnodup : shapes.Nodup)
    (h : ∀ s ∈ shapes, ∀ r ∈ s, r ≠ []) : ((Grid.ofShapes title shapes).second.cells.map Cell.text).Nodup := by
  by_cases hne : shapes = []
  · rw [hne]
    exact List.nodup_singleton _
  · rw [texts_ofShapes title hne]
    refine hnodup.map_on fun s hs t ht e => Shape.shown_inj (h s hs) (h t ht) ?_
    exact String.ofList_injective e

/-- The command prints the shapes of `n` cards. -/
theorem Command.exists_run_decompositions_eq_ok {n : Int} (hn : 1 ≤ n) :
    ∃ events, (Command.decompositions n).run =
      (.ok (Grid.ofShapes (numbered "Decompositions of " n) (Tractor.decompositions n.toNat)).lines, events) := by
  have hanswer : (Session.empty.serve (.decompositions n)).1 = .ok (.shapes (Tractor.decompositions n.toNat)) := by
    rw [(Session.holds_empty.serve _).1, Request.answer, listDecompositions, if_neg (by omega)]
    rfl
  exact ⟨_, answered_eq_ok _ (Prod.ext hanswer rfl)⟩

end Console

/-- The text of a shape, with its brackets taken out and the space after each comma, is read as
    the same shape. So shapes that are shown alike are one shape, and the table of the shapes of
    `n` cards has no text in two rows. -/
theorem shown_shapes_read_back :
    (∀ s : Shape, s ≠ [] → s.IsLead → (∀ r ∈ s, ∀ v ∈ r, (Text.decimal v).length ≤ 4300) →
      Shape.ofText (String.ofList (Shape.retyped s.shown)) = .ok s) ∧
    (∀ s t : Shape, s.IsLead → t.IsLead → s.shown = t.shown → s = t) ∧
    ∀ n : Int, 1 ≤ n → ∃ shapes events, listDecompositions n = .ok shapes ∧
      (Console.Command.decompositions n).run =
        (.ok (Console.Grid.ofShapes (Console.numbered "Decompositions of " n) shapes).lines, events) ∧
      ((Console.Grid.ofShapes (Console.numbered "Decompositions of " n) shapes).second.cells.map
        Console.Cell.text).Nodup := by
  refine ⟨fun s hne hlead hdigits => ?_, fun s t hs ht => Shape.shown_inj hs.nonempty ht.nonempty, fun n hn => ?_⟩
  · rw [Shape.ofText, String.toList_ofList]
    exact Shape.ofTyped_retyped hne hlead hdigits
  · obtain ⟨events, hrun⟩ := Console.Command.exists_run_decompositions_eq_ok hn
    refine ⟨_, events, if_neg (by omega), hrun, Console.nodup_texts_ofShapes _ (Shape.nodup_distinct _) fun s hs r hr => ?_⟩
    exact ((mem_decompositions.mp hs).legal r hr).1

/-- A tractor of two pairs beside ten cards of a kind, the same with the pairs apart, and the
    table of two cards. -/
theorem shown_shapes_read_back_tractor :
    Shape.IsLead [[2, 2], [10]] ∧ (∀ r ∈ ([[2, 2], [10]] : Shape), ∀ v ∈ r, (Text.decimal v).length ≤ 4300) ∧
    Shape.ofText (String.ofList (Shape.retyped (Shape.shown [[2, 2], [10]]))) = .ok [[2, 2], [10]] ∧
    Shape.IsLead [[2], [2], [10]] ∧ Shape.shown [[2, 2], [10]] ≠ Shape.shown [[2], [2], [10]] ∧
    ∃ shapes events, listDecompositions 2 = .ok shapes ∧
      (Console.Command.decompositions 2).run =
        (.ok (Console.Grid.ofShapes (Console.numbered "Decompositions of " 2) shapes).lines, events) ∧
      ((Console.Grid.ofShapes (Console.numbered "Decompositions of " 2) shapes).second.cells.map
        Console.Cell.text).Nodup := by
  have hlead : Shape.IsLead [[2, 2], [10]] := by decide
  have hapart : Shape.IsLead [[2], [2], [10]] := by decide
  have hdigits : ∀ r ∈ ([[2, 2], [10]] : Shape), ∀ v ∈ r, (Text.decimal v).length ≤ 4300 := by decide +kernel
  obtain ⟨hread, hinj, htable⟩ := shown_shapes_read_back
  refine ⟨hlead, hdigits, hread _ (by decide) hlead hdigits, hapart, fun e => ?_, htable 2 (by decide)⟩
  exact absurd (hinj _ _ hlead hapart e) (by decide)

end Tractor
