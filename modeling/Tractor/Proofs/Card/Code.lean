/-
  Tractor.Proofs.Card.Code — each code is read as its card, and nothing else is.

  A suit's value is one character, and none is the last character of a joker's, so of a
  code the last character tells whether a rank and a suit follow, and where the rank ends.
  What is read is therefore the code of its card (`eq_code_of_ofPlainCode?`), and a code is
  read back (`ofPlainCode?_code`); that different cards have different codes comes with it.

  Upper case matters on few characters. `Text.IsUpper` says what it is on ASCII and on the
  characters that become ASCII; only the long s among these becomes a part of a code, so the
  upper case of all the others makes no difference (`Text.IsUpper.flatMap_eq_iff`).

  - `Card.words_formatAll`: the codes of cards with spaces between are their words again.
  - `Card.ofCodes_exact`: what one code, a line of codes and a list of codes are read as.
-/

import Tractor.Card.Code
import Tractor.Proofs.Shape.Lists
import Tractor.Proofs.Text.Words

namespace Tractor

/-! ## Values -/

/-- Where each element is found by its own text, it is found by no other. -/
theorem find?_beq_eq_some_iff {α : Type} {all : List α} {value : α → String} {text : String} {a : α}
    (h : all.find? (value · == value a) = some a) : all.find? (value · == text) = some a ↔ text = value a := by
  constructor
  · intro ha
    have hbeq := List.find?_some ha
    exact (eq_of_beq hbeq).symm
  · intro ha
    rw [ha, h]

theorem Suit.ofValue?_eq_some_iff {text : String} {s : Suit} : ofValue? text = some s ↔ text = s.value :=
  find?_beq_eq_some_iff s.ofValue?_value

theorem Rank.ofValue?_eq_some_iff {text : String} {r : Rank} : ofValue? text = some r ↔ text = r.value :=
  find?_beq_eq_some_iff r.ofValue?_value

theorem Joker.ofValue?_eq_some_iff {text : String} {j : Joker} : ofValue? text = some j ↔ text = j.value :=
  find?_beq_eq_some_iff j.ofValue?_value

/-- A suit's value is one character, and not the last of a joker's. -/
theorem Suit.exists_value_eq_singleton (s : Suit) : ∃ x, x ≠ 'J' ∧ s.value = String.singleton x := by
  cases s with
  | clubs => exact ⟨'C', by decide, rfl⟩
  | diamonds => exact ⟨'D', by decide, rfl⟩
  | hearts => exact ⟨'H', by decide, rfl⟩
  | spades => exact ⟨'S', by decide, rfl⟩

theorem Joker.getLast?_value (j : Joker) : j.value.toList.getLast? = some 'J' := by cases j <;> rfl

namespace Card

/-! ## One code -/

theorem ofFace?_eq_some_iff {cs : List Char} {c : Card} :
    ofFace? cs = some c ↔ ∃ r s, c = suited r s ∧ cs = r.value.toList ++ s.value.toList := by
  unfold ofFace?
  simp only [Option.bind_eq_bind, Option.bind_eq_some_iff, Suit.ofValue?_eq_some_iff, Rank.ofValue?_eq_some_iff,
    Option.pure_def, Option.some.injEq]
  constructor
  · intro ⟨x, hx, s, hs, r, hr, hc⟩
    obtain ⟨face, rfl⟩ := List.getLast?_eq_some_iff.mp hx
    refine ⟨r, s, hc.symm, ?_⟩
    rw [List.dropLast_concat] at hr
    rw [← hs, ← hr, String.toList_ofList, String.toList_singleton]
  · intro ⟨r, s, hc, hcs⟩
    obtain ⟨x, -, hx⟩ := s.exists_value_eq_singleton
    rw [hx, String.toList_singleton] at hcs
    subst hcs
    refine ⟨x, by simp, s, hx.symm, r, ?_, hc.symm⟩
    rw [List.dropLast_concat, String.ofList_toList]

/-- What is read is the code of the card. -/
theorem eq_code_of_ofPlainCode? {cs : List Char} {c : Card} (h : ofPlainCode? cs = some c) : cs = c.code.toList := by
  unfold ofPlainCode? at h
  split at h
  · rename_i j hj
    rw [← Option.some.inj h, code, ← Joker.ofValue?_eq_some_iff.mp hj, String.toList_ofList]
  · obtain ⟨r, s, rfl, rfl⟩ := ofFace?_eq_some_iff.mp h
    rw [code, String.toList_append]

/-- The code of a card is read as the card. -/
theorem ofPlainCode?_code (c : Card) : ofPlainCode? c.code.toList = some c := by
  unfold ofPlainCode?
  rw [String.ofList_toList]
  cases c with
  | joker j =>
    rw [code, Joker.ofValue?_value]
  | suited r s =>
    have hjoker : Joker.ofValue? (suited r s).code = none := by
      refine Option.eq_none_iff_forall_ne_some.mpr fun j hj => ?_
      -- the last characters differ
      obtain ⟨x, hne, hx⟩ := s.exists_value_eq_singleton
      have hlast := j.getLast?_value
      rw [← Joker.ofValue?_eq_some_iff.mp hj, code, hx, String.toList_append, String.toList_singleton,
        List.getLast?_concat] at hlast
      exact hne (Option.some.inj hlast)
    rw [hjoker]
    exact ofFace?_eq_some_iff.mpr ⟨r, s, rfl, String.toList_append⟩

theorem ofPlainCode?_eq_some_iff {cs : List Char} {c : Card} : ofPlainCode? cs = some c ↔ cs = c.code.toList := by
  refine ⟨eq_code_of_ofPlainCode?, fun h => ?_⟩
  rw [h, ofPlainCode?_code]

/-- Different cards have different codes. -/
theorem code_injective : Function.Injective code := by
  intro a b h
  have hread := ofPlainCode?_code a
  rw [h, ofPlainCode?_code b] at hread
  exact (Option.some.inj hread).symm

theorem ofCode_eq_ok_iff {s : String} {c : Card} : ofCode s = .ok c ↔ plainCode s = c.code.toList := by
  rw [← ofPlainCode?_eq_some_iff]
  unfold ofCode
  cases ofPlainCode? (plainCode s) <;> simp

theorem ofCode_eq_error_iff {s : String} {e : CardFault} :
    ofCode s = .error e ↔ e = .badCode s ∧ ∀ c, ofCode s ≠ .ok c := by
  unfold ofCode
  cases ofPlainCode? (plainCode s) <;> simp [eq_comm]

/-! ## Characters of codes -/

/-- The characters of codes are ASCII, are not blank and stay in upper case. -/
theorem of_mem_code {c : Card} {x : Char} (hx : x ∈ c.code.toList) :
    x.toNat < 128 ∧ Text.isBlank x = false ∧ Text.upperChar x = x := by
  have hdeck : ∀ c ∈ deck, (c.code.toList.all fun x =>
      decide (x.toNat < 128) && (!Text.isBlank x && Text.upperChar x == x)) = true := by
    decide +kernel
  simpa using List.all_eq_true.mp (hdeck c c.mem_deck) x hx

theorem code_ne_nil (c : Card) : c.code.toList ≠ [] := by
  intro h
  have hread := ofPlainCode?_code c
  rw [h] at hread
  cases hread

theorem plainCode_code (c : Card) : plainCode c.code = c.code.toList := by
  rw [plainCode, Text.strip, Text.trim_eq_self fun x hx => (of_mem_code hx).2.1]
  exact map_eq_self fun x hx => (of_mem_code hx).2.2

theorem ofCode_code (c : Card) : ofCode c.code = .ok c := ofCode_eq_ok_iff.mpr c.plainCode_code

/-! ## Several codes -/

/-- The words of codes with spaces between are the codes. -/
theorem words_formatAll (cards : List Card) :
    (Text.words (formatAll cards).toList).map String.ofList = cards.map code := by
  have hwords : ∀ w ∈ cards.map fun c => c.code.toList, w ≠ [] ∧ ∀ x ∈ w, Text.isBlank x = false := by
    intro w hw
    obtain ⟨c, -, rfl⟩ := List.mem_map.mp hw
    exact ⟨c.code_ne_nil, fun x hx => (of_mem_code hx).2.1⟩
  rw [formatAll, String.toList_ofList, Text.words_intercalate hwords, List.map_map]
  exact List.map_congr_left fun c _ => String.ofList_toList

theorem ofCodes_map_code (cards : List Card) : ofCodes (cards.map code) = .ok cards :=
  mapM_eq_ok_iff.mpr (List.forall₂_map_left_iff.mpr (List.forall₂_same.mpr fun c _ => c.ofCode_code))

theorem exists_ofCodes_eq_ok {codes : List String} (h : ∀ s ∈ codes, ∃ c, ofCode s = .ok c) :
    ∃ cards, ofCodes codes = .ok cards := by
  cases hcodes : ofCodes codes with
  | ok cards => exact ⟨cards, rfl⟩
  | error e =>
    obtain ⟨before, s, after, rfl, -, hs⟩ := mapM_eq_error_iff.mp hcodes
    obtain ⟨c, hc⟩ := h s (List.mem_append_right before List.mem_cons_self)
    exact absurd hc ((ofCode_eq_error_iff.mp hs).2 c)

/-- Cards that are formatted alike are the same cards in the same order. -/
theorem formatAll_injective : Function.Injective formatAll := by
  intro cs ds h
  have hcodes := words_formatAll cs
  rw [h, words_formatAll] at hcodes
  exact (List.map_injective_iff.mpr code_injective hcodes).symm

end Card

/-! ## Upper case -/

namespace Text

/-- The upper case of the dotless i, of the sharp s and of the ligatures. -/
def plainUppers : List (List Char) :=
  [['I'], ['S', 'S'], ['F', 'F'], ['F', 'I'], ['F', 'L'], ['F', 'F', 'I'], ['F', 'F', 'L'], ['S', 'T']]

/-- What upper case is: a letter for a letter on ASCII, and on the other characters except a few
    a text that is not all ASCII. -/
structure IsUpper (up : Char → List Char) : Prop where
  ascii : ∀ x : Char, x.toNat < 128 → up x = [x.toUpper]
  longS : up 'ſ' = ['S']
  other : ∀ x : Char, 128 ≤ x.toNat → x ≠ 'ſ' → (∃ y ∈ up x, 128 ≤ y.toNat) ∨ up x ∈ plainUppers

theorem not_infix_of_mem_plainUppers {text : List Char} (h : text ∈ plainUppers) (c : Card) :
    ¬ text <:+: c.code.toList := by
  have hdeck : ∀ text ∈ plainUppers, ∀ c ∈ Card.deck, ¬ text <:+: c.code.toList := by decide +kernel
  exact hdeck text h c c.mem_deck

theorem upperChar_eq_toUpper {x : Char} (h : x ≠ 'ſ') : upperChar x = x.toUpper := by
  refine if_neg fun hx => h (Char.toNat_inj.mp ?_)
  rw [hx]
  rfl

theorem toUpper_eq_self {x : Char} (h : 128 ≤ x.toNat) : x.toUpper = x := by
  unfold Char.toUpper
  refine dif_neg fun hx => ?_
  have := UInt32.le_iff_toNat_le.mp hx.2
  change x.toNat ≤ 122 at this
  omega

namespace IsUpper

variable {up : Char → List Char} (hup : IsUpper up)
include hup

/-- Upper case is what codes are read with, or of no use in a code. -/
theorem eq_or_not_infix (x : Char) (c : Card) :
    up x = [upperChar x] ∨ ¬ up x <:+: c.code.toList ∧ ¬ [upperChar x] <:+: c.code.toList := by
  by_cases hs : x = 'ſ'
  · subst hs
    exact Or.inl hup.longS
  · rw [upperChar_eq_toUpper hs]
    by_cases hascii : x.toNat < 128
    · exact Or.inl (hup.ascii x hascii)
    · have hx : 128 ≤ x.toNat := Nat.le_of_not_lt hascii
      rw [toUpper_eq_self hx]
      refine Or.inr ⟨fun h => ?_, fun h => ?_⟩
      · rcases hup.other x hx hs with ⟨y, hy, hlarge⟩ | htext
        · have := (Card.of_mem_code (h.subset hy)).1
          omega
        · exact not_infix_of_mem_plainUppers htext c h
      · have := (Card.of_mem_code (h.subset (List.mem_singleton_self x))).1
        omega

/-- A text becomes a part of a code by full upper case when it does so by that of codes. -/
theorem flatMap_eq_iff {c : Card} {part : List Char} (hpart : part <:+: c.code.toList) (cs : List Char) :
    cs.flatMap up = part ↔ upper cs = part := by
  induction cs generalizing part with
  | nil => rfl
  | cons x cs ih =>
    rw [List.flatMap_cons, upper, List.map_cons]
    rcases hup.eq_or_not_infix x c with hx | ⟨hfull, hupper⟩
    · rw [hx, List.singleton_append]
      cases part with
      | nil => simp
      | cons y part =>
        rw [List.cons_eq_cons, List.cons_eq_cons, ih ((List.suffix_cons y part).isInfix.trans hpart)]
        rfl
    · refine iff_of_false (fun h => ?_) (fun h => ?_)
      · exact hfull ((List.prefix_append (up x) _).isInfix.trans (h ▸ hpart))
      · exact hupper ((List.prefix_append [upperChar x] _).isInfix.trans (h ▸ hpart))

theorem plainCode_eq_iff (s : String) (c : Card) :
    Card.plainCode s = c.code.toList ↔ (strip s.toList).flatMap up = c.code.toList :=
  (hup.flatMap_eq_iff (List.infix_refl _) _).symm

end IsUpper

end Text

namespace Card

/-- A text is read as the card, of 54, whose code it is in upper case without the blanks at its
    ends, and refused as it was given where no card has this code. The words of formatted cards
    are read as the cards; and of several texts either each is read, in order, or the leftmost
    that is refused decides. -/
theorem ofCodes_exact (up : Char → List Char) (hup : Text.IsUpper up) :
    (deck.length = 54 ∧ deck.Nodup ∧ ∀ c, c ∈ deck) ∧
    (∀ s : String,
      (∀ c, ofCode s = .ok c ↔ (Text.strip s.toList).flatMap up = c.code.toList) ∧
      ((∀ c ∈ deck, (Text.strip s.toList).flatMap up ≠ c.code.toList) → ofCode s = .error (.badCode s)) ∧
      (CardFault.badCode s).message = "invalid card code '" ++ s ++ "'") ∧
    (∀ cards, ofCodes ((Text.words (formatAll cards).toList).map String.ofList) = .ok cards) ∧
    ∀ codes,
      (∃ cards, ofCodes codes = .ok cards ∧ List.Forall₂ (fun s c => ofCode s = .ok c) codes cards) ∨
      ∃ before s after, codes = before ++ s :: after ∧ (∀ b ∈ before, ∃ c, ofCode b = .ok c) ∧
        ofCode s = .error (.badCode s) ∧ ofCodes codes = .error (.badCode s) := by
  have hread : ∀ s c, ofCode s = .ok c ↔ (Text.strip s.toList).flatMap up = c.code.toList := by
    intro s c
    rw [ofCode_eq_ok_iff, hup.plainCode_eq_iff]
  refine ⟨⟨rfl, by decide +kernel, mem_deck⟩, fun s => ⟨hread s, fun h => ?_, rfl⟩, fun cards => ?_, fun codes => ?_⟩
  · exact ofCode_eq_error_iff.mpr ⟨rfl, fun c hc => h c c.mem_deck ((hread s c).mp hc)⟩
  · rw [words_formatAll, ofCodes_map_code]
  · cases hcodes : ofCodes codes with
    | ok cards => exact Or.inl ⟨cards, rfl, mapM_eq_ok_iff.mp hcodes⟩
    | error e =>
      obtain ⟨before, s, after, hsplit, hbefore, hs⟩ := mapM_eq_error_iff.mp hcodes
      obtain ⟨rfl, -⟩ := ofCode_eq_error_iff.mp hs
      exact Or.inr ⟨before, s, after, hsplit, hbefore, hs, rfl⟩

/-- Upper case with the sharp s as two letters: a ten typed with blanks and in lower case, the
    small joker with a long s, and a two with a sharp s, which is no card. -/
theorem ofCodes_exact_sharp :
    let up : Char → List Char := fun x => if x = 'ß' then ['S', 'S'] else [Text.upperChar x]
    Text.IsUpper up ∧ ofCode " 10h\n" = .ok (.suited .ten .hearts) ∧ ofCode "ſj" = .ok (.joker .small) ∧
      (∀ c ∈ deck, (Text.strip "2ß".toList).flatMap up ≠ c.code.toList) ∧ ofCode "2ß" = .error (.badCode "2ß") := by
  intro up
  have hup : Text.IsUpper up := by
    refine ⟨fun x hx => ?_, rfl, fun x hx hs => ?_⟩
    · have hsharp : x ≠ 'ß' := by
        rintro rfl
        exact absurd hx (by decide)
      have hs : x ≠ 'ſ' := by
        rintro rfl
        exact absurd hx (by decide)
      rw [← Text.upperChar_eq_toUpper hs]
      exact if_neg hsharp
    · by_cases hsharp : x = 'ß'
      · exact Or.inr (by simp [up, hsharp, Text.plainUppers])
      · refine Or.inl ⟨x, ?_, hx⟩
        simp [up, hsharp, Text.upperChar_eq_toUpper hs, Text.toUpper_eq_self hx]
  have hnone : ∀ c ∈ deck, (Text.strip "2ß".toList).flatMap up ≠ c.code.toList := by decide +kernel
  obtain ⟨-, hread, -, -⟩ := ofCodes_exact up hup
  refine ⟨hup, ((hread _).1 _).mpr ?_, ((hread _).1 _).mpr ?_, hnone, (hread _).2.1 hnone⟩
  · decide +kernel
  · decide +kernel

end Card

end Tractor
