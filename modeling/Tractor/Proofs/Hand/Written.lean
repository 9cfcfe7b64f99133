/-
  Tractor.Proofs.Hand.Written — a hand written in order, as a text for the hand.

  The codes of a hand are read, its cards tallied under a trump, spread out and formatted
  (`writtenHand`). What is spread out is one list for all orders of the hand
  (`spread_tally_eq_iff_perm`), and its text is its own: cards that are formatted alike are
  the same cards in the same order.

  - `writtenHand_normal_form`: the text written is kept when it is read as codes and written
    again, and two hands have one text when they have the same cards, each as often.
-/

import Tractor.Proofs.Card.Code
import Tractor.Proofs.Hand.Tally

namespace Tractor

def writtenHand (t : Trump) (codes : List String) : Except CardFault String :=
  (Card.ofCodes codes).map fun hand => Card.formatAll (spread (tally t hand))

variable {t : Trump} {hand other : List Card} {codes others : List String}

/-- Spread out, hands are alike when they have the same cards, each as often. -/
theorem spread_tally_eq_iff_perm : spread (tally t hand) = spread (tally t other) ↔ hand.Perm other := by
  constructor
  · intro h
    exact (spread_tally_perm t hand).symm.trans (h ▸ spread_tally_perm t other)
  · intro h
    rw [tally_eq_of_perm h]

theorem writtenHand_of_ofCodes (h : Card.ofCodes codes = .ok hand) :
    writtenHand t codes = .ok (Card.formatAll (spread (tally t hand))) := by
  rw [writtenHand, h]
  rfl

/-- What is written of a hand is written of its own words. -/
theorem writtenHand_words (t : Trump) (hand : List Card) :
    writtenHand t ((Text.words (Card.formatAll (spread (tally t hand))).toList).map String.ofList) =
      .ok (Card.formatAll (spread (tally t hand))) := by
  rw [Card.words_formatAll, writtenHand_of_ofCodes (Card.ofCodes_map_code _), tally_eq_of_perm (spread_tally_perm t hand)]

theorem writtenHand_eq_iff_perm (hhand : Card.ofCodes codes = .ok hand) (hother : Card.ofCodes others = .ok other) :
    writtenHand t codes = writtenHand t others ↔ hand.Perm other := by
  rw [writtenHand_of_ofCodes hhand, writtenHand_of_ofCodes hother, Except.ok.injEq, Card.formatAll_injective.eq_iff,
    spread_tally_eq_iff_perm]

/-- For codes that are all read as cards: what is written of the words of the text written is the
    text again, and two texts are one exactly when the cards are the same, each as often. -/
theorem writtenHand_normal_form (t : Trump) :
    (∀ codes, (∀ s ∈ codes, ∃ c, Card.ofCode s = .ok c) →
      ∃ text, writtenHand t codes = .ok text ∧
        writtenHand t ((Text.words text.toList).map String.ofList) = .ok text) ∧
    ∀ codes others, (∀ s ∈ codes, ∃ c, Card.ofCode s = .ok c) → (∀ s ∈ others, ∃ c, Card.ofCode s = .ok c) →
      ∃ hand other, Card.ofCodes codes = .ok hand ∧ Card.ofCodes others = .ok other ∧
        (writtenHand t codes = writtenHand t others ↔ hand.Perm other) := by
  refine ⟨fun codes hcodes => ?_, fun codes others hcodes hothers => ?_⟩
  · obtain ⟨hand, hhand⟩ := Card.exists_ofCodes_eq_ok hcodes
    exact ⟨_, writtenHand_of_ofCodes hhand, writtenHand_words t hand⟩
  · obtain ⟨hand, hhand⟩ := Card.exists_ofCodes_eq_ok hcodes
    obtain ⟨other, hother⟩ := Card.exists_ofCodes_eq_ok hothers
    exact ⟨hand, other, hhand, hother, writtenHand_eq_iff_perm hhand hother⟩

/-- Two threes of spades, a five and a joker, typed in two orders, in both cases and with blanks,
    when fives and hearts are trump. -/
theorem writtenHand_normal_form_threes :
    (∀ s ∈ ["3s", " SJ", "5c\t", "3S"], ∃ c, Card.ofCode s = .ok c) ∧
    (∀ s ∈ ["3S", "5C", "3s ", "sj"], ∃ c, Card.ofCode s = .ok c) ∧
    (∃ text, writtenHand ⟨.five, some .hearts⟩ ["3s", " SJ", "5c\t", "3S"] = .ok text ∧
      writtenHand ⟨.five, some .hearts⟩ ((Text.words text.toList).map String.ofList) = .ok text) ∧
    writtenHand ⟨.five, some .hearts⟩ ["3s", " SJ", "5c\t", "3S"] =
      writtenHand ⟨.five, some .hearts⟩ ["3S", "5C", "3s ", "sj"] := by
  have hcodes : ∀ s ∈ ["3s", " SJ", "5c\t", "3S"], ∃ c ∈ Card.deck, Card.ofCode s = .ok c := by decide +kernel
  have hothers : ∀ s ∈ ["3S", "5C", "3s ", "sj"], ∃ c ∈ Card.deck, Card.ofCode s = .ok c := by decide +kernel
  have hread := fun s hs => (hcodes s hs).imp fun _ h => h.2
  have hreadOthers := fun s hs => (hothers s hs).imp fun _ h => h.2
  obtain ⟨hnormal, hequal⟩ := writtenHand_normal_form ⟨.five, some .hearts⟩
  obtain ⟨hand, other, hhand, hother, hiff⟩ := hequal _ _ hread hreadOthers
  refine ⟨hread, hreadOthers, hnormal _ hread, hiff.mpr ?_⟩
  have hhand' : Card.ofCodes ["3s", " SJ", "5c\t", "3S"] =
      .ok [.suited .three .spades, .joker .small, .suited .five .clubs, .suited .three .spades] := by decide +kernel
  have hother' : Card.ofCodes ["3S", "5C", "3s ", "sj"] =
      .ok [.suited .three .spades, .suited .five .clubs, .suited .three .spades, .joker .small] := by decide +kernel
  rw [Except.ok.inj (hhand.symm.trans hhand'), Except.ok.inj (hother.symm.trans hother')]
  decide

end Tractor
