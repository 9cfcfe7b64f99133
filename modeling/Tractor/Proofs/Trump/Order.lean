/-
  Tractor.Proofs.Trump.Order — the cards of a deal in order, and who beats whom.

  A deal knows five kinds of cards (`Trump.kinds`): the two jokers, the cards of the trump
  rank in and off the trump suit, and all others. Strength tells the kinds apart, and
  among the others the ranks.

  - `Trump.compare` orders all cards and lets none tie with another (the instances of
    `Std.TransCmp` and `Std.LawfulEqCmp`).
  - `Trump.contest_ne_lt_of_isLE`: of two cards in order the later is not beaten.
  - `Trump.contest_eq_iff`: in one play suit only the cards of the trump rank off the trump
    suit have equals.
-/

import Tractor.Trump.Basic

namespace Tractor.Trump

variable {t : Trump}

/-! ## The kinds of cards -/

def IsOff (t : Trump) : Card → Prop
  | .joker _ => False
  | .suited r s => r = t.rank ∧ t.suit ≠ some s

theorem kinds (t : Trump) {motive : Card → Prop} (big : motive (.joker .big)) (small : motive (.joker .small))
    (chief : ∀ s, t.suit = some s → motive (.suited t.rank s))
    (off : ∀ s, t.suit ≠ some s → motive (.suited t.rank s))
    (common : ∀ r s, r ≠ t.rank → motive (.suited r s)) (c : Card) : motive c := by
  cases c with
  | joker j =>
    cases j with
    | big => exact big
    | small => exact small
  | suited r s =>
    by_cases hr : r = t.rank
    · subst hr
      by_cases hs : t.suit = some s
      · exact chief s hs
      · exact off s hs
    · exact common r s hr

@[simp] theorem playSuit_joker (j : Joker) : t.playSuit (.joker j) = .trump := rfl

@[simp] theorem playSuit_trumpRank (s : Suit) : t.playSuit (.suited t.rank s) = .trump := by
  simp [playSuit, isTrump]

theorem playSuit_common {r : Rank} {s : Suit} (h : r ≠ t.rank) :
    t.playSuit (.suited r s) = if t.suit = some s then .trump else .plain s := by
  simp [playSuit, isTrump, h]

/-- Off the trump rank the play suit tells the suit. -/
theorem suit_eq_of_playSuit_eq {r q : Rank} {s o : Suit} (hr : r ≠ t.rank) (hq : q ≠ t.rank)
    (h : t.playSuit (.suited r s) = t.playSuit (.suited q o)) : s = o := by
  rw [playSuit_common hr, playSuit_common hq] at h
  by_cases hs : t.suit = some s
  · by_cases ho : t.suit = some o
    · exact Option.some.inj (hs.symm.trans ho)
    · rw [if_pos hs, if_neg ho] at h
      cases h
  · by_cases ho : t.suit = some o
    · rw [if_neg hs, if_pos ho] at h
      cases h
    · rw [if_neg hs, if_neg ho] at h
      exact PlaySuit.plain.inj h

@[simp] theorem strength_big : t.strength (.joker .big) = 100 := rfl

@[simp] theorem strength_small : t.strength (.joker .small) = 99 := rfl

theorem strength_chief {s : Suit} (h : t.suit = some s) : t.strength (.suited t.rank s) = 98 := by
  simp [strength, h]

theorem strength_off {s : Suit} (h : t.suit ≠ some s) : t.strength (.suited t.rank s) = 97 := by
  simp [strength, h]

theorem strength_common {r : Rank} {s : Suit} (h : r ≠ t.rank) : t.strength (.suited r s) = r.index := by
  simp [strength, h]

theorem strength_of_isOff {c : Card} (h : t.IsOff c) : t.strength c = 97 := by
  cases c with
  | joker j => cases h
  | suited r s =>
    obtain ⟨rfl, hs⟩ := h
    exact strength_off hs

theorem playSuit_of_isOff {c : Card} (h : t.IsOff c) : t.playSuit c = .trump := by
  cases c with
  | joker j => cases h
  | suited r s =>
    obtain ⟨rfl, -⟩ := h
    exact playSuit_trumpRank s

theorem strength_common_le {r : Rank} {s : Suit} (h : r ≠ t.rank) : t.strength (.suited r s) ≤ 12 := by
  rw [strength_common h]
  exact r.index_le

/-- Under the trump rank there are the other ranks only. -/
theorem exists_common_of_lt {c : Card} (h : t.strength c < 97) : ∃ r s, r ≠ t.rank ∧ c = .suited r s := by
  cases c using t.kinds with
  | big => simp at h
  | small => simp at h
  | chief s hs => simp [strength_chief hs] at h
  | off s hs => simp [strength_off hs] at h
  | common r s hr => exact ⟨r, s, hr, rfl⟩

/-- Cards are equally strong when they are one joker, or of one rank and, if that is the trump
    rank, both in or both off the trump suit. -/
theorem strength_eq_iff {a b : Card} :
    t.strength a = t.strength b ↔ a.joker? = b.joker? ∧ a.rank? = b.rank? ∧ (t.IsOff a ↔ t.IsOff b) := by
  have hle := Rank.index_le
  cases a using t.kinds <;> cases b using t.kinds <;>
    grind [strength_big, strength_small, strength_chief, strength_off, strength_common, Rank.index_inj, Card.joker?,
      Card.rank?, IsOff]

/-! ## The total order -/

instance : Std.TransCmp t.compare :=
  inferInstanceAs (Std.TransCmp (compareLex (compareOn fun c => (t.playSuit c).index)
    (compareLex (compareOn t.strength) (compareOn suitPlace))))

theorem compare_eq_eq_iff {a b : Card} :
    t.compare a b = .eq ↔ t.playSuit a = t.playSuit b ∧ t.strength a = t.strength b ∧ suitPlace a = suitPlace b := by
  simp [compare, Ordering.then_eq_eq]

/-- No two cards have the same place. -/
instance : Std.LawfulEqCmp t.compare where
  compare_self := Std.ReflCmp.compare_self
  eq_of_compare {a b} h := by
    obtain ⟨-, hstrength, hplace⟩ := compare_eq_eq_iff.mp h
    obtain ⟨hjoker, hrank, -⟩ := strength_eq_iff.mp hstrength
    cases a with
    | joker j =>
      cases b with
      | joker i => simpa [Card.joker?] using hjoker
      | suited q o => simp [Card.joker?] at hjoker
    | suited r s =>
      cases b with
      | joker i => simp [Card.joker?] at hjoker
      | suited q o =>
        simp only [Card.rank?, Option.some.injEq] at hrank
        simp only [suitPlace, Nat.add_right_cancel_iff, Suit.index_inj] at hplace
        rw [hrank, hplace]

@[simp] theorem compare_self (a : Card) : t.compare a a = .eq := Std.ReflCmp.compare_self

theorem compare_swap (a b : Card) : t.compare b a = (t.compare a b).swap := Std.OrientedCmp.eq_swap

theorem compare_isLE_trans (a b c : Card) (hab : (t.compare a b).isLE = true) (hbc : (t.compare b c).isLE = true) :
    (t.compare a c).isLE = true :=
  Std.TransCmp.isLE_trans hab hbc

theorem compare_isLE_total (a b : Card) : ((t.compare a b).isLE || (t.compare b a).isLE) = true := by
  rw [compare_swap a b]
  cases t.compare a b <;> rfl

theorem compare_isLE_antisymm {a b : Card} (hab : (t.compare a b).isLE = true) (hba : (t.compare b a).isLE = true) :
    a = b :=
  Std.LawfulEqCmp.eq_of_compare (Std.OrientedCmp.isLE_antisymm hab hba)

theorem compare_eq_lt_of_ne {a b : Card} (h : (t.compare a b).isLE = true) (hne : a ≠ b) : t.compare a b = .lt := by
  cases hc : t.compare a b with
  | lt => rfl
  | eq => exact absurd (Std.LawfulEqCmp.eq_of_compare hc) hne
  | gt => simp [hc] at h

/-- The order goes by play suits first, and within a play suit by strength. -/
theorem compare_isLE_iff {a b : Card} : (t.compare a b).isLE = true ↔
    (t.playSuit a).index < (t.playSuit b).index ∨ t.playSuit a = t.playSuit b ∧
      (t.strength a < t.strength b ∨ t.strength a = t.strength b ∧ suitPlace a ≤ suitPlace b) := by
  simp [compare, Ordering.isLE_then_iff_or, Nat.compare_eq_lt, Nat.isLE_compare]

theorem playSuit_index_le_of_isLE {a b : Card} (h : (t.compare a b).isLE = true) :
    (t.playSuit a).index ≤ (t.playSuit b).index := by
  rcases compare_isLE_iff.mp h with hlt | ⟨hsuit, -⟩
  · exact Nat.le_of_lt hlt
  · exact Nat.le_of_eq (congrArg PlaySuit.index hsuit)

/-! ## Contests -/

theorem contest_of_playSuit_eq {a b : Card} (h : t.playSuit a = t.playSuit b) :
    t.contest a b = Ord.compare (t.strength a) (t.strength b) := if_pos h

/-- Of two cards in order the later is not beaten by the earlier. -/
theorem contest_ne_lt_of_isLE {a b : Card} (h : (t.compare a b).isLE = true) : t.contest b a ≠ .lt := by
  rcases compare_isLE_iff.mp h with hlt | ⟨hsuit, hle⟩
  · have hb := (t.playSuit b).index_le_trump
    have hne : t.playSuit b ≠ t.playSuit a := by
      intro e
      rw [e] at hlt
      omega
    have ha : t.playSuit a ≠ .trump := by
      intro e
      rw [e] at hlt
      omega
    unfold contest
    rw [if_neg hne, if_neg ha]
    split <;> decide
  · rw [contest_of_playSuit_eq hsuit.symm, Ne, Nat.compare_eq_lt]
    omega

/-- In one play suit two cards tie only when they are one card, or both are of the trump rank
    off the trump suit. -/
theorem contest_eq_iff {a b : Card} (h : t.playSuit a = t.playSuit b) :
    t.contest a b = .eq ↔ a = b ∨ t.IsOff a ∧ t.IsOff b := by
  rw [contest_of_playSuit_eq h, Nat.compare_eq_eq]
  constructor
  · intro e
    obtain ⟨hjoker, hrank, hoff⟩ := strength_eq_iff.mp e
    by_cases ha : t.IsOff a
    · exact Or.inr ⟨ha, hoff.mp ha⟩
    · refine Or.inl ?_
      cases a with
      | joker j =>
        cases b with
        | joker i => simpa [Card.joker?] using hjoker
        | suited q o => simp [Card.joker?] at hjoker
      | suited r s =>
        cases b with
        | joker i => simp [Card.joker?] at hjoker
        | suited q o =>
          obtain rfl : r = q := by simpa [Card.rank?] using hrank
          by_cases hr : r = t.rank
          · -- neither is off the trump suit, so both are in it
            have hs : t.suit = some s := by simpa [IsOff, hr] using ha
            have ho : t.suit = some o := by simpa [IsOff, hr, hs] using hoff
            rw [Option.some.inj (hs.symm.trans ho)]
          · rw [suit_eq_of_playSuit_eq hr hr h]
  · intro h
    rcases h with e | ⟨ha, hb⟩
    · rw [e]
    · rw [strength_of_isOff ha, strength_of_isOff hb]

end Tractor.Trump
