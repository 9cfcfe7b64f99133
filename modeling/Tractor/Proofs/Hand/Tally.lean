/-
  Tractor.Proofs.Hand.Tally — what a tally keeps of a hand.

  A tally is the distinct cards of a hand in the order of the deal (`distinctCards`), each
  with its count. No two cards tie in that order, so the tally does not depend on the
  order of the hand (`tally_eq_of_perm`). Spread out again it is the hand, sorted
  (`spread_tally_perm`, `spread_tally_ascending`).

  - `tally_and_spread`: a tally and what it spreads to.
  - `spread_tally_strengths`: along the sorted hand no card is beaten by an earlier one,
    and each play suit is one piece, trump the last.
-/

import Tractor.Hand.Tally
import Tractor.Proofs.Shape.Lists
import Tractor.Proofs.Shape.Repeats
import Tractor.Proofs.Trump.Order

namespace Tractor

variable {t : Trump} {hand : List Card}

/-! ## The distinct cards -/

def distinctCards (t : Trump) (hand : List Card) : List Card :=
  hand.eraseDups.mergeSort fun a b => (t.compare a b).isLE

theorem tally_eq_map (t : Trump) (hand : List Card) :
    tally t hand = (distinctCards t hand).map fun c => (c, (hand.count c : Int)) := rfl

theorem mem_distinctCards {c : Card} : c ∈ distinctCards t hand ↔ c ∈ hand := by
  rw [distinctCards, List.mem_mergeSort, List.mem_eraseDups]

theorem nodup_distinctCards : (distinctCards t hand).Nodup :=
  (List.mergeSort_perm ..).nodup_iff.mpr (nodup_eraseDups hand)

theorem distinctCards_ascending : (distinctCards t hand).Pairwise fun a b => t.compare a b = .lt := by
  have hle : (distinctCards t hand).Pairwise fun a b => (t.compare a b).isLE = true :=
    List.pairwise_mergeSort Trump.compare_isLE_trans Trump.compare_isLE_total hand.eraseDups
  exact hle.imp₂ (fun _ _ hab hne => Trump.compare_eq_lt_of_ne hab hne) nodup_distinctCards

theorem distinctCards_eq_of_perm {other : List Card} (h : other.Perm hand) :
    distinctCards t other = distinctCards t hand := by
  have hperm : (distinctCards t other).Perm (distinctCards t hand) := by
    refine (List.perm_ext_iff_of_nodup nodup_distinctCards nodup_distinctCards).mpr fun c => ?_
    rw [mem_distinctCards, mem_distinctCards, h.mem_iff]
  refine hperm.eq_of_pairwise (fun a b _ _ hab hba => ?_) distinctCards_ascending distinctCards_ascending
  exact Trump.compare_isLE_antisymm (t := t) (by rw [hab]; rfl) (by rw [hba]; rfl)

theorem tally_eq_of_perm {other : List Card} (h : other.Perm hand) : tally t other = tally t hand := by
  rw [tally_eq_map, tally_eq_map, distinctCards_eq_of_perm h]
  exact List.map_congr_left fun c _ => by rw [h.count_eq]

theorem map_fst_tally : (tally t hand).map Prod.fst = distinctCards t hand := by
  rw [tally_eq_map, List.map_map]
  exact List.map_id _

theorem mem_tally {c : Card} {n : Int} : (c, n) ∈ tally t hand ↔ c ∈ hand ∧ n = hand.count c := by
  rw [tally_eq_map, List.mem_map]
  constructor
  · intro ⟨d, hd, e⟩
    obtain ⟨rfl, rfl⟩ := Prod.mk.inj e
    exact ⟨mem_distinctCards.mp hd, rfl⟩
  · intro ⟨hc, hn⟩
    exact ⟨c, mem_distinctCards.mpr hc, by rw [hn]⟩

/-! ## Spread out -/

theorem spread_tally :
    spread (tally t hand) = (distinctCards t hand).flatMap fun c => List.replicate (hand.count c) c := by
  rw [tally_eq_map, spread, List.flatMap_map]
  rfl

/-- Of different cards, each repeated, one is there as often as it is repeated. -/
theorem count_flatMap_replicate {cards : List Card} (h : cards.Nodup) (n : Card → Nat) (c : Card) :
    (cards.flatMap fun d => List.replicate (n d) d).count c = if c ∈ cards then n c else 0 := by
  induction cards with
  | nil => rfl
  | cons d cards ih =>
    obtain ⟨hd, hcards⟩ := List.nodup_cons.mp h
    rw [List.flatMap_cons, List.count_append, ih hcards, List.count_replicate]
    by_cases hc : c = d
    · subst hc
      simp [hd]
    · simp [hc, Ne.symm hc]

theorem spread_tally_perm (t : Trump) (hand : List Card) : (spread (tally t hand)).Perm hand := by
  refine List.perm_iff_count.mpr fun c => ?_
  rw [spread_tally, count_flatMap_replicate nodup_distinctCards]
  split
  · rfl
  · rename_i hc
    exact (List.count_eq_zero.mpr fun h => hc (mem_distinctCards.mpr h)).symm

theorem spread_tally_ascending : (spread (tally t hand)).Pairwise fun a b => (t.compare a b).isLE = true := by
  rw [spread_tally, List.pairwise_flatMap]
  constructor
  · intro c _
    refine List.pairwise_replicate.mpr (Or.inr ?_)
    rw [Trump.compare_self]
    rfl
  · refine distinctCards_ascending.imp fun hab x hx y hy => ?_
    rw [List.eq_of_mem_replicate hx, List.eq_of_mem_replicate hy, hab]
    rfl

/-- The cards of a convex kind are one piece of the sorted hand. -/
theorem filter_spread_tally_infix {p : Card → Bool} (hp : IsConvex (fun a b => (t.compare a b).isLE = true) p) :
    (spread (tally t hand)).filter p <:+: spread (tally t hand) :=
  filter_infix_of_pairwise hp spread_tally_ascending

theorem isConvex_card (c : Card) : IsConvex (fun a b => (t.compare a b).isLE = true) (· == c) := by
  intro a b d ha hab hbd hd
  have hac := eq_of_beq ha
  have hdc := eq_of_beq hd
  subst hac hdc
  exact beq_iff_eq.mpr (Trump.compare_isLE_antisymm hbd hab)

theorem isConvex_playSuit (s : PlaySuit) :
    IsConvex (fun a b => (t.compare a b).isLE = true) fun c => decide (t.playSuit c = s) := by
  intro a b d ha hab hbd hd
  have has := of_decide_eq_true ha
  have hds := of_decide_eq_true hd
  have hle := Trump.playSuit_index_le_of_isLE hab
  have hge := Trump.playSuit_index_le_of_isLE hbd
  rw [has] at hle
  rw [hds] at hge
  exact decide_eq_true (PlaySuit.index_inj.mp (Nat.le_antisymm hge hle))

/-! ## The hand in order -/

/-- A tally has each card of the hand once, with its count, in strictly ascending order, and
    the same for every order of the hand. Spread out it is the hand in ascending order, equal
    cards side by side, and has the same tally. -/
theorem tally_and_spread (t : Trump) (hand : List Card) :
    ((tally t hand).map Prod.fst).Nodup ∧ (∀ c n, (c, n) ∈ tally t hand ↔ c ∈ hand ∧ n = hand.count c) ∧
      (tally t hand).Pairwise (fun p q => t.compare p.1 q.1 = .lt) ∧
      (∀ other : List Card, other.Perm hand → tally t other = tally t hand) ∧
      (spread (tally t hand)).Perm hand ∧
      (spread (tally t hand)).Pairwise (fun a b => t.compare a b ≠ .gt) ∧
      (∀ c, (spread (tally t hand)).filter (· == c) <:+: spread (tally t hand)) ∧
      tally t (spread (tally t hand)) = tally t hand := by
  refine ⟨?_, fun c n => mem_tally, ?_, fun other => tally_eq_of_perm, spread_tally_perm t hand, ?_,
    fun c => filter_spread_tally_infix (isConvex_card c), tally_eq_of_perm (spread_tally_perm t hand)⟩
  · rw [map_fst_tally]
    exact nodup_distinctCards
  · rw [tally_eq_map, List.pairwise_map]
    exact distinctCards_ascending
  · exact spread_tally_ascending.imp fun h => Ordering.isLE_iff_ne_gt.mp h

/-- Two threes of spades when fives and hearts are trump, once with a five between them and once
    with a joker. -/
theorem tally_and_spread_threes :
    [Card.joker .small, .suited .three .spades, .suited .five .clubs, .suited .three .spades].Perm
        [.suited .three .spades, .joker .small, .suited .three .spades, .suited .five .clubs] ∧
      tally ⟨.five, some .hearts⟩
          [Card.joker .small, .suited .three .spades, .suited .five .clubs, .suited .three .spades] =
        tally ⟨.five, some .hearts⟩
          [.suited .three .spades, .joker .small, .suited .three .spades, .suited .five .clubs] := by
  have hperm : [Card.joker .small, .suited .three .spades, .suited .five .clubs, .suited .three .spades].Perm
      [.suited .three .spades, .joker .small, .suited .three .spades, .suited .five .clubs] := by decide
  obtain ⟨-, -, -, hsame, -⟩ := tally_and_spread ⟨.five, some .hearts⟩
    [.suited .three .spades, .joker .small, .suited .three .spades, .suited .five .clubs]
  exact ⟨hperm, hsame _ hperm⟩

/-- In the sorted hand no card is beaten by one before it. Each play suit is one piece and trump
    the last, and within a piece two cards tie only when they are one card, or both are of the
    trump rank off the trump suit. -/
theorem spread_tally_strengths (t : Trump) (hand : List Card) :
    (spread (tally t hand)).Pairwise (fun a b => t.contest b a ≠ .lt) ∧
      (∀ s, (spread (tally t hand)).filter (fun c => decide (t.playSuit c = s)) <:+: spread (tally t hand)) ∧
      (spread (tally t hand)).filter (fun c => decide (t.playSuit c = .trump)) <:+ spread (tally t hand) ∧
      ∀ a ∈ spread (tally t hand), ∀ b ∈ spread (tally t hand), t.playSuit a = t.playSuit b →
        (t.contest a b = .eq ↔ a = b ∨ t.IsOff a ∧ t.IsOff b) := by
  refine ⟨spread_tally_ascending.imp Trump.contest_ne_lt_of_isLE,
    fun s => filter_spread_tally_infix (isConvex_playSuit s), ?_, fun a _ b _ => Trump.contest_eq_iff⟩
  refine filter_suffix_of_pairwise (fun a b ha hab => ?_) spread_tally_ascending
  have hle := Trump.playSuit_index_le_of_isLE hab
  rw [of_decide_eq_true ha] at hle
  exact decide_eq_true (PlaySuit.index_inj.mp (Nat.le_antisymm (t.playSuit b).index_le_trump hle))

/-- Three fives when fives are the trump rank and hearts the trump suit: two are off it. -/
theorem spread_tally_strengths_fives :
    Card.suited .five .clubs ∈ spread (tally ⟨.five, some .hearts⟩
        [.suited .five .hearts, .suited .five .clubs, .suited .five .spades]) ∧
      Card.suited .five .spades ∈ spread (tally ⟨.five, some .hearts⟩
        [.suited .five .hearts, .suited .five .clubs, .suited .five .spades]) ∧
      (Trump.mk .five (some .hearts)).playSuit (.suited .five .clubs) =
        (Trump.mk .five (some .hearts)).playSuit (.suited .five .spades) ∧
      (Trump.mk .five (some .hearts)).contest (.suited .five .clubs) (.suited .five .spades) = .eq := by
  have hperm := spread_tally_perm ⟨.five, some .hearts⟩
    [.suited .five .hearts, .suited .five .clubs, .suited .five .spades]
  have hclubs := hperm.mem_iff.mpr (List.mem_cons_of_mem _ List.mem_cons_self)
  have hspades := hperm.mem_iff.mpr (List.mem_cons_of_mem _ (List.mem_cons_of_mem _ List.mem_cons_self))
  obtain ⟨-, -, -, hties⟩ := spread_tally_strengths ⟨.five, some .hearts⟩
    [.suited .five .hearts, .suited .five .clubs, .suited .five .spades]
  refine ⟨hclubs, hspades, rfl, (hties _ hclubs _ hspades rfl).mpr (Or.inr ⟨⟨rfl, ?_⟩, rfl, ?_⟩)⟩
  · decide
  · decide

end Tractor
