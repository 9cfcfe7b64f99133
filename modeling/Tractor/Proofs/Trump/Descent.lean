/-
  Tractor.Proofs.Trump.Descent — what is reached from a card by going just below.

  One card is under another when it is of the same play suit and weaker. The cards just
  below a card are those under it with no other strength between (`mem_successors_iff`),
  whatever kind of card it is. From this one step follow all the others: what is reached in
  some steps is what is under (`under_of_transGen`, `transGen_of_under`), and the strengths
  under a card are met one after another (`mem_iterate_below_succ_iff`).

  - `successors_generate_strength`: chains, levels, and where they end.
-/

import Mathlib.Data.List.Chain
import Mathlib.Logic.Relation
import Tractor.Proofs.Shape.Lists
import Tractor.Proofs.Shape.Repeats
import Tractor.Proofs.Trump.Order
import Tractor.Trump.Adjacency

namespace Tractor.Trump

variable {t : Trump} {c d e : Card}

/-! ## The ranks without the trump rank -/

theorem topRank_ne (t : Trump) : t.topRank ≠ t.rank := by
  unfold topRank
  split
  · rename_i h
    rw [h]
    decide
  · rename_i h
    exact fun e => h e.symm

theorem index_le_topRank {r : Rank} (h : r ≠ t.rank) : r.index ≤ t.topRank.index := by
  unfold topRank
  split
  · rename_i hace
    have hne : r.index ≠ Rank.ace.index := fun e => h ((Rank.index_inj.mp e).trans hace.symm)
    exact Nat.le_of_lt_succ (Nat.lt_of_le_of_ne r.index_le hne)
  · exact r.index_le

theorem index_getElem_all : ∀ i (h : i < Rank.all.length), Rank.all[i].index = i := by decide

theorem mem_take_index {r q : Rank} : q ∈ Rank.all.take r.index ↔ q.index < r.index := by
  rw [List.mem_take_iff_getElem]
  constructor
  · intro ⟨i, hi, e⟩
    rw [← e, index_getElem_all]
    exact Nat.lt_of_lt_of_le hi (Nat.min_le_left ..)
  · intro h
    obtain ⟨hlt, e⟩ := List.getElem?_eq_some_iff.mp q.getElem?_all_index
    exact ⟨q.index, Nat.lt_min.mpr ⟨h, hlt⟩, e⟩

theorem ascending_all : Rank.all.Pairwise fun r q => r.index < q.index := by decide

theorem rankBelow_eq_some {r b : Rank} (h : t.rankBelow r = some b) :
    b.index < r.index ∧ b ≠ t.rank ∧ ∀ q : Rank, q.index < r.index → q ≠ t.rank → q.index ≤ b.index := by
  obtain ⟨lower, hlower⟩ := List.getLast?_eq_some_iff.mp h
  have hmem : ∀ q, q ∈ lower ++ [b] ↔ q.index < r.index ∧ q ≠ t.rank := by
    intro q
    rw [← hlower, List.mem_filter, mem_take_index, decide_eq_true_eq]
  have hascending : (lower ++ [b]).Pairwise fun p q => p.index < q.index := by
    rw [← hlower]
    exact (ascending_all.sublist (List.take_sublist _ _)).filter _
  obtain ⟨hb, hne⟩ := (hmem b).mp (List.mem_append_right lower List.mem_cons_self)
  refine ⟨hb, hne, fun q hq hqne => ?_⟩
  rcases List.mem_append.mp ((hmem q).mpr ⟨hq, hqne⟩) with hq | hq
  · exact Nat.le_of_lt ((List.pairwise_append.mp hascending).2.2 q hq b List.mem_cons_self)
  · rw [List.mem_singleton.mp hq]

theorem rankBelow_eq_none {r q : Rank} (h : t.rankBelow r = none) (hq : q.index < r.index) : q = t.rank := by
  have hnil := List.getLast?_eq_none_iff.mp h
  have hall := List.filter_eq_nil_iff.mp hnil q (mem_take_index.mpr hq)
  simpa using hall

/-! ## Under a card -/

def Under (t : Trump) (d c : Card) : Prop := t.playSuit d = t.playSuit c ∧ t.strength d < t.strength c

def NextUnder (t : Trump) (d c : Card) : Prop := t.Under d c ∧ ∀ e, t.Under e c → t.strength e ≤ t.strength d

theorem under_iff : t.Under d c ↔ t.playSuit d = t.playSuit c ∧ t.contest d c = .lt := by
  refine and_congr_right fun h => ?_
  rw [contest_of_playSuit_eq h, Nat.compare_eq_lt]

theorem Under.trans (hed : t.Under e d) (hdc : t.Under d c) : t.Under e c :=
  ⟨hed.1.trans hdc.1, Nat.lt_trans hed.2 hdc.2⟩

/-- The cards next under a card are as strong as one another. -/
theorem NextUnder.iff (h : t.NextUnder e c) :
    t.NextUnder d c ↔ t.playSuit d = t.playSuit e ∧ t.strength d = t.strength e := by
  constructor
  · intro hd
    exact ⟨hd.1.1.trans h.1.1.symm, Nat.le_antisymm (h.2 d hd.1) (hd.2 e h.1)⟩
  · intro ⟨hsuit, hstrength⟩
    refine ⟨⟨hsuit.trans h.1.1, hstrength ▸ h.1.2⟩, fun f hf => ?_⟩
    rw [hstrength]
    exact h.2 f hf

theorem NextUnder.iff_eq (h : t.NextUnder e c) (he : ¬ t.IsOff e) : t.NextUnder d c ↔ d = e := by
  rw [h.iff]
  constructor
  · intro ⟨hsuit, hstrength⟩
    have htie := (contest_eq_iff hsuit).mp (by rw [contest_of_playSuit_eq hsuit, hstrength, Nat.compare_eq_eq])
    exact htie.resolve_right fun hoff => he hoff.2
  · intro hd
    subst hd
    exact ⟨rfl, rfl⟩

theorem NextUnder.iff_isOff (h : t.NextUnder e c) (he : t.IsOff e) : t.NextUnder d c ↔ t.IsOff d := by
  rw [h.iff]
  constructor
  · intro hd
    exact (strength_eq_iff.mp hd.2).2.2.mpr he
  · intro hd
    rw [playSuit_of_isOff hd, playSuit_of_isOff he, strength_of_isOff hd, strength_of_isOff he]
    exact ⟨rfl, rfl⟩

/-! ## The next strength, kind by kind -/

theorem nextUnder_big : t.NextUnder (.joker .small) (.joker .big) := by
  refine ⟨⟨rfl, Nat.lt_succ_self 99⟩, fun f hf => ?_⟩
  have := hf.2
  simp only [strength_big, strength_small] at this ⊢
  omega

theorem nextUnder_small {s : Suit} (hs : t.suit = some s) : t.NextUnder (.suited t.rank s) (.joker .small) := by
  refine ⟨⟨by simp, by simp [strength_chief hs]⟩, fun f hf => ?_⟩
  have := hf.2
  rw [strength_chief hs]
  simp only [strength_small] at this
  omega

/-- Without a trump suit no card is between the small joker and the trump rank. -/
theorem nextUnder_small_of_none (h : t.suit = none) (s : Suit) : t.NextUnder (.suited t.rank s) (.joker .small) := by
  have hoff : ∀ o, t.suit ≠ some o := by simp [h]
  refine ⟨⟨by simp, by simp [strength_off (hoff s)]⟩, fun f hf => ?_⟩
  have := hf.2
  rw [strength_off (hoff s)]
  cases f using t.kinds with
  | big => simp at this
  | small => simp at this
  | chief o ho => exact absurd ho (hoff o)
  | off o ho => rw [strength_off ho]
  | common r o hr => exact Nat.le_trans (strength_common_le hr) (by decide)

theorem nextUnder_chief {s o : Suit} (hs : t.suit = some s) (ho : t.suit ≠ some o) :
    t.NextUnder (.suited t.rank o) (.suited t.rank s) := by
  refine ⟨⟨by simp, by rw [strength_off ho, strength_chief hs]; decide⟩, fun f hf => ?_⟩
  have := hf.2
  rw [strength_chief hs] at this
  rw [strength_off ho]
  omega

theorem nextUnder_off {s o : Suit} (hs : t.suit ≠ some s) (ho : t.suit = some o) :
    t.NextUnder (.suited t.topRank o) (.suited t.rank s) := by
  refine ⟨⟨?_, ?_⟩, fun f hf => ?_⟩
  · rw [playSuit_common t.topRank_ne, if_pos ho, playSuit_trumpRank]
  · rw [strength_off hs]
    exact Nat.lt_of_le_of_lt (strength_common_le t.topRank_ne) (by decide)
  · obtain ⟨r, p, hr, rfl⟩ := exists_common_of_lt (strength_off hs ▸ hf.2)
    rw [strength_common hr, strength_common t.topRank_ne]
    exact index_le_topRank hr

/-- Without a trump suit no other rank is trump. -/
theorem not_under_off {s : Suit} (h : t.suit = none) : ¬ t.Under d (.suited t.rank s) := by
  intro hd
  have hs : t.suit ≠ some s := by simp [h]
  obtain ⟨r, o, hr, rfl⟩ := exists_common_of_lt (strength_off hs ▸ hd.2)
  have := hd.1
  rw [playSuit_common hr, playSuit_trumpRank, h] at this
  cases this

theorem exists_of_under_common {r : Rank} {s : Suit} (hr : r ≠ t.rank) (hd : t.Under d (.suited r s)) :
    ∃ q, q ≠ t.rank ∧ q.index < r.index ∧ d = .suited q s := by
  have hle := strength_common_le (s := s) hr
  obtain ⟨q, o, hq, rfl⟩ := exists_common_of_lt (Nat.lt_trans hd.2 (by omega))
  have hlt := hd.2
  rw [strength_common hq, strength_common hr] at hlt
  exact ⟨q, hq, hlt, by rw [suit_eq_of_playSuit_eq hq hr hd.1]⟩

theorem nextUnder_common {r b : Rank} {s : Suit} (hr : r ≠ t.rank) (hb : t.rankBelow r = some b) :
    t.NextUnder (.suited b s) (.suited r s) := by
  obtain ⟨hlt, hne, hmax⟩ := rankBelow_eq_some hb
  refine ⟨⟨by rw [playSuit_common hne, playSuit_common hr], by rwa [strength_common hne, strength_common hr]⟩,
    fun f hf => ?_⟩
  obtain ⟨q, hq, hqr, rfl⟩ := exists_of_under_common hr hf
  rw [strength_common hq, strength_common hne]
  exact hmax q hqr hq

/-! ## One step -/

/-- Over the suits that are not trump, the cards of the trump rank are those off the trump
    suit. -/
theorem mem_map_trumpRank_iff {suits : List Suit} (h : ∀ s, s ∈ suits ↔ t.suit ≠ some s) :
    d ∈ suits.map (.suited t.rank ·) ↔ t.IsOff d := by
  rw [List.mem_map]
  constructor
  · intro ⟨s, hs, e⟩
    subst e
    exact ⟨rfl, (h s).mp hs⟩
  · intro hd
    cases d with
    | joker j => cases hd
    | suited r s =>
      obtain ⟨rfl, hs⟩ := hd
      exact ⟨s, (h s).mpr hs, rfl⟩

/-- The cards just below a card are those next under it. -/
theorem mem_successors_iff : d ∈ t.successors c ↔ t.NextUnder d c := by
  -- a case for each branch of `successors`: one card next under `c` tells all of them
  cases c using t.kinds with
  | big =>
    rw [nextUnder_big.iff_eq not_false]
    simp [successors]
  | small =>
    cases hsuit : t.suit with
    | some s =>
      rw [(nextUnder_small hsuit).iff_eq fun hoff => hoff.2 hsuit]
      simp [successors, hsuit]
    | none =>
      have hoff : ∀ s, t.suit ≠ some s := by simp [hsuit]
      rw [(nextUnder_small_of_none hsuit .clubs).iff_isOff ⟨rfl, hoff _⟩]
      simp only [successors, hsuit]
      exact mem_map_trumpRank_iff fun s => ⟨fun _ => hoff s, fun _ => s.mem_all⟩
  | chief s hs =>
    obtain ⟨o, ho⟩ := s.exists_ne
    have hoff : t.suit ≠ some o := fun e => ho (Option.some.inj (e.symm.trans hs))
    rw [(nextUnder_chief hs hoff).iff_isOff ⟨rfl, hoff⟩]
    simp only [successors, hs, if_true]
    refine mem_map_trumpRank_iff fun p => ?_
    rw [List.mem_filter, decide_eq_true_eq, hs, Ne, Ne, Option.some.injEq]
    exact ⟨fun h e => h.2 e.symm, fun h => ⟨p.mem_all, fun e => h e.symm⟩⟩
  | off s hs =>
    cases hsuit : t.suit with
    | some o =>
      have hne : s ≠ o := fun e => hs (e ▸ hsuit)
      rw [(nextUnder_off hs hsuit).iff_eq fun hoff => t.topRank_ne hoff.1]
      simp [successors, hsuit, hne]
    | none =>
      have hnone : ¬ t.NextUnder d (.suited t.rank s) := fun hd => not_under_off hsuit hd.1
      simp [successors, hsuit, hnone]
  | common r s hr =>
    cases hbelow : t.rankBelow r with
    | some b =>
      rw [(nextUnder_common hr hbelow).iff_eq fun hoff => (rankBelow_eq_some hbelow).2.1 hoff.1]
      simp [successors, hr, hbelow]
    | none =>
      have hnone : ¬ t.NextUnder d (.suited r s) := by
        intro hd
        obtain ⟨q, hq, hlt, -⟩ := exists_of_under_common hr hd.1
        exact hq (rankBelow_eq_none hbelow hlt)
      simp [successors, hr, hbelow, hnone]

/-! ## The strengths under a card -/

/-- The strengths under a card, each once, from high to low. -/
def strengthsUnder (t : Trump) (c : Card) : List Nat :=
  (List.range (t.strength c)).reverse.filter fun v =>
    Card.deck.any fun d => decide (t.playSuit d = t.playSuit c ∧ t.strength d = v)

theorem mem_strengthsUnder {v : Nat} : v ∈ t.strengthsUnder c ↔ ∃ d, t.Under d c ∧ t.strength d = v := by
  rw [strengthsUnder, List.mem_filter, List.mem_reverse, List.mem_range, List.any_eq_true]
  constructor
  · intro ⟨hv, d, _, hd⟩
    obtain ⟨hsuit, rfl⟩ := of_decide_eq_true hd
    exact ⟨d, ⟨hsuit, hv⟩, rfl⟩
  · intro ⟨d, hd, e⟩
    subst e
    exact ⟨hd.2, d, d.mem_deck, decide_eq_true ⟨hd.1, rfl⟩⟩

theorem strengthsUnder_descending : (t.strengthsUnder c).Pairwise fun v w => w < v :=
  (List.pairwise_reverse.mpr List.pairwise_lt_range).filter _

/-- The strengths under a card are the next one, and those under a card that has it. -/
theorem NextUnder.strengthsUnder_eq (h : t.NextUnder e c) :
    t.strengthsUnder c = t.strength e :: t.strengthsUnder e := by
  have hdesc : (t.strength e :: t.strengthsUnder e).Pairwise fun v w => w < v := by
    refine List.pairwise_cons.mpr ⟨fun v hv => ?_, strengthsUnder_descending⟩
    obtain ⟨d, hd, rfl⟩ := mem_strengthsUnder.mp hv
    exact hd.2
  have hmem : ∀ v, v ∈ t.strengthsUnder c ↔ v ∈ t.strength e :: t.strengthsUnder e := by
    intro v
    rw [List.mem_cons, mem_strengthsUnder, mem_strengthsUnder]
    constructor
    · intro ⟨d, hd, hv⟩
      rcases Nat.eq_or_lt_of_le (h.2 d hd) with heq | hlt
      · exact Or.inl (hv.symm.trans heq)
      · exact Or.inr ⟨d, ⟨hd.1.trans h.1.1.symm, hlt⟩, hv⟩
    · intro hv
      rcases hv with hv | ⟨d, hd, hv⟩
      · exact ⟨e, h.1, hv.symm⟩
      · exact ⟨d, hd.trans h.1, hv⟩
  -- both sides descend, so it is enough that they have the same members
  have hnodup : (t.strengthsUnder c).Nodup := strengthsUnder_descending.imp Nat.ne_of_gt
  have hperm := (List.perm_ext_iff_of_nodup hnodup (hdesc.imp Nat.ne_of_gt)).mpr hmem
  exact hperm.eq_of_pairwise (fun _ _ _ _ hvw hwv => absurd hvw (Nat.lt_asymm hwv)) strengthsUnder_descending hdesc

/-- Unless nothing is under a card, something is next under it. -/
theorem exists_nextUnder {v : Nat} {rest : List Nat} (h : t.strengthsUnder c = v :: rest) : ∃ e, t.NextUnder e c := by
  obtain ⟨e, he, hv⟩ := mem_strengthsUnder.mp (h ▸ List.mem_cons_self)
  refine ⟨e, he, fun d hd => ?_⟩
  have hmem := mem_strengthsUnder.mpr ⟨d, hd, rfl⟩
  have hdesc := strengthsUnder_descending (t := t) (c := c)
  rw [h] at hmem hdesc
  rw [hv]
  rcases List.mem_cons.mp hmem with hd | hd
  · rw [hd]
  · exact Nat.le_of_lt ((List.pairwise_cons.mp hdesc).1 _ hd)

/-! ## Many steps -/

theorem under_of_transGen (h : Relation.TransGen (fun a b => b ∈ t.successors a) c d) : t.Under d c := by
  induction h with
  | single hd => exact (mem_successors_iff.mp hd).1
  | tail _ hd ih => exact (mem_successors_iff.mp hd).1.trans ih

/-- What is under a card is next under it, or under a card that is. -/
theorem transGen_of_under (h : t.Under d c) : Relation.TransGen (fun a b => b ∈ t.successors a) c d := by
  have hmem := mem_strengthsUnder.mpr ⟨d, h, rfl⟩
  -- by induction on the strengths that are left under `c`
  induction hs : t.strengthsUnder c generalizing c with
  | nil =>
    rw [hs] at hmem
    cases hmem
  | cons v rest ih =>
    obtain ⟨e, he⟩ := exists_nextUnder hs
    have hsuit := h.1.trans he.1.1.symm
    rcases Nat.eq_or_lt_of_le (he.2 d h) with heq | hlt
    · exact .single (mem_successors_iff.mpr (he.iff.mpr ⟨hsuit, heq⟩))
    · have hde : t.Under d e := ⟨hsuit, hlt⟩
      have hrest : t.strengthsUnder e = rest := (List.cons.inj (he.strengthsUnder_eq.symm.trans hs)).2
      exact .head (mem_successors_iff.mpr he) (ih hde (mem_strengthsUnder.mpr ⟨d, hde, rfl⟩) hrest)

theorem strength_descends {chain : List Card} (h : chain.IsChain fun a b => b ∈ t.successors a) :
    chain.Pairwise fun a b => t.strength b < t.strength a := by
  have : Trans (fun a b => t.strength b < t.strength a) (fun a b => t.strength b < t.strength a)
      fun a b => t.strength b < t.strength a := ⟨fun hab hbc => Nat.lt_trans hbc hab⟩
  exact (h.imp fun a b hb => (mem_successors_iff.mp hb).1.2).pairwise

/-! ## Level by level -/

theorem mem_below {level : List Card} : d ∈ t.below level ↔ ∃ c ∈ level, d ∈ t.successors c := by
  rw [below, List.mem_eraseDups, List.mem_flatMap]

/-- What is so many steps below several cards is so many steps below one of them. -/
theorem mem_iterate_below {i : Nat} {level : List Card} :
    d ∈ t.below^[i] level ↔ ∃ c ∈ level, d ∈ t.below^[i] [c] := by
  induction i generalizing level with
  | zero => simp
  | succ i ih =>
    simp only [Function.iterate_succ_apply]
    rw [ih]
    constructor
    · intro ⟨e, he, hd⟩
      obtain ⟨c, hc, hce⟩ := mem_below.mp he
      exact ⟨c, hc, ih.mpr ⟨e, mem_below.mpr ⟨c, List.mem_singleton_self c, hce⟩, hd⟩⟩
    · intro ⟨c, hc, hd⟩
      obtain ⟨e, he, hd⟩ := ih.mp hd
      obtain ⟨b, hb, hbe⟩ := mem_below.mp he
      rw [List.mem_singleton.mp hb] at hbe
      exact ⟨e, mem_below.mpr ⟨c, hc, hbe⟩, hd⟩

theorem mem_iterate_below_succ {i : Nat} : d ∈ t.below^[i + 1] [c] ↔ ∃ e ∈ t.successors c, d ∈ t.below^[i] [e] := by
  rw [Function.iterate_succ_apply, mem_iterate_below]
  simp [mem_below]

/-- On a level are the cards to which chains of so many steps lead. -/
theorem mem_iterate_below_iff_exists {i : Nat} : d ∈ t.below^[i] [c] ↔
    ∃ chain, chain.length = i ∧ (c :: chain).IsChain (fun a b => b ∈ t.successors a) ∧
      (c :: chain).getLast? = some d := by
  induction i generalizing c with
  | zero =>
    constructor
    · intro hd
      rw [List.mem_singleton.mp hd]
      exact ⟨[], rfl, .singleton c, rfl⟩
    · intro ⟨chain, hlength, _, hlast⟩
      rw [List.length_eq_zero_iff.mp hlength] at hlast
      exact List.mem_singleton.mpr (Option.some.inj hlast).symm
  | succ i ih =>
    rw [mem_iterate_below_succ]
    constructor
    · intro ⟨e, he, hd⟩
      obtain ⟨chain, hlength, hchain, hlast⟩ := ih.mp hd
      exact ⟨e :: chain, by rw [List.length_cons, hlength], .cons_cons he hchain, by rwa [List.getLast?_cons_cons]⟩
    · intro ⟨chain, hlength, hchain, hlast⟩
      obtain ⟨e, rest, rfl⟩ := List.exists_cons_of_length_eq_add_one hlength
      rw [List.isChain_cons_cons] at hchain
      rw [List.getLast?_cons_cons] at hlast
      exact ⟨e, hchain.1, ih.mpr ⟨rest, Nat.succ.inj hlength, hchain.2, hlast⟩⟩

theorem exists_nextUnder_of_getElem? {i v : Nat} (h : (t.strengthsUnder c)[i]? = some v) : ∃ e, t.NextUnder e c := by
  cases hs : t.strengthsUnder c with
  | nil => simp [hs] at h
  | cons w rest => exact exists_nextUnder hs

/-- On a level are all the cards of one strength under the first card: going to a card next
    under it takes one strength off. -/
theorem mem_iterate_below_succ_iff {i : Nat} :
    d ∈ t.below^[i + 1] [c] ↔ t.playSuit d = t.playSuit c ∧ (t.strengthsUnder c)[i]? = some (t.strength d) := by
  induction i generalizing c with
  | zero =>
    rw [mem_iterate_below_succ]
    constructor
    · intro ⟨e, he, hd⟩
      have hnext := mem_successors_iff.mp he
      rw [List.mem_singleton.mp hd, hnext.strengthsUnder_eq]
      exact ⟨hnext.1.1, rfl⟩
    · intro ⟨hsuit, hd⟩
      obtain ⟨e, he⟩ := exists_nextUnder_of_getElem? hd
      rw [he.strengthsUnder_eq] at hd
      have hnext := he.iff.mpr ⟨hsuit.trans he.1.1.symm, (Option.some.inj hd).symm⟩
      exact ⟨d, mem_successors_iff.mpr hnext, List.mem_singleton_self d⟩
  | succ i ih =>
    rw [mem_iterate_below_succ]
    constructor
    · intro ⟨e, he, hd⟩
      have hnext := mem_successors_iff.mp he
      obtain ⟨hsuit, hs⟩ := ih.mp hd
      rw [hnext.strengthsUnder_eq]
      exact ⟨hsuit.trans hnext.1.1, hs⟩
    · intro ⟨hsuit, hd⟩
      obtain ⟨e, he⟩ := exists_nextUnder_of_getElem? hd
      rw [he.strengthsUnder_eq] at hd
      exact ⟨e, mem_successors_iff.mpr he, ih.mpr ⟨hsuit.trans he.1.1.symm, hd⟩⟩

theorem nodup_iterate_below (i : Nat) : (t.below^[i] [c]).Nodup := by
  cases i with
  | zero => exact List.nodup_singleton c
  | succ i =>
    rw [Function.iterate_succ_apply']
    exact nodup_eraseDups _

/-- The card itself and the strengths under it tell the level. -/
theorem getElem?_of_mem_iterate_below {i : Nat} (h : d ∈ t.below^[i] [c]) :
    (t.strength c :: t.strengthsUnder c)[i]? = some (t.strength d) := by
  cases i with
  | zero =>
    rw [List.mem_singleton.mp h]
    rfl
  | succ i => exact (mem_iterate_below_succ_iff.mp h).2

theorem nodup_strengths : (t.strength c :: t.strengthsUnder c).Nodup := by
  refine List.nodup_cons.mpr ⟨fun h => ?_, strengthsUnder_descending.imp Nat.ne_of_gt⟩
  obtain ⟨d, hd, e⟩ := mem_strengthsUnder.mp h
  exact Nat.ne_of_lt hd.2 e

theorem eq_of_mem_iterate_below {i j : Nat} (hi : d ∈ t.below^[i] [c]) (hj : d ∈ t.below^[j] [c]) : i = j := by
  have hi := getElem?_of_mem_iterate_below hi
  have hj := getElem?_of_mem_iterate_below hj
  exact (List.getElem?_inj (List.getElem?_eq_some_iff.mp hi).1 nodup_strengths).mp (hi.trans hj.symm)

/-- There are as many levels under a card as strengths. -/
theorem iterate_below_eq_nil_iff {i : Nat} : t.below^[i] [c] = [] ↔ (t.strengthsUnder c).length < i := by
  cases i with
  | zero => simp
  | succ i =>
    rw [List.eq_nil_iff_forall_not_mem, Nat.lt_succ_iff, ← List.getElem?_eq_none_iff]
    constructor
    · intro h
      cases hv : (t.strengthsUnder c)[i]? with
      | none => rfl
      | some v =>
        obtain ⟨d, hd, rfl⟩ := mem_strengthsUnder.mp (List.mem_of_getElem? hv)
        exact absurd (mem_iterate_below_succ_iff.mpr ⟨hd.1, hv⟩) (h d)
    · intro h d hd
      have := (mem_iterate_below_succ_iff.mp hd).2
      rw [h] at this
      cases this

/-- The levels from one down, up to the first empty one. -/
theorem levels_eq_map {n limit : Nat} {level : List Card} (hlevels : ∀ i, i < n → t.below^[i] level ≠ [])
    (hend : t.below^[n] level = []) (hlimit : n ≤ limit) :
    t.levels limit level = (List.range n).map fun i => t.below^[i] level := by
  induction n generalizing level limit with
  | zero =>
    have hnil : level = [] := hend
    subst hnil
    cases limit <;> rfl
  | succ n ih =>
    obtain ⟨limit, rfl⟩ := Nat.exists_eq_succ_of_ne_zero (Nat.ne_of_gt (Nat.lt_of_lt_of_le (Nat.succ_pos n) hlimit))
    have hne : level ≠ [] := hlevels 0 (Nat.succ_pos n)
    rw [levels, if_neg (by rwa [List.isEmpty_iff]), List.range_succ_eq_map, List.map_cons, List.map_map,
      ih (fun i hi => hlevels (i + 1) (Nat.succ_lt_succ hi)) hend (Nat.le_of_succ_le_succ hlimit)]
    rfl

/-! ## The order of strength from single steps -/

/-- Steps to a card just below lead from a card to all cards of its play suit that it beats, and
    to no other; each chain of steps descends in strength. So many steps lead to all cards of one
    strength, the strengths under the first card one after another, and there the steps end. -/
theorem successors_generate_strength (t : Trump) (c : Card) :
    (∀ d, Relation.TransGen (fun a b => b ∈ t.successors a) c d ↔ t.playSuit d = t.playSuit c ∧ t.contest d c = .lt) ∧
      (∀ chain, (c :: chain).IsChain (fun a b => b ∈ t.successors a) →
        (c :: chain).Pairwise fun a b => t.strength b < t.strength a) ∧
      (∀ i d, d ∈ t.below^[i] [c] ↔ ∃ chain, chain.length = i ∧ (c :: chain).IsChain (fun a b => b ∈ t.successors a) ∧
        (c :: chain).getLast? = some d) ∧
      (∀ i, (t.below^[i] [c]).Nodup) ∧
      (∀ i d, d ∈ t.below^[i + 1] [c] ↔
        t.playSuit d = t.playSuit c ∧ (t.strengthsUnder c)[i]? = some (t.strength d)) ∧
      (∀ i j d, d ∈ t.below^[i] [c] → d ∈ t.below^[j] [c] → i = j) ∧
      (∀ i, t.below^[i] [c] = [] ↔ (t.strengthsUnder c).length < i) ∧
      ∀ limit, (t.strengthsUnder c).length < limit →
        t.levels limit [c] = (List.range ((t.strengthsUnder c).length + 1)).map fun i => t.below^[i] [c] := by
  refine ⟨fun d => ⟨fun h => under_iff.mp (under_of_transGen h), fun h => transGen_of_under (under_iff.mpr h)⟩,
    fun chain => strength_descends, fun i d => mem_iterate_below_iff_exists, nodup_iterate_below,
    fun i d => mem_iterate_below_succ_iff, fun i j d => eq_of_mem_iterate_below, fun i => iterate_below_eq_nil_iff,
    fun limit hlimit => levels_eq_map (fun i hi h => ?_) (iterate_below_eq_nil_iff.mpr (Nat.lt_succ_self _)) hlimit⟩
  have := iterate_below_eq_nil_iff.mp h
  omega

/-- From the small joker over the aces, which are the trump rank, to the king of spades. -/
theorem successors_generate_strength_aces :
    [Card.joker .small, .suited .ace .spades, .suited .ace .clubs, .suited .king .spades].IsChain
        (fun a b => b ∈ (Trump.mk .ace (some .spades)).successors a) ∧
      [Card.joker .small, .suited .ace .spades, .suited .ace .clubs, .suited .king .spades].Pairwise
        (fun a b => (Trump.mk .ace (some .spades)).strength b < (Trump.mk .ace (some .spades)).strength a) ∧
      .suited .king .spades ∈ (Trump.mk .ace (some .spades)).below^[3] [.joker .small] ∧
      (∀ j, .suited .king .spades ∈ (Trump.mk .ace (some .spades)).below^[j] [.joker .small] → 3 = j) ∧
      ((Trump.mk .ace (some .spades)).strengthsUnder (.joker .small)).length = 14 ∧
      (Trump.mk .ace (some .spades)).levels 20 [.joker .small] =
        (List.range 15).map fun i => (Trump.mk .ace (some .spades)).below^[i] [.joker .small] := by
  obtain ⟨-, hchain, hlevel, -, -, hunique, -, hend⟩ :=
    successors_generate_strength (.mk .ace (some .spades)) (.joker .small)
  have hsteps : [Card.joker .small, .suited .ace .spades, .suited .ace .clubs, .suited .king .spades].IsChain
      (fun a b => b ∈ (Trump.mk .ace (some .spades)).successors a) := by decide
  have hking := (hlevel 3 (.suited .king .spades)).mpr ⟨_, rfl, hsteps, rfl⟩
  have hlength : ((Trump.mk .ace (some .spades)).strengthsUnder (.joker .small)).length = 14 := by decide +kernel
  have hlevels := hend 20 (by rw [hlength]; decide)
  rw [hlength] at hlevels
  exact ⟨hsteps, hchain _ hsteps, hking, fun j hj => hunique 3 j _ hking hj, hlength, hlevels⟩

end Tractor.Trump
