/-
  Tractor.Trump.Adjacency — the cards ranked just below a card in one deal.

  The big joker is above the small one, which is above the trump rank in the trump suit,
  which is above the trump rank in the other suits, which is above the highest other
  rank of the trump suit. Below that, and in the plain suits, the ranks follow one
  another without the trump rank. In a deal without trump suit nothing is below the
  cards of the trump rank.

  - `Trump.successors`: the cards just below a card.
  - `Trump.levels`: the cards one step below, two steps below, and so on.
-/

import Tractor.Trump.Basic

namespace Tractor.Trump

def topRank (t : Trump) : Rank := if t.rank = .ace then .king else .ace

/-- The next lower rank but the trump rank. -/
def rankBelow (t : Trump) (r : Rank) : Option Rank :=
  ((Rank.all.take r.index).filter fun b => decide (b ≠ t.rank)).getLast?

def successors (t : Trump) : Card → List Card
  | .joker .big => [.joker .small]
  | .joker .small =>
    match t.suit with
    | some s => [.suited t.rank s]
    | none => Suit.all.map (.suited t.rank ·)
  | .suited r s =>
    if r = t.rank then
      match t.suit with
      | none => []
      | some trumpSuit =>
        if s = trumpSuit then (Suit.all.filter fun o => decide (o ≠ trumpSuit)).map (.suited t.rank ·)
        else [.suited t.topRank trumpSuit]
    else
      match t.rankBelow r with
      | some below => [.suited below s]
      | none => []

def below (t : Trump) (level : List Card) : List Card := (level.flatMap t.successors).eraseDups

/-- At most `limit` levels from the given one down, up to the first empty one. -/
def levels (t : Trump) : Nat → List Card → List (List Card)
  | 0, _ => []
  | limit + 1, level => if level.isEmpty then [] else level :: levels t limit (t.below level)

end Tractor.Trump
