/-
  Tractor.Trump.Basic — which cards are trump, and how cards compare in one deal.

  A deal has a trump rank and may have a trump suit. Jokers, cards of the trump rank and
  cards of the trump suit are trump and form a suit of their own above the plain ones.

  - `Trump.compare`: a total order, by play suit, then strength, then suit.
  - `Trump.contest`: which card beats which; cards of two plain suits, and cards of the
    trump rank off the trump suit, do not beat one another.
-/

import Tractor.Card.Basic

namespace Tractor

structure Trump where
  rank : Rank
  suit : Option Suit
  deriving DecidableEq, Repr

inductive PlaySuit where
  | plain (s : Suit)
  | trump
  deriving DecidableEq, Repr

namespace PlaySuit

def all : List PlaySuit := Suit.all.map plain ++ [trump]

/-- The place among the play suits; trump is above every plain one. -/
def index : PlaySuit → Nat
  | plain s => s.index
  | trump => 4

def name : PlaySuit → String
  | plain s => s.name
  | trump => "TRUMP"

theorem index_plain_lt (s : Suit) : (plain s).index < trump.index := by cases s <;> decide

theorem index_le_trump (p : PlaySuit) : p.index ≤ trump.index := by
  cases p with
  | plain s => exact Nat.le_of_lt (index_plain_lt s)
  | trump => exact Nat.le_refl _

@[simp] theorem index_inj {p q : PlaySuit} : p.index = q.index ↔ p = q := by
  cases p with
  | plain s =>
    cases q with
    | plain o => simp [index]
    | trump => simp [Nat.ne_of_lt (index_plain_lt s)]
  | trump =>
    cases q with
    | plain o => simp [Nat.ne_of_gt (index_plain_lt o)]
    | trump => simp

end PlaySuit

namespace Trump

def isTrump (t : Trump) : Card → Bool
  | .joker _ => true
  | .suited r s => decide (r = t.rank) || decide (t.suit = some s)

def playSuit (t : Trump) : Card → PlaySuit
  | .joker _ => .trump
  | .suited r s => if t.isTrump (.suited r s) then .trump else .plain s

def strength (t : Trump) : Card → Nat
  | .joker .big => 100
  | .joker .small => 99
  | .suited r s => if r = t.rank then (if t.suit = some s then 98 else 97) else r.index

/-- The suit as a last resort between cards of equal strength; jokers have none. -/
def suitPlace : Card → Nat
  | .joker _ => 0
  | .suited _ s => s.index + 1

def compare (t : Trump) (a b : Card) : Ordering :=
  (Ord.compare (t.playSuit a).index (t.playSuit b).index).then
    ((Ord.compare (t.strength a) (t.strength b)).then (Ord.compare (suitPlace a) (suitPlace b)))

def contest (t : Trump) (a b : Card) : Ordering :=
  if t.playSuit a = t.playSuit b then Ord.compare (t.strength a) (t.strength b)
  else if t.playSuit a = .trump then .gt
  else if t.playSuit b = .trump then .lt
  else .eq

end Trump

end Tractor
