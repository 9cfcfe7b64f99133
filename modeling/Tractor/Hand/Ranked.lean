/-
  Tractor.Hand.Ranked — cards that carry the trump of their deal.

  Two ranked cards are equal when card and trump are. They are compared only within one
  deal; comparing across deals is refused, and so is sorting cards of several deals,
  because any two neighbours of a sorted list have been compared.
-/

import Tractor.Trump.Basic

namespace Tractor

structure RankedCard where
  card : Card
  trump : Trump
  deriving DecidableEq, Repr

/-- Cards of two deals were compared. -/
inductive Mismatch where
  | mixedDeals
  deriving DecidableEq, Repr

def Mismatch.message : Mismatch → String
  | mixedDeals => "ordered cards from different trump contexts"

namespace RankedCard

def compare (a b : RankedCard) : Except Mismatch Ordering :=
  if a.trump = b.trump then .ok (a.trump.compare a.card b.card) else .error .mixedDeals

def contest (a b : RankedCard) : Except Mismatch Ordering :=
  if a.trump = b.trump then .ok (a.trump.contest a.card b.card) else .error .mixedDeals

def sort : List RankedCard → Except Mismatch (List RankedCard)
  | [] => .ok []
  | a :: rest =>
    if rest.all fun b => decide (b.trump = a.trump) then
      .ok ((a :: rest).mergeSort fun b c => (a.trump.compare b.card c.card).isLE)
    else .error .mixedDeals

end RankedCard

end Tractor
