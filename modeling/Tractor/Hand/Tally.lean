/-
  Tractor.Hand.Tally — a hand grouped into counted cards, and spread out again.

  A tally holds each card of a hand once, with its count, in the ascending order of the
  deal. Spreading repeats each card as often as it is counted; a count of zero or below
  gives nothing.
-/

import Tractor.Trump.Basic

namespace Tractor

abbrev Pile := Card × Int

/-- The cards of a hand, each once with its count, in ascending order. -/
def tally (t : Trump) (hand : List Card) : List Pile :=
  (hand.eraseDups.mergeSort fun a b => (t.compare a b).isLE).map fun c => (c, (hand.count c : Int))

def spread (piles : List Pile) : List Card := piles.flatMap fun p => List.replicate p.2.toNat p.1

theorem spread_cons_of_pos {n : Int} (h : 0 < n) (c : Card) (rest : List Pile) :
    spread ((c, n) :: rest) = c :: spread ((c, n - 1) :: rest) := by
  have hn : n.toNat = (n - 1).toNat + 1 := by omega
  simp only [spread, List.flatMap_cons]
  rw [hn, List.replicate_succ, List.cons_append]

theorem spread_cons_of_not_pos {n : Int} (h : ¬ 0 < n) (c : Card) (rest : List Pile) :
    spread ((c, n) :: rest) = spread rest := by
  have hn : n.toNat = 0 := by omega
  simp [spread, hn]

end Tractor
