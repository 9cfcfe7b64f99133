/-
  Tractor.Hand.Expansion — counted cards handed out one at a time.

  An expansion hands out the cards of its piles in order, each as often as it is
  counted. It may be asked for the next card, for all that are left, or to start again.

  - `Expansion.next`, `Expansion.rest`, `Expansion.restart`: the three uses.
  - `Expansion.draw`: the next card and what is then left, which together are what was
    left before (`draw_append_spread`).
-/

import Tractor.Hand.Tally

namespace Tractor

structure Expansion where
  /-- The piles from which it starts. -/
  source : List Pile
  /-- The piles that are left. -/
  pending : List Pile
  deriving DecidableEq, Repr

namespace Expansion

def start (piles : List Pile) : Expansion := ⟨piles, piles⟩

def draw : List Pile → Option Card × List Pile
  | [] => (none, [])
  | (c, n) :: rest => if 0 < n then (some c, (c, n - 1) :: rest) else draw rest

/-- Drawing takes the first card of what the piles spread to. -/
theorem draw_append_spread (piles : List Pile) :
    (draw piles).1.toList ++ spread (draw piles).2 = spread piles := by
  induction piles with
  | nil => rfl
  | cons p rest ih =>
    obtain ⟨c, n⟩ := p
    by_cases h : 0 < n
    · rw [draw, if_pos h, spread_cons_of_pos h]
      rfl
    · rw [draw, if_neg h, ih, spread_cons_of_not_pos h]

theorem draw_eq_none_iff (piles : List Pile) : (draw piles).1 = none ↔ spread piles = [] := by
  induction piles with
  | nil => simp [draw, spread]
  | cons p rest ih =>
    obtain ⟨c, n⟩ := p
    by_cases h : 0 < n
    · simp [draw, h, spread_cons_of_pos h]
    · rw [draw, if_neg h, ih, spread_cons_of_not_pos h]

def next (e : Expansion) : Option Card × Expansion :=
  let (card, left) := draw e.pending
  (card, { e with pending := left })

def rest (e : Expansion) : List Card × Expansion := (spread e.pending, { e with pending := [] })

def restart (e : Expansion) : Expansion := start e.source

inductive Use where
  | next
  | rest
  | restart
  deriving DecidableEq, Repr

inductive Yield where
  | card (c : Option Card)
  | cards (cs : List Card)
  | restarted
  deriving DecidableEq, Repr

def use (e : Expansion) : Use → Yield × Expansion
  | .next => let (c, after) := e.next; (.card c, after)
  | .rest => let (cs, after) := e.rest; (.cards cs, after)
  | .restart => (.restarted, e.restart)

end Expansion

end Tractor
