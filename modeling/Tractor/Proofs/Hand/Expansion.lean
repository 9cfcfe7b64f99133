/-
  Tractor.Proofs.Hand.Expansion — an expansion under any uses.

  An expansion is started from its piles and used in any order (`Expansion.after`). What
  counts is what it handed out since it was started last (`Expansion.handedOut`).

  - `Expansion.Accounts`: what was handed out and what is left are together all cards of
    the piles; each of the uses keeps it (`Accounts.next`, `Accounts.rest`,
    `Accounts.restart`), so it holds after any uses (`accounts_after`).
  - `Expansion.handed_out_in_order`: the cards come in the order of the piles, `next` fails
    only when all were handed out, and a restart begins again.
-/

import Mathlib.Data.List.DropRight
import Tractor.Hand.Expansion

namespace Tractor

namespace Expansion

def Yield.out : Yield → List Card
  | card c => c.toList
  | cards cs => cs
  | restarted => []

def yields (e : Expansion) : List Use → List Yield
  | [] => []
  | u :: us => (e.use u).1 :: (e.use u).2.yields us

def after (piles : List Pile) (uses : List Use) : Expansion := uses.foldl (fun e u => (e.use u).2) (start piles)

def handedOut (piles : List Pile) (uses : List Use) : List Card :=
  (((start piles).yields uses).rtakeWhile (· != .restarted)).flatMap Yield.out

theorem yields_append (e : Expansion) (us vs : List Use) :
    e.yields (us ++ vs) = e.yields us ++ (us.foldl (fun e u => (e.use u).2) e).yields vs := by
  induction us generalizing e with
  | nil => rfl
  | cons u us ih => rw [List.cons_append, yields, ih]; rfl

theorem after_concat (piles : List Pile) (uses : List Use) (u : Use) :
    after piles (uses ++ [u]) = ((after piles uses).use u).2 := by
  unfold after
  rw [List.foldl_append]
  rfl

theorem handedOut_concat (piles : List Pile) (uses : List Use) (u : Use) :
    handedOut piles (uses ++ [u]) =
      if ((after piles uses).use u).1 = .restarted then []
      else handedOut piles uses ++ ((after piles uses).use u).1.out := by
  have hone : (after piles uses).yields [u] = [((after piles uses).use u).1] := rfl
  unfold handedOut
  rw [yields_append, ← after, hone, List.rtakeWhile_concat]
  by_cases h : ((after piles uses).use u).1 = .restarted <;> simp [h]

/-! ## What is left -/

structure Accounts (piles : List Pile) (e : Expansion) (out : List Card) : Prop where
  source : e.source = piles
  total : out ++ spread e.pending = spread piles

theorem accounts_start (piles : List Pile) : Accounts piles (start piles) [] := ⟨rfl, rfl⟩

namespace Accounts

variable {piles : List Pile} {e : Expansion} {out : List Card} (h : Accounts piles e out)
include h

theorem next : Accounts piles e.next.2 (out ++ e.next.1.toList) := by
  refine ⟨h.source, ?_⟩
  show out ++ (draw e.pending).1.toList ++ spread (draw e.pending).2 = spread piles
  rw [List.append_assoc, draw_append_spread, h.total]

theorem rest : Accounts piles e.rest.2 (out ++ e.rest.1) := by
  refine ⟨h.source, ?_⟩
  show out ++ spread e.pending ++ [] = spread piles
  rw [List.append_nil, h.total]

theorem restart : e.restart = start piles := by
  unfold Expansion.restart
  rw [h.source]

/-- The next card is the one after all that were handed out. -/
theorem next_eq : e.next.1 = (spread piles)[out.length]? := by
  show (draw e.pending).1 = _
  rw [← h.total, List.getElem?_append_right (Nat.le_refl _), Nat.sub_self]
  cases hd : (draw e.pending).1 with
  | none => simp [(draw_eq_none_iff e.pending).mp hd]
  | some c =>
    rw [← draw_append_spread e.pending, hd]
    rfl

theorem next_eq_none_iff : e.next.1 = none ↔ out = spread piles := by
  show (draw e.pending).1 = none ↔ _
  rw [draw_eq_none_iff, ← h.total]
  simp

end Accounts

theorem accounts_after (piles : List Pile) (uses : List Use) :
    Accounts piles (after piles uses) (handedOut piles uses) := by
  induction uses using List.reverseRecOn with
  | nil => exact accounts_start piles
  | append_singleton uses u ih =>
    rw [after_concat, handedOut_concat]
    cases u with
    | next => exact ih.next
    | rest => exact ih.rest
    | restart =>
      show Accounts piles (after piles uses).restart []
      rw [ih.restart]
      exact accounts_start piles

/-- Since the last start the cards of the piles come in their order, each as often as it is
    counted: `next` gives the first that is left and nothing once all were handed out, after
    `rest` all were, and after a restart they come again from the first. -/
theorem handed_out_in_order (piles : List Pile) (uses : List Use) :
    handedOut piles uses <+: spread piles ∧
      ((after piles uses).use .next).1 = .card (spread piles)[(handedOut piles uses).length]? ∧
      (((after piles uses).use .next).1 = .card none ↔ handedOut piles uses = spread piles) ∧
      handedOut piles (uses ++ [.rest]) = spread piles ∧
      ∀ later, (start piles).yields (uses ++ .restart :: later) =
        (start piles).yields uses ++ .restarted :: (start piles).yields later := by
  have h := accounts_after piles uses
  refine ⟨⟨_, h.total⟩, ?_, ?_, ?_, fun later => ?_⟩
  · exact congrArg Yield.card h.next_eq
  · show Yield.card (after piles uses).next.1 = .card none ↔ _
    rw [Yield.card.injEq, h.next_eq_none_iff]
  · rw [handedOut_concat]
    exact h.total
  · rw [yields_append, ← after, yields]
    show _ ++ .restarted :: (after piles uses).restart.yields later = _
    rw [h.restart]

end Expansion

end Tractor
