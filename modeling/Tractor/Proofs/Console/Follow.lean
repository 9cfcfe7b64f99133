/-
  Tractor.Proofs.Console.Follow — what following a lead checks, and what typing one has
  checked already.

  A lead with an empty run is followed by nothing, also when another run has a size below
  one. A size below one is refused otherwise, and these two answers come before any table
  is looked at. Every other lead is answered. A lead that was typed is one of these: a word
  has a part for every comma and one more, so no run is empty, and a word with a size below
  one is no run.

  - `Shape.isLead_of_ofText`: a lead that was typed passes every check.
  - `follows_checks`: the three kinds of lead, and the command for what was typed.
-/

import Tractor.Console.Command
import Tractor.Proofs.Memo.Checks
import Tractor.Proofs.Shape.Typed

namespace Tractor

/-! ## What is typed -/

/-- A run that was typed has a size, and none below one. -/
theorem Run.Reading.nonempty_and_positive {word : List Char} {r : Run} (h : Reading word (.ok r)) :
    r ≠ [] ∧ ∀ v ∈ r, 1 ≤ v := by
  cases h with
  | run hparts hpositive =>
    refine ⟨fun hnil => ?_, hpositive⟩
    rw [hnil] at hparts
    exact List.splitOn_ne_nil ',' word (List.forall₂_nil_right_iff.mp hparts)

theorem Shape.Reading.isLead {words : List (List Char)} {lead : Shape} (h : Reading words (.ok lead)) : lead.IsLead := by
  cases h with
  | shape _ hruns =>
    have hrun : ∀ r ∈ lead, r ≠ [] ∧ ∀ v ∈ r, 1 ≤ v := by
      intro r hr
      obtain ⟨word, -, hword⟩ := exists_of_mem_forall₂ hruns hr
      exact hword.nonempty_and_positive
    exact ⟨fun r hr => (hrun r hr).1, fun r hr => (hrun r hr).2⟩

theorem Shape.isLead_of_ofText {text : String} {lead : Shape} (h : ofText text = .ok lead) : lead.IsLead :=
  (ofTyped_eq_iff.mp h).isLead

/-! ## What is answered -/

theorem Console.answered_eq_ok {request : Request} (grid : Answer → Grid) {a : Answer} {after : Session}
    (h : Session.empty.serve request = (.ok a, after)) :
    answered request grid = (.ok (grid a).lines, after.log) := by
  rw [answered, h]
  rfl

/-- The command prints the shapes that follow a lead. -/
theorem Console.Command.exists_run_follow_eq_ok {lead : Shape} (hlead : lead.IsLead) (newAdjacency : Bool) :
    ∃ lines events, (Command.follow lead newAdjacency).run = (.ok lines, events) := by
  obtain ⟨shapes, after, hserve⟩ := Session.exists_serve_eq_ok (Session.positive_after []) newAdjacency hlead
  exact ⟨_, after.log, answered_eq_ok _ hserve⟩

/-- A lead with an empty run is followed by nothing, whatever else is in it; otherwise a
    size below one is refused. Both leave the tables as they are and note nothing. Every
    other lead is answered in every session whose kept partitions have no size below one,
    as all sessions are that can be reached. What was typed is such a lead, and its command
    is answered. -/
theorem follows_checks (lead : Shape) (newAdjacency : Bool) :
    ([] ∈ lead → ∀ s : Session,
      s.serve (.follows lead newAdjacency) = (.ok (.shapes []), { s with log := [] })) ∧
    ([] ∉ lead → (∃ r ∈ lead, ∃ v ∈ r, v < 1) → ∀ s : Session,
      s.serve (.follows lead newAdjacency) = (.error .tupleSize, { s with log := [] })) ∧
    Fault.tupleSize.message = "tuple sizes must be positive" ∧
    ([] ∉ lead → (¬ ∃ r ∈ lead, ∃ v ∈ r, v < 1) → ∀ s : Session, s.Positive →
      ∃ shapes after, s.serve (.follows lead newAdjacency) = (.ok (.shapes shapes), after)) ∧
    (∀ qs, (Session.after qs).Positive) ∧
    ∀ text, Shape.ofText text = .ok lead →
      ([] ∉ lead ∧ ¬ ∃ r ∈ lead, ∃ v ∈ r, v < 1) ∧
      ∃ lines events, (Console.Command.follow lead newAdjacency).run = (.ok lines, events) := by
  refine ⟨?_, ?_, rfl, ?_, Session.positive_after, ?_⟩
  · intro hnil s
    exact s.serve_of_nil_mem newAdjacency hnil
  · intro hnonempty hsmall s
    exact s.serve_of_lt_one newAdjacency hnonempty hsmall
  · intro hnonempty hpositive s hs
    exact Session.exists_serve_eq_ok hs newAdjacency (lead.isLead_iff_not_mem.mpr ⟨hnonempty, hpositive⟩)
  · intro text htext
    have hlead := Shape.isLead_of_ofText htext
    exact ⟨lead.isLead_iff_not_mem.mp hlead, Console.Command.exists_run_follow_eq_ok hlead newAdjacency⟩

/-- After one of three tables was emptied: a size of zero beside an empty run, a size of zero, and a
    lead that was typed with blanks and a sign. -/
theorem follows_checks_leads :
    [] ∈ ([[0], []] : Shape) ∧ ([] ∉ ([[2], [0]] : Shape) ∧ ∃ r ∈ ([[2], [0]] : Shape), ∃ v ∈ r, v < 1) ∧
    Shape.ofText " 2,2\t+3 " = .ok [[2, 2], [3]] ∧
    let s := Session.after [.decompositions 4, .clear .partitions]
    s.serve (.follows [[0], []] false) = (.ok (.shapes []), { s with log := [] }) ∧
    s.serve (.follows [[2], [0]] true) = (.error .tupleSize, { s with log := [] }) ∧
    (∃ shapes after, s.serve (.follows [[2, 2], [3]] false) = (.ok (.shapes shapes), after)) ∧
    ∃ lines events, (Console.Command.follow [[2, 2], [3]] false).run = (.ok lines, events) := by
  have hempty : [] ∈ ([[0], []] : Shape) := by decide
  have hsmall : [] ∉ ([[2], [0]] : Shape) ∧ ∃ r ∈ ([[2], [0]] : Shape), ∃ v ∈ r, v < 1 := by decide
  have htext : Shape.ofText " 2,2\t+3 " = .ok [[2, 2], [3]] := by decide +kernel
  obtain ⟨-, -, -, hanswered, hreached, htyped⟩ := follows_checks [[2, 2], [3]] false
  obtain ⟨⟨hnonempty, hpositive⟩, hrun⟩ := htyped _ htext
  exact ⟨hempty, hsmall, htext, (follows_checks [[0], []] false).1 hempty _,
    (follows_checks [[2], [0]] true).2.1 hsmall.1 hsmall.2 _, hanswered hnonempty hpositive _ (hreached _), hrun⟩

end Tractor
