/-
  Tractor.Proofs.Memo.History — what holds after any requests.

  A session starts without entries and serves one request after another
  (`Session.after`). Each request moves the ledger by `Ledger.after`, so every session that
  can be reached holds to a ledger (`Session.holds_after`).

  - `Session.answers_unchanged`: each answer is the one that the request would get first of
    all, and every entry is what the listing of its key gives.
  - `Session.keys_and_notes`: the keys of the tables, and what decompositions and follows
    note from there.
-/

import Mathlib.Data.List.DropRight
import Tractor.Proofs.Memo.Yields

namespace Tractor

namespace Request

/-- The numbers of cards whose decompositions a request asks for. -/
def sizes : Request → List Int
  | decompositions n => if n < 1 then [] else [n]
  | follows lead _ => if lead.IsLead then lead.map Run.cards else []
  | _ => []

/-- Those asked for since the table of decompositions was emptied last. -/
def wanted (qs : List Request) : List Int := (qs.rtakeWhile (· != clear .decompositions)).flatMap sizes

theorem one_le_of_mem_sizes {q : Request} {n : Int} (h : n ∈ q.sizes) : 1 ≤ n := by
  unfold sizes at h
  split at h
  · split at h
    · simp at h
    · rw [List.mem_singleton.mp h]
      omega
  · split at h
    · rename_i hlead
      obtain ⟨r, hr, rfl⟩ := List.mem_map.mp h
      exact hlead.one_le_cards hr
    · simp at h
  · simp at h

theorem one_le_of_mem_wanted {qs : List Request} {n : Int} (h : n ∈ wanted qs) : 1 ≤ n := by
  obtain ⟨q, -, hq⟩ := List.mem_flatMap.mp h
  exact one_le_of_mem_sizes hq

theorem wanted_concat (qs : List Request) (q : Request) :
    wanted (qs ++ [q]) = if q = clear .decompositions then [] else wanted qs ++ q.sizes := by
  unfold wanted
  rw [List.rtakeWhile_concat]
  by_cases hq : q = clear .decompositions
  · simp [hq]
  · simp [hq]

end Request

namespace Ledger

theorem mem_ask {b : Ledger} {n k : Int} : k ∈ (b.ask n).decompositions ↔ k ∈ b.decompositions ∨ k = n := by
  unfold ask
  split
  · rename_i h
    constructor
    · exact Or.inl
    · rintro (hk | rfl)
      · exact hk
      · exact h
  · simp [addDecompositions, addClusterings, addPartitions, or_comm]

theorem mem_askAll {b : Ledger} {ns : List Int} {k : Int} :
    k ∈ (b.askAll ns).decompositions ↔ k ∈ b.decompositions ∨ k ∈ ns := by
  unfold askAll
  induction ns generalizing b with
  | nil => simp
  | cons n ns ih => rw [List.foldl_cons, ih, mem_ask, List.mem_cons, or_assoc]

/-- A request other than to empty the table adds the sizes it asks for. -/
theorem mem_after {b : Ledger} {q : Request} (hq : q ≠ .clear .decompositions) {k : Int} :
    k ∈ (b.after q).decompositions ↔ k ∈ b.decompositions ∨ k ∈ q.sizes := by
  cases q with
  | partitions n => simp [after, Request.sizes, addPartitions]
  | clusterings j => simp [after, Request.sizes, addClusterings]
  | layouts values =>
    simp only [after, Request.sizes]
    split <;> simp [addClusterings]
  | decompositions n =>
    simp only [after, Request.sizes]
    split
    · simp
    · simp [mem_ask]
  | follows lead newAdjacency =>
    simp only [after, Request.sizes]
    split
    · exact mem_askAll
    · simp
  | clear table =>
    cases table with
    | partitions => simp [after, Request.sizes]
    | clusterings => simp [after, Request.sizes]
    | decompositions => exact absurd rfl hq

/-- After any requests the decompositions are those of the sizes wanted. -/
theorem mem_foldl_after (qs : List Request) (k : Int) :
    k ∈ (qs.foldl after empty).decompositions ↔ k ∈ Request.wanted qs := by
  induction qs using List.reverseRecOn with
  | nil => simp [empty, Request.wanted]
  | append_singleton qs q ih =>
    rw [List.foldl_append, Request.wanted_concat]
    by_cases hq : q = .clear .decompositions
    · subst hq
      simp [after]
    · rw [if_neg hq, List.mem_append, ← ih]
      exact mem_after hq

end Ledger

/-- The keys above `a` up to `c`, in words. -/
theorem message_storedUpTo (table : Table) (a c : Nat) :
    (Ledger.storedUpTo table a c).map Event.message =
      (List.range' (a + 1) (c - a)).map fun k => table.name ++ ": cached key " ++ toString k := by
  unfold Ledger.storedUpTo
  rw [List.map_map]
  rfl

namespace Session

def after (qs : List Request) : Session := qs.foldl (fun s q => (s.serve q).2) .empty

def messages (s : Session) : List String := s.log.map Event.message

def noted (s : Session) : List Request → List String
  | [] => []
  | q :: qs => (s.serve q).2.messages ++ (s.serve q).2.noted qs

theorem holds_empty : empty.Holds .empty := by
  refine ⟨Memo.keeps_empty _ fun k => ?_, Memo.keeps_empty _ fun k => ?_, Memo.keeps_empty _ fun k => ?_⟩
  · simp only [Ledger.empty]
    omega
  · simp only [Ledger.empty]
    omega
  · simp [Ledger.empty]

theorem holds_after (qs : List Request) : (after qs).Holds (qs.foldl Ledger.after .empty) := by
  induction qs using List.reverseRecOn with
  | nil => exact holds_empty
  | append_singleton qs q ih =>
    unfold after
    rw [List.foldl_append, List.foldl_append]
    exact (ih.serve q).2.1

/-- Whatever was asked before, a request is answered as if it were the first, and as it is
    without tables; and the tables keep nothing but what the listings give. -/
theorem answers_unchanged (qs : List Request) :
    (∀ q, ((after qs).serve q).1 = (empty.serve q).1 ∧ (empty.serve q).1 = q.answer) ∧
      (after qs).partitions.Faithful listPartitions ∧ (after qs).clusterings.Faithful listClusterings ∧
      (after qs).decompositions.Faithful listDecompositions := by
  have h := holds_after qs
  refine ⟨fun q => ?_, h.partitions.faithful fun k hk => ?_, h.clusterings.faithful fun k hk => ?_,
    h.decompositions.faithful fun k hk => ?_⟩
  · rw [(h.serve q).1, (holds_empty.serve q).1]
    exact ⟨rfl, rfl⟩
  · exact if_neg (by omega)
  · exact if_neg (by omega)
  · exact if_neg (by omega)

/-- A session keeps the decompositions of the sizes asked for since they were emptied. -/
theorem contains_decompositions (qs : List Request) (k : Int) :
    (after qs).decompositions.contains k = true ↔ k ∈ Request.wanted qs := by
  rw [(holds_after qs).decompositions.contains_iff, Ledger.mem_foldl_after]
  constructor
  · intro hk
    exact hk.2
  · intro hk
    exact ⟨Request.one_le_of_mem_wanted hk, hk⟩

section

variable {s : Session} {b : Ledger} (h : s.Holds b)
include h

/-- Decompositions that are not kept note the partitions and clusterings that were missing,
    smaller ones first, and then that they were built and kept. -/
theorem Holds.messages_decompositions {n : Int} (hn : 1 ≤ n) :
    (s.serve (.decompositions n)).2.messages =
      if s.decompositions.contains n then []
      else
        (List.range' (b.partitions + 1) (n.toNat - b.partitions)).map (fun k => "partitions: cached key " ++ toString k) ++
        (List.range' (b.clusterings + 1) (n.toNat / 2 - b.clusterings)).map
          (fun k => "adjacency_assignments: cached key " ++ toString k) ++
        ["built " ++ toString (Tractor.decompositions n.toNat).length ++ " decompositions for " ++ toString n ++ " cards",
          "full_decompositions: cached key " ++ toString n] := by
  have hlt : ¬ n < 1 := by omega
  have hkept := h.decompositions.contains_iff (k := n)
  rw [messages, (h.serve _).2.2, Ledger.noted, if_neg hlt, Ledger.notes]
  by_cases hmem : n ∈ b.decompositions
  · rw [if_pos hmem, if_pos (hkept.mpr ⟨hn, hmem⟩)]
    rfl
  · rw [if_neg hmem, if_neg (fun hc => hmem (hkept.mp hc).2), List.map_append, List.map_append, message_storedUpTo,
      message_storedUpTo]
    simp [Table.name, Event.message, Memo.storedMessage]

/-- Decompositions of several sizes note what the ledger says, size by size. -/
theorem Holds.noted_decompositions {ns : List Int} (hns : ∀ n ∈ ns, 1 ≤ n) :
    s.noted (ns.map .decompositions) = (b.notesAll ns).map Event.message := by
  induction ns generalizing s b with
  | nil => rfl
  | cons n ns ih =>
    rw [List.forall_mem_cons] at hns
    obtain ⟨-, hs, hlog⟩ := h.serve (.decompositions n)
    have hn : ¬ n < 1 := by omega
    simp only [Ledger.after, Ledger.noted, if_neg hn] at hs hlog
    rw [List.map_cons, noted, ih hs hns.2, messages, hlog, Ledger.notesAll, List.map_append]

/-- A lead notes what the decompositions of its runs would, one run after another. -/
theorem Holds.messages_follows {lead : Shape} (newAdjacency : Bool) (hlead : lead.IsLead) :
    (s.serve (.follows lead newAdjacency)).2.messages = s.noted (lead.map fun r => .decompositions r.cards) := by
  have hns : ∀ n ∈ lead.map Run.cards, 1 ≤ n := by
    intro n hn
    obtain ⟨r, hr, rfl⟩ := List.mem_map.mp hn
    exact hlead.one_le_cards hr
  have hnoted := h.noted_decompositions hns
  rw [List.map_map] at hnoted
  rw [messages, (h.serve _).2.2, Ledger.noted, if_pos hlead]
  exact hnoted.symm

end

/-- The keys of the tables after any requests, and what decompositions and a lead note from
    there. -/
theorem keys_and_notes (qs : List Request) :
    ∃ p a : Nat, 1 ≤ a ∧ (∀ k, (after qs).partitions.contains k = true ↔ 1 ≤ k ∧ k ≤ p) ∧
      (∀ k, (after qs).clusterings.contains k = true ↔ 2 ≤ k ∧ k ≤ a) ∧
      (∀ k, (after qs).decompositions.contains k = true ↔ k ∈ Request.wanted qs) ∧
      (∀ n : Int, 1 ≤ n → ∃ shapes, ((after qs).serve (.decompositions n)).1 = .ok (.shapes shapes) ∧
        ((after qs).serve (.decompositions n)).2.messages =
          if (after qs).decompositions.contains n then []
          else
            (List.range' (p + 1) (n.toNat - p)).map (fun k => "partitions: cached key " ++ toString k) ++
            (List.range' (a + 1) (n.toNat / 2 - a)).map (fun k => "adjacency_assignments: cached key " ++ toString k) ++
            ["built " ++ toString shapes.length ++ " decompositions for " ++ toString n ++ " cards",
              "full_decompositions: cached key " ++ toString n]) ∧
      ∀ (lead : Shape) (newAdjacency : Bool), lead.IsLead →
        ((after qs).serve (.follows lead newAdjacency)).2.messages =
          (after qs).noted (lead.map fun r => .decompositions r.cards) := by
  have h := holds_after qs
  refine ⟨_, _, Ledger.one_le _, fun k => h.partitions.contains_iff, fun k => h.clusterings.contains_iff,
    contains_decompositions qs, fun n hn => ?_, fun lead newAdjacency => h.messages_follows newAdjacency⟩
  refine ⟨Tractor.decompositions n.toNat, ?_, h.messages_decompositions hn⟩
  rw [(h.serve _).1, Request.answer, listDecompositions, if_neg (by omega)]
  rfl

/-- Six cards after four: by a request of their own, and by a lead of two triples in a row. -/
theorem keys_and_notes_six :
    (1 : Int) ≤ 6 ∧ Shape.IsLead [[3, 3]] ∧
      (∃ shapes, ((after [.decompositions 4]).serve (.decompositions 6)).1 = .ok (.shapes shapes)) ∧
      ((after [.decompositions 4]).serve (.follows [[3, 3]] true)).2.messages =
        (after [.decompositions 4]).noted [.decompositions 6] := by
  have hlead : Shape.IsLead [[3, 3]] := by decide
  obtain ⟨p, a, -, -, -, -, hsizes, hfollows⟩ := keys_and_notes [.decompositions 4]
  obtain ⟨shapes, hshapes, -⟩ := hsizes 6 (by decide)
  exact ⟨by decide, hlead, ⟨shapes, hshapes⟩, hfollows [[3, 3]] true hlead⟩

end Session

end Tractor
