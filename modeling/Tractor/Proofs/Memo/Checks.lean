/-
  Tractor.Proofs.Memo.Checks — below a lead that passes its own checks no check fails.

  Each listing checks what it is asked for, also when a greater listing asks. What is asked
  passes: a run of a lead has a card at least, so has each number of cards on the way down;
  the larger tuples of a partition are above one card, and they are laid out only if there
  are any. For this the tables need not be right. It is enough that the partitions that are
  kept have no size below one (`Session.Positive`), and every session that can be reached
  is such (`Session.positive_after`).

  - `Caching.Passes x Q`: in such a session the work `x` is not refused, gives a value with
    `Q`, and leaves such a session.
  - `Caching.passes_follows`: what follows a lead is not refused.
  - `Session.serve_of_nil_mem`, `Session.serve_of_lt_one`: a lead that does not pass leaves
    the tables as they are.
-/

import Tractor.Proofs.Memo.History

namespace Tractor

namespace Shape

variable (lead : Shape)

theorem any_isEmpty_iff : lead.any List.isEmpty = true ↔ [] ∈ lead := by simp

theorem any_lt_one_iff : lead.any (List.any · (· < 1)) = true ↔ ∃ r ∈ lead, ∃ v ∈ r, v < 1 := by
  simp only [List.any_eq_true, decide_eq_true_eq]

theorem isLead_iff_not_mem : lead.IsLead ↔ [] ∉ lead ∧ ¬ ∃ r ∈ lead, ∃ v ∈ r, v < 1 := by
  rw [isLead_iff, ← Bool.not_eq_true, ← Bool.not_eq_true, any_isEmpty_iff, any_lt_one_iff]

end Shape

def AllPositive (rs : List Run) : Prop := ∀ r ∈ rs, ∀ v ∈ r, 1 ≤ v

def Session.Positive (s : Session) : Prop := ∀ key ps, s.partitions.get? key = some ps → AllPositive ps

namespace Caching

def Passes {α : Type} (x : Caching α) (Q : α → Prop) : Prop :=
  ∀ s : Session, s.Positive → ∃ a s', x.run.run s = (.ok a, s') ∧ Q a ∧ s'.Positive

namespace Passes

variable {α β : Type} {P : α → Prop} {Q : β → Prop}

theorem pure {a : α} (ha : P a) : Passes (pure a) P := fun s hs => ⟨a, s, rfl, ha, hs⟩

theorem bind {x : Caching α} {f : α → Caching β} (hx : Passes x P) (hf : ∀ a, P a → Passes (f a) Q) :
    Passes (x >>= f) Q := by
  intro s hs
  obtain ⟨a, s₁, hrun₁, ha, hs₁⟩ := hx s hs
  obtain ⟨b, s₂, hrun₂, hb, hs₂⟩ := hf a ha s₁ hs₁
  exact ⟨b, s₂, by rw [run_bind_ok hrun₁, hrun₂], hb, hs₂⟩

theorem note (e : Event) : Passes (modify fun s => s.note e) fun _ => True :=
  fun s hs => ⟨(), s.note e, rfl, trivial, hs⟩

theorem mapM {f : α → Caching β} {as : List α} (h : ∀ a ∈ as, Passes (f a) fun _ => True) :
    Passes (as.mapM f) fun _ => True := by
  induction as with
  | nil => exact .pure trivial
  | cons a as ih =>
    rw [List.forall_mem_cons] at h
    rw [List.mapM_cons]
    exact h.1.bind fun b _ => (ih h.2).bind fun bs _ => .pure trivial

/-- A value is kept with `P`, or built with `P` and then stored. -/
theorem remember {slot : Slot α} {key : Int} {build : Caching α}
    (hread : ∀ s : Session, s.Positive → ∀ v, (slot.read s).get? key = some v → P v)
    (hstore : ∀ s : Session, s.Positive → ∀ v, P v →
      (slot.write s ⟨(slot.read s).entries.insert key (some v)⟩).Positive) (hbuild : Passes build P) :
    Passes (remember slot key build) P := by
  intro s hs
  cases hkept : (slot.read s).get? key with
  | some v => exact ⟨v, s, run_remember_hit hkept, hread s hs v hkept, hs⟩
  | none =>
    obtain ⟨v, s₁, hrun, hv, hs₁⟩ := hbuild s hs
    rw [run_remember_build hkept hrun]
    cases hkept₁ : (slot.read s₁).get? key with
    | some w =>
      rw [Session.record_of_kept hkept₁]
      exact ⟨w, s₁, rfl, hread s₁ hs₁ w hkept₁, hs₁⟩
    | none =>
      rw [Session.record_of_absent hkept₁]
      exact ⟨v, _, rfl, hv, hstore s₁ hs₁ v hv⟩

end Passes

/-! ## The listings -/

theorem allPositive_next {ps : List Run} (h : AllPositive ps) : AllPositive (Partition.next ps) := by
  intro q hq v hv
  obtain ⟨p, hp, hq⟩ := Partition.mem_next.mp hq
  have hpos := h p hp
  rcases Partition.mem_additions.mp hq with rfl | ⟨before, x, after, rfl, rfl, -⟩
  · rcases List.mem_append.mp hv with hv | hv
    · exact hpos v hv
    · exact Int.le_of_eq (List.mem_singleton.mp hv).symm
  · have hx := hpos x (List.mem_append_right _ List.mem_cons_self)
    rcases List.mem_append.mp hv with hv | hv
    · exact hpos v (List.mem_append_left _ hv)
    · rcases List.mem_cons.mp hv with rfl | hv
      · omega
      · exact hpos v (List.mem_append_right _ (List.mem_cons_of_mem x hv))

theorem positive_store_partitions {s : Session} (hs : s.Positive) (key : Int) {ps : List Run} (hps : AllPositive ps) :
    Session.Positive { s with partitions := ⟨s.partitions.entries.insert key (some ps)⟩ } := by
  intro k qs hk
  simp only [Memo.get?, Std.TreeMap.getElem?_insert] at hk
  by_cases hkey : compare key k = .eq
  · rw [if_pos hkey] at hk
    rwa [← Option.some.inj hk]
  · rw [if_neg hkey] at hk
    exact hs k qs hk

theorem passes_remember_partitions {key : Int} {build : Caching (List Run)} (h : Passes build AllPositive) :
    Passes (remember .partitions key build) AllPositive :=
  .remember (fun _ hs v hv => hs key v hv) (fun _ hs _ hv => positive_store_partitions hs key hv) h

theorem passes_partitions {n : Nat} (hn : 1 ≤ n) : Passes (Caching.partitions n) AllPositive := by
  induction n with
  | zero => omega
  | succ n ih =>
    by_cases h0 : n = 0
    · subst h0
      have hnil : AllPositive [[]] := by simp [AllPositive]
      exact partitions_one ▸ passes_remember_partitions (.pure (allPositive_next hnil))
    · rw [partitions_succ (by omega)]
      exact passes_remember_partitions ((ih (by omega)).bind fun _ h => .pure (allPositive_next h))

theorem passes_clusterings {n : Nat} (hn : 1 ≤ n) : Passes (Caching.clusterings n) fun _ => True := by
  induction n with
  | zero => omega
  | succ n ih =>
    by_cases h0 : n = 0
    · subst h0
      rw [Caching.clusterings]
      exact .pure trivial
    · rw [clusterings_succ (by omega)]
      exact .remember (fun _ _ _ _ => trivial) (fun _ hs _ _ => hs) ((ih (by omega)).bind fun _ _ => .pure trivial)

theorem passes_layouts {values : Run} (hne : values ≠ []) (hvalues : ∀ v ∈ values, 2 ≤ v) :
    Passes (Caching.layouts values) fun _ => True := by
  have hany : ¬ values.any (· ≤ 1) = true := by
    simp only [List.any_eq_true, decide_eq_true_eq, not_exists, not_and]
    intro v hv
    have := hvalues v hv
    omega
  unfold Caching.layouts
  rw [if_neg (by rwa [List.isEmpty_iff]), if_neg hany]
  exact (passes_clusterings (List.length_pos_iff.mpr hne)).bind fun _ _ => .pure trivial

theorem passes_ofPartition {p : Run} (hp : ∀ v ∈ p, 1 ≤ v) : Passes (Caching.ofPartition p) fun _ => True := by
  unfold Caching.ofPartition
  split
  · exact .pure trivial
  · rename_i hne
    rw [List.isEmpty_iff] at hne
    exact (passes_layouts hne (Decomposition.two_le_of_positive hp)).bind fun _ _ => .pure trivial

theorem passes_decompositions {n : Int} (hn : 1 ≤ n) : Passes (Caching.decompositions n) fun _ => True := by
  obtain ⟨m, rfl⟩ := Int.eq_ofNat_of_zero_le (a := n) (by omega)
  rw [Caching.decompositions, if_neg (by omega)]
  refine .remember (fun _ _ _ _ => trivial) (fun _ hs _ _ => hs) ((passes_partitions (by omega)).bind fun ps hps => ?_)
  refine (Passes.mapM fun p hp => passes_ofPartition (hps p hp)).bind fun listed _ => ?_
  exact (Passes.note _).bind fun _ _ => .pure trivial

/-- What follows a lead is not refused. -/
theorem passes_follows {lead : Shape} (hlead : lead.IsLead) (newAdjacency : Bool) :
    Passes (Caching.follows lead newAdjacency) fun _ => True := by
  obtain ⟨hnonempty, hpositive⟩ := lead.isLead_iff.mp hlead
  unfold Caching.follows
  rw [hnonempty, hpositive]
  refine (Passes.mapM fun r hr => ?_).bind fun _ _ => .pure trivial
  exact (passes_decompositions (hlead.one_le_cards hr)).bind fun _ _ => .pure trivial

end Caching

namespace Session

/-- In every session that can be reached the kept partitions are partitions. -/
theorem positive_after (qs : List Request) : (after qs).Positive := by
  intro key ps hkept p hp
  have hkeeps := (holds_after qs).partitions
  by_cases hkey : 1 ≤ key ∧ key ≤ (qs.foldl Ledger.after .empty).partitions
  · rw [hkeeps.get?_eq_some hkey] at hkept
    rw [← Option.some.inj hkept] at hp
    exact (mem_partitions.mp hp).positive
  · rw [hkeeps.get?_eq_none hkey] at hkept
    cases hkept

/-! ## Leads that do not pass, and leads that do -/

theorem serve_of_nil_mem (s : Session) {lead : Shape} (newAdjacency : Bool) (h : [] ∈ lead) :
    s.serve (.follows lead newAdjacency) = (.ok (.shapes []), { s with log := [] }) := by
  have hempty := lead.any_isEmpty_iff.mpr h
  simp only [serve, Request.run, Caching.follows, hempty, if_true]
  rfl

theorem serve_of_lt_one (s : Session) {lead : Shape} (newAdjacency : Bool) (hnonempty : [] ∉ lead)
    (h : ∃ r ∈ lead, ∃ v ∈ r, v < 1) :
    s.serve (.follows lead newAdjacency) = (.error .tupleSize, { s with log := [] }) := by
  have hempty : ¬ lead.any List.isEmpty = true := fun e => hnonempty (lead.any_isEmpty_iff.mp e)
  have hsmall := lead.any_lt_one_iff.mpr h
  simp only [serve, Request.run, Caching.follows, hempty, hsmall, if_true, Bool.false_eq_true, if_false]
  rfl

/-- A lead is answered with shapes, whatever a session with positive partitions keeps. -/
theorem exists_serve_eq_ok {s : Session} (hs : s.Positive) {lead : Shape} (newAdjacency : Bool) (hlead : lead.IsLead) :
    ∃ shapes after, s.serve (.follows lead newAdjacency) = (.ok (.shapes shapes), after) := by
  obtain ⟨shapes, after, hrun, -, -⟩ := Caching.passes_follows hlead newAdjacency { s with log := [] } hs
  refine ⟨shapes, after, ?_⟩
  rw [serve, Request.run, ExceptT.run_map, StateT.run_map, hrun]
  rfl

end Session

end Tractor
