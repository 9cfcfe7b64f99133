/-
  Tractor.Proofs.Memo.Yields — work with the tables gives what the listings give.

  `Caching.Yields b x r b' log`: in every session with ledger `b` the work `x` gives `r`,
  leaves the ledger `b'` and adds `log` to what is noted. Work that is put together yields
  what its parts yield (`Yields.bind`, `Yields.map`, `Yields.mapM_cons`), and a look-up
  yields the kept value or what its build yields (`Yields.remember_hit`,
  `Yields.remember_miss`).

  - `yields_partitions`, `yields_clusterings`: smaller listings are recorded first, so the
    keys that were missing are stored from small to large.
  - `yields_decompositions`: the widest partition settles how many clusterings are built.
  - `yields_run`, `Session.Holds.serve`: each request yields its answer.
-/

import Tractor.Proofs.Memo.Ledger
import Tractor.Proofs.Shape.Decomposition

namespace Tractor

namespace Session

variable {α : Type} {s : Session} {slot : Slot α} {key : Int}

theorem record_of_kept {old : α} (h : (slot.read s).get? key = some old) (v : α) :
    s.record slot key v = (old, s) := by
  simp [record, Memo.record, h]

theorem record_of_absent (h : (slot.read s).get? key = none) (v : α) :
    s.record slot key v =
      (v, (slot.write s ⟨(slot.read s).entries.insert key (some v)⟩).note (.stored slot.table key)) := by
  simp [record, Memo.record, h]

end Session

namespace Caching

/-! ## Running -/

section

variable {α β : Type} {s s₁ : Session}

theorem run_bind_ok {x : Caching α} {f : α → Caching β} {a : α} (h : x.run.run s = (.ok a, s₁)) :
    (x >>= f).run.run s = (f a).run.run s₁ := by
  rw [ExceptT.run_bind, StateT.run_bind, h]
  rfl

theorem run_remember_hit {slot : Slot α} {key : Int} {build : Caching α} {v : α}
    (h : (slot.read s).get? key = some v) : (remember slot key build).run.run s = (.ok v, s) := by
  rw [remember, run_bind_ok (x := get) (s := s) rfl, h]
  rfl

/-- A value that was not kept is built and recorded. -/
theorem run_remember_build {slot : Slot α} {key : Int} {build : Caching α} {v : α}
    (h : (slot.read s).get? key = none) (hb : build.run.run s = (.ok v, s₁)) :
    (remember slot key build).run.run s = (.ok (s₁.record slot key v).1, (s₁.record slot key v).2) := by
  rw [remember, run_bind_ok (x := get) (s := s) rfl, h]
  show (build >>= fun v => modifyGet fun s => s.record slot key v).run.run s = _
  rw [run_bind_ok hb]
  rfl

/-- A value that was not kept is built and, if it is still not there, stored. -/
theorem run_remember_miss {slot : Slot α} {key : Int} {build : Caching α} {v : α}
    (h : (slot.read s).get? key = none) (hb : build.run.run s = (.ok v, s₁)) (h₁ : (slot.read s₁).get? key = none) :
    (remember slot key build).run.run s =
      (.ok v, (slot.write s₁ ⟨(slot.read s₁).entries.insert key (some v)⟩).note (.stored slot.table key)) := by
  rw [run_remember_build h hb, Session.record_of_absent h₁]

end

def Yields {α : Type} (b : Ledger) (x : Caching α) (r : Except Fault α) (b' : Ledger) (log : List Event) : Prop :=
  ∀ s : Session, s.Holds b → ∃ s', x.run.run s = (r, s') ∧ s'.Holds b' ∧ s'.log = s.log ++ log

namespace Yields

variable {α β : Type} {b b₁ b₂ : Ledger} {log log₁ log₂ : List Event}

theorem pure (b : Ledger) (a : α) : Yields b (pure a) (.ok a) b [] :=
  fun s hs => ⟨s, rfl, hs, (List.append_nil _).symm⟩

theorem refuse (b : Ledger) (e : Fault) : Yields b (throw e : Caching α) (.error e) b [] :=
  fun s hs => ⟨s, rfl, hs, (List.append_nil _).symm⟩

theorem note (b : Ledger) (e : Event) (a : α) :
    Yields b (do modify fun s => s.note e; Pure.pure a) (.ok a) b [e] :=
  fun s hs => ⟨s.note e, rfl, hs.note e, rfl⟩

theorem bind {x : Caching α} {f : α → Caching β} {a : α} {r : Except Fault β} (hx : Yields b x (.ok a) b₁ log₁)
    (hf : Yields b₁ (f a) r b₂ log₂) : Yields b (x >>= f) r b₂ (log₁ ++ log₂) := by
  intro s hs
  obtain ⟨s₁, hrun₁, hs₁, hlog₁⟩ := hx s hs
  obtain ⟨s₂, hrun₂, hs₂, hlog₂⟩ := hf s₁ hs₁
  refine ⟨s₂, ?_, hs₂, ?_⟩
  · rw [run_bind_ok hrun₁, hrun₂]
  · rw [hlog₂, hlog₁, List.append_assoc]

theorem map {x : Caching α} {r : Except Fault α} (f : α → β) (hx : Yields b x r b₁ log) :
    Yields b (f <$> x) (r.map f) b₁ log := by
  intro s hs
  obtain ⟨s₁, hrun, hs₁, hlog⟩ := hx s hs
  refine ⟨s₁, ?_, hs₁, hlog⟩
  rw [ExceptT.run_map, StateT.run_map, hrun]
  rfl

theorem bind_pure {x : Caching α} {r : Except Fault α} (f : α → β) (hx : Yields b x r b₁ log) :
    Yields b (do let a ← x; return f a) (r.map f) b₁ log := by
  have h := hx.map f
  rwa [map_eq_pure_bind] at h

theorem mapM_cons {f : α → Caching β} {a : α} {as : List α} {c : β} {cs : List β} (hx : Yields b (f a) (.ok c) b₁ log₁)
    (hxs : Yields b₁ (as.mapM f) (.ok cs) b₂ log₂) :
    Yields b ((a :: as).mapM f) (.ok (c :: cs)) b₂ (log₁ ++ log₂) := by
  rw [List.mapM_cons]
  exact hx.bind (hxs.bind_pure (c :: ·))

theorem remember_hit {slot : Slot α} {key : Int} {build : Caching α} {v : α}
    (h : ∀ s : Session, s.Holds b → (slot.read s).get? key = some v) :
    Yields b (remember slot key build) (.ok v) b [] :=
  fun s hs => ⟨s, run_remember_hit (h s hs), hs, (List.append_nil _).symm⟩

theorem remember_miss {slot : Slot α} {key : Int} {build : Caching α} {v : α} (hbuild : Yields b build (.ok v) b₁ log)
    (hmiss : ∀ s : Session, s.Holds b → (slot.read s).get? key = none)
    (hmiss₁ : ∀ s : Session, s.Holds b₁ → (slot.read s).get? key = none)
    (hstore : ∀ s : Session, s.Holds b₁ → (slot.write s ⟨(slot.read s).entries.insert key (some v)⟩).Holds b₂ ∧
      (slot.write s ⟨(slot.read s).entries.insert key (some v)⟩).log = s.log) :
    Yields b (remember slot key build) (.ok v) b₂ (log ++ [.stored slot.table key]) := by
  intro s hs
  obtain ⟨s₁, hrun, hs₁, hlog⟩ := hbuild s hs
  obtain ⟨hs₂, hlog₂⟩ := hstore s₁ hs₁
  refine ⟨_, run_remember_miss (hmiss s hs) hrun (hmiss₁ s₁ hs₁), hs₂.note _, ?_⟩
  rw [Session.note, hlog₂, hlog, List.append_assoc]

end Yields

/-! ## The listings -/

theorem partitions_one : Caching.partitions 1 = remember .partitions 1 (pure (Partition.next [[]])) := by
  rw [Caching.partitions, if_neg (by decide), if_pos rfl]
  rfl

theorem partitions_succ {n : Nat} (hn : 1 ≤ n) :
    Caching.partitions (n + 1 : Nat) = remember .partitions (n + 1 : Nat) do
      let smaller ← Caching.partitions n
      return Partition.next smaller := by
  rw [Caching.partitions, if_neg (by omega), if_neg (by omega), show ((n + 1 : Nat) : Int) - 1 = n by omega]

theorem yields_partitions (b : Ledger) {n : Nat} (hn : 1 ≤ n) :
    Yields b (Caching.partitions n) (.ok (Tractor.partitions n)) (b.addPartitions n)
      (Ledger.storedUpTo .partitions b.partitions n) := by
  induction n with
  | zero => omega
  | succ n ih =>
    obtain ⟨build, hbuilt, hbuild⟩ : ∃ build, Caching.partitions (n + 1 : Nat) = remember .partitions (n + 1 : Nat) build ∧
        Yields b build (.ok (Tractor.partitions (n + 1))) (b.addPartitions n)
          (Ledger.storedUpTo .partitions b.partitions n) := by
      by_cases h0 : n = 0
      · subst h0
        rw [Ledger.addPartitions_zero, Ledger.storedUpTo_zero]
        exact ⟨_, partitions_one, .pure b _⟩
      · exact ⟨_, partitions_succ (by omega), (ih (by omega)).bind_pure Partition.next⟩
    rw [hbuilt]
    by_cases hkept : n + 1 ≤ b.partitions
    · rw [Ledger.addPartitions_of_le hkept, Ledger.storedUpTo_of_le _ hkept]
      exact .remember_hit fun s hs => hs.partitions.get?_eq_some ⟨by omega, by omega⟩
    · rw [Ledger.storedUpTo_succ _ (by omega)]
      refine .remember_miss hbuild (fun s hs => hs.partitions.get?_eq_none (by omega))
        (fun s hs => hs.partitions.get?_eq_none ?_) fun s hs => ⟨hs.store_partitions (by omega), rfl⟩
      simp only [Ledger.addPartitions]
      omega

theorem clusterings_succ {n : Nat} (hn : 1 ≤ n) :
    Caching.clusterings (n + 1 : Nat) = remember .clusterings (n + 1 : Nat) do
      let smaller ← Caching.clusterings n
      return Clustering.next n smaller := by
  rw [Caching.clusterings, if_neg (by omega), if_neg (by omega), show ((n + 1 : Nat) : Int) - 1 = n by omega]
  rfl

theorem yields_clusterings (b : Ledger) {n : Nat} (hn : 1 ≤ n) :
    Yields b (Caching.clusterings n) (.ok (Tractor.clusterings n)) (b.addClusterings n)
      (Ledger.storedUpTo .clusterings b.clusterings n) := by
  induction n with
  | zero => omega
  | succ n ih =>
    by_cases h0 : n = 0
    · -- the one clustering of a single position is neither looked up nor recorded
      subst h0
      have hone : Tractor.clusterings 1 = [[[0]]] := by
        simp [Tractor.clusterings, Clustering.next, Clustering.extended, Clustering.placements, List.eraseReps,
          List.eraseRepsBy, List.eraseRepsBy.loop]
      rw [Ledger.addClusterings_of_le b.one_le, Ledger.storedUpTo_of_le _ b.one_le, hone, Caching.clusterings]
      exact .pure b _
    · have hbuild := (ih (by omega)).bind_pure (Clustering.next n)
      rw [clusterings_succ (by omega)]
      by_cases hkept : n + 1 ≤ b.clusterings
      · rw [Ledger.addClusterings_of_le hkept, Ledger.storedUpTo_of_le _ hkept]
        exact .remember_hit fun s hs => hs.clusterings.get?_eq_some ⟨by omega, by omega⟩
      · rw [Ledger.storedUpTo_succ _ (by omega)]
        refine .remember_miss hbuild (fun s hs => hs.clusterings.get?_eq_none (by omega))
          (fun s hs => hs.clusterings.get?_eq_none ?_) fun s hs => ⟨hs.store_clusterings (by omega), rfl⟩
        simp only [Ledger.addClusterings]
        omega

theorem yields_layouts (b : Ledger) {values : Run} (hne : values ≠ []) (hvalues : ¬ values.any (· ≤ 1) = true) :
    Yields b (Caching.layouts values) (.ok (Tractor.layouts values)) (b.addClusterings values.length)
      (Ledger.storedUpTo .clusterings b.clusterings values.length) := by
  unfold Caching.layouts
  rw [if_neg (by rwa [List.isEmpty_iff]), if_neg hvalues]
  exact (yields_clusterings b (List.length_pos_iff.mpr hne)).bind_pure fun cs => layoutsOver cs values

theorem yields_ofPartition (b : Ledger) {n : Nat} {p : Run} (hp : IsPartition n p) :
    Yields b (Caching.ofPartition p) (.ok (Decomposition.ofPartition p)) (b.addClusterings (Decomposition.large p).length)
      (Ledger.storedUpTo .clusterings b.clusterings (Decomposition.large p).length) := by
  unfold Caching.ofPartition Decomposition.ofPartition
  by_cases hnil : Decomposition.large p = []
  · simp only [hnil, List.isEmpty_nil, if_true, List.length_nil, Ledger.addClusterings_zero, Ledger.storedUpTo_zero]
    exact .pure b _
  · have hvalues : ¬ (Decomposition.large p).any (· ≤ 1) = true := by
      simp only [List.any_eq_true, decide_eq_true_eq, not_exists, not_and]
      intro v hv
      have := Decomposition.two_le_of_mem_large hp v hv
      omega
    rw [if_neg (by rwa [List.isEmpty_iff]), if_neg (by rwa [List.isEmpty_iff])]
    exact (yields_layouts b hnil hvalues).bind_pure (Decomposition.withSingles p)

/-- Over the partitions one after another, the widest of them settles which clusterings
    are built. -/
theorem yields_mapM_ofPartition (b : Ledger) {n : Nat} {ps : List Run} (hps : ∀ p ∈ ps, IsPartition n p) :
    Yields b (ps.mapM Caching.ofPartition) (.ok (ps.map Decomposition.ofPartition))
      (b.addClusterings (Decomposition.widest ps))
      (Ledger.storedUpTo .clusterings b.clusterings (Decomposition.widest ps)) := by
  induction ps generalizing b with
  | nil =>
    rw [Decomposition.widest, Ledger.addClusterings_zero, Ledger.storedUpTo_zero]
    exact .pure b _
  | cons p ps ih =>
    rw [List.forall_mem_cons] at hps
    have h := (yields_ofPartition b hps.1).mapM_cons (ih (b.addClusterings _) hps.2)
    rw [Ledger.addClusterings_addClusterings] at h
    rw [Decomposition.widest, ← Ledger.storedUpTo_append]
    exact h

/-- The shapes of `n` cards are built from the partitions of `n` cards, whose larger tuples
    need the clusterings of up to `n / 2` positions. -/
theorem yields_decompositions (b : Ledger) {n : Int} (hn : 1 ≤ n) :
    Yields b (Caching.decompositions n) (.ok (Tractor.decompositions n.toNat)) (b.ask n) (b.notes n) := by
  obtain ⟨m, rfl⟩ := Int.eq_ofNat_of_zero_le (a := n) (by omega)
  rw [Caching.decompositions, if_neg (by omega), Ledger.ask, Ledger.notes, Int.toNat_natCast]
  by_cases hkept : (m : Int) ∈ b.decompositions
  · rw [if_pos hkept, if_pos hkept]
    exact .remember_hit fun s hs => hs.decompositions.get?_eq_some ⟨hn, hkept⟩
  · rw [if_neg hkept, if_neg hkept]
    have hps := yields_partitions b (n := m) (by omega)
    have hparts : ∀ p ∈ Tractor.partitions m, IsPartition m p := fun p hp => mem_partitions.mp hp
    have hlisted := yields_mapM_ofPartition (b.addPartitions m) hparts
    rw [Decomposition.widest_partitions] at hlisted
    have hnote := Yields.note ((b.addPartitions m).addClusterings (m / 2)) (.built (Tractor.decompositions m).length m)
      (Tractor.decompositions m)
    have hbuild := hps.bind (f := fun ps => do
      let listed ← ps.mapM Caching.ofPartition
      let shapes := Shape.distinct listed.flatten
      modify fun s => s.note (.built shapes.length m)
      return shapes) (hlisted.bind hnote)
    -- partitions and clusterings were stored meanwhile, but no decompositions
    have hmiss : ∀ c : Ledger, c.decompositions = b.decompositions →
        ∀ s : Session, s.Holds c → s.decompositions.get? m = none := by
      intro c hc s hs
      exact hs.decompositions.get?_eq_none fun h => hkept (hc ▸ h.2)
    have hlog : ∀ (kept : List Event) (e f : Event), Ledger.storedUpTo .partitions b.partitions m ++ kept ++ [e, f] =
        Ledger.storedUpTo .partitions b.partitions m ++ (kept ++ [e]) ++ [f] := by simp
    rw [hlog]
    exact .remember_miss hbuild (hmiss b rfl) (hmiss _ rfl) fun s hs => ⟨hs.store_decompositions hn, rfl⟩

theorem yields_mapM_ladder (b : Ledger) {lead : Shape} (hlead : lead.IsLead) :
    Yields b (lead.mapM ladder) (.ok (Tractor.ladders lead)) (b.askAll (lead.map Run.cards))
      (b.notesAll (lead.map Run.cards)) := by
  induction lead generalizing b with
  | nil => exact .pure b _
  | cons r lead ih =>
    have hfirst := (yields_decompositions b (hlead.one_le_cards List.mem_cons_self)).bind_pure (Ladder.start r)
    obtain ⟨hne, hpos⟩ := hlead
    rw [List.forall_mem_cons] at hne hpos
    exact Yields.mapM_cons hfirst (ih (b.ask r.cards) ⟨hne.2, hpos.2⟩)

theorem yields_follows (b : Ledger) {lead : Shape} (newAdjacency : Bool) (hlead : lead.IsLead) :
    Yields b (Caching.follows lead newAdjacency) (.ok (Tractor.follows lead newAdjacency))
      (b.askAll (lead.map Run.cards)) (b.notesAll (lead.map Run.cards)) := by
  obtain ⟨hnonempty, hpositive⟩ := lead.isLead_iff.mp hlead
  unfold Caching.follows
  rw [hnonempty, hpositive]
  exact (yields_mapM_ladder b hlead).bind_pure (Ladder.emissions newAdjacency)

/-! ## Requests -/

theorem yields_listPartitions (b : Ledger) (n : Int) :
    Yields b (Caching.partitions n) (listPartitions n) (b.addPartitions n.toNat)
      (Ledger.storedUpTo .partitions b.partitions n.toNat) := by
  by_cases hn : n < 1
  · rw [Caching.partitions, listPartitions, if_pos hn, if_pos hn, Int.toNat_of_nonpos (by omega),
      Ledger.addPartitions_zero, Ledger.storedUpTo_zero]
    exact .refuse b _
  · have h := yields_partitions b (n := n.toNat) (by omega)
    rw [Int.toNat_of_nonneg (by omega)] at h
    rw [listPartitions, if_neg hn]
    exact h

theorem yields_listClusterings (b : Ledger) (k : Int) :
    Yields b (Caching.clusterings k) (listClusterings k) (b.addClusterings k.toNat)
      (Ledger.storedUpTo .clusterings b.clusterings k.toNat) := by
  by_cases hk : k < 1
  · rw [Caching.clusterings, listClusterings, if_pos hk, if_pos hk, Int.toNat_of_nonpos (by omega),
      Ledger.addClusterings_zero, Ledger.storedUpTo_zero]
    exact .refuse b _
  · have h := yields_clusterings b (n := k.toNat) (by omega)
    rw [Int.toNat_of_nonneg (by omega)] at h
    rw [listClusterings, if_neg hk]
    exact h

theorem yields_listLayouts (b : Ledger) (values : Run) :
    Yields b (Caching.layouts values) (listLayouts values) (b.after (.layouts values)) (b.noted (.layouts values)) := by
  unfold listLayouts Ledger.after Ledger.noted
  by_cases hnil : values = []
  · subst hnil
    simp only [List.any_nil, Bool.false_eq_true, if_false, List.length_nil, Ledger.addClusterings_zero,
      Ledger.storedUpTo_zero]
    exact .refuse b _
  · rw [if_neg (by rwa [List.isEmpty_iff])]
    by_cases hany : values.any (· ≤ 1) = true
    · simp only [if_pos hany]
      rw [Caching.layouts, if_neg (by rwa [List.isEmpty_iff]), if_pos hany]
      exact .refuse b _
    · simp only [if_neg hany]
      exact yields_layouts b hnil hany

theorem yields_listDecompositions (b : Ledger) (n : Int) :
    Yields b (Caching.decompositions n) (listDecompositions n) (b.after (.decompositions n))
      (b.noted (.decompositions n)) := by
  unfold listDecompositions Ledger.after Ledger.noted
  by_cases hn : n < 1
  · simp only [if_pos hn, Caching.decompositions]
    exact .refuse b _
  · simp only [if_neg hn]
    exact yields_decompositions b (by omega)

theorem yields_listFollows (b : Ledger) (lead : Shape) (newAdjacency : Bool) :
    Yields b (Caching.follows lead newAdjacency) (listFollows lead newAdjacency) (b.after (.follows lead newAdjacency))
      (b.noted (.follows lead newAdjacency)) := by
  unfold Ledger.after Ledger.noted
  by_cases hlead : lead.IsLead
  · simp only [if_pos hlead, listFollows_eq hlead]
    exact yields_follows b newAdjacency hlead
  · simp only [if_neg hlead]
    unfold listFollows Caching.follows
    split
    · exact .pure b _
    · rename_i hnonempty
      split
      · exact .refuse b _
      · rename_i hpositive
        exact absurd (lead.isLead_iff.mpr ⟨Bool.eq_false_iff.mpr hnonempty, Bool.eq_false_iff.mpr hpositive⟩) hlead

theorem yields_clear (b : Ledger) (table : Table) :
    Yields b (Request.clear table).run (.ok .cleared) (b.after (.clear table)) [] := by
  intro s hs
  refine ⟨s.clear table, rfl, ?_, ?_⟩
  · cases table with
    | partitions => exact ⟨Memo.keeps_empty _ fun k => by simp only [Ledger.after]; omega, hs.clusterings, hs.decompositions⟩
    | clusterings => exact ⟨hs.partitions, Memo.keeps_empty _ fun k => by simp only [Ledger.after]; omega, hs.decompositions⟩
    | decompositions => exact ⟨hs.partitions, hs.clusterings, Memo.keeps_empty _ fun k => by simp [Ledger.after]⟩
  · cases table <;> exact (List.append_nil _).symm

/-- A request that does not get past its checks gives its refusal and touches no table. -/
theorem yields_run (b : Ledger) (q : Request) : Yields b q.run q.answer (b.after q) (b.noted q) := by
  cases q with
  | partitions n => exact (yields_listPartitions b n).map _
  | clusterings k => exact (yields_listClusterings b k).map _
  | layouts values => exact (yields_listLayouts b values).map _
  | decompositions n => exact (yields_listDecompositions b n).map _
  | follows lead newAdjacency => exact (yields_listFollows b lead newAdjacency).map _
  | clear table => exact yields_clear b table

end Caching

/-- A session that holds to its ledger answers as if it had no tables, holds to the ledger
    of the request after it, and notes what the ledger says. -/
theorem Session.Holds.serve {s : Session} {b : Ledger} (h : s.Holds b) (q : Request) :
    (s.serve q).1 = q.answer ∧ (s.serve q).2.Holds (b.after q) ∧ (s.serve q).2.log = b.noted q := by
  obtain ⟨s', hrun, hs', hlog⟩ := Caching.yields_run b q { s with log := [] } ⟨h.partitions, h.clusterings, h.decompositions⟩
  unfold Session.serve
  rw [hrun]
  exact ⟨rfl, hs', hlog⟩

end Tractor
