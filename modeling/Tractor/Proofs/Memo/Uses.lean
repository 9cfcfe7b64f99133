/-
  Tractor.Proofs.Memo.Uses — a table under any uses.

  A table starts without entries and is used in any order (`Memo.after`). What it then
  answers depends only on what was recorded since it was emptied last (`Memo.recorded`):
  for each key the first value that was recorded counts, and a record without a value
  counts for the presence of its key only.

  - `Memo.Reflects`: the entries are those of what was recorded; each use keeps it
    (`reflects_apply`), so it holds after any uses (`reflects_after`).
  - `Memo.uses_by_history`: the reply to each use and what it notes.
-/

import Mathlib.Data.Finset.Card
import Mathlib.Data.List.DropRight
import Tractor.Memo.Table

namespace Tractor

namespace Memo

variable {α : Type}

/-! ## What was recorded -/

def Op.isClear : Op α → Bool
  | clear => true
  | _ => false

def Op.entry? : Op α → Option (Int × Option α)
  | record key value => some (key, value)
  | _ => none

def recorded (ops : List (Op α)) : List (Int × Option α) := (ops.rtakeWhile fun op => !op.isClear).filterMap Op.entry?

def valuesOf (history : List (Int × Option α)) (key : Int) : List α :=
  history.filterMap fun r => if r.1 = key then r.2 else none

def keysOf (history : List (Int × Option α)) : List Int := history.map Prod.fst

theorem recorded_concat (ops : List (Op α)) (op : Op α) :
    recorded (ops ++ [op]) = if op.isClear then [] else recorded ops ++ op.entry?.toList := by
  unfold recorded
  rw [List.rtakeWhile_concat]
  cases op <;> simp [Op.isClear, Op.entry?]

theorem valuesOf_concat (history : List (Int × Option α)) (key : Int) (value : Option α) (k : Int) :
    valuesOf (history ++ [(key, value)]) k = valuesOf history k ++ if key = k then value.toList else [] := by
  unfold valuesOf
  rw [List.filterMap_append]
  by_cases h : key = k
  · cases value <;> simp [h]
  · simp [h]

theorem mem_keysOf_concat {history : List (Int × Option α)} {key k : Int} {value : Option α} :
    k ∈ keysOf (history ++ [(key, value)]) ↔ k ∈ keysOf history ∨ k = key := by
  simp [keysOf]

theorem mem_keysOf_of_valuesOf {history : List (Int × Option α)} {key : Int} {v : α}
    (h : (valuesOf history key).head? = some v) : key ∈ keysOf history := by
  obtain ⟨r, hr, hv⟩ := List.mem_filterMap.mp (List.mem_of_head? h)
  by_cases hk : r.1 = key
  · exact List.mem_map.mpr ⟨r, hr, hk⟩
  · simp [hk] at hv

/-! ## The entries -/

def Reflects (m : Memo α) (history : List (Int × Option α)) : Prop :=
  ∀ k, m.entries[k]? = if k ∈ keysOf history then some (valuesOf history k).head? else none

theorem reflects_empty : (empty : Memo α).Reflects [] := by
  intro k
  simp [empty, keysOf]

namespace Reflects

variable {m : Memo α} {history : List (Int × Option α)} (h : m.Reflects history)
include h

theorem get?_eq (key : Int) : m.get? key = (valuesOf history key).head? := by
  rw [get?, h key]
  split
  · rfl
  · rename_i hk
    cases hv : (valuesOf history key).head? with
    | none => rfl
    | some v => exact absurd (mem_keysOf_of_valuesOf hv) hk

theorem contains_eq (key : Int) : m.contains key = decide (key ∈ keysOf history) := by
  rw [contains, Std.TreeMap.contains_eq_isSome_getElem?, h key]
  by_cases hk : key ∈ keysOf history <;> simp [hk]

theorem size_eq : m.size = (keysOf history).toFinset.card := by
  have hmem : m.entries.keys.toFinset = (keysOf history).toFinset := by
    ext k
    have hk : m.entries.contains k = decide (k ∈ keysOf history) := h.contains_eq k
    rw [List.mem_toFinset, List.mem_toFinset, Std.TreeMap.mem_keys, Std.TreeMap.mem_iff_contains, hk,
      decide_eq_true_iff]
  have hnodup : m.entries.keys.Nodup := Std.TreeMap.nodup_keys
  rw [← hmem, List.toFinset_card_of_nodup hnodup, Std.TreeMap.length_keys]
  rfl

/-- A record keeps to what was recorded with it. -/
theorem record (key : Int) (value : Option α) : (m.record key value).2.1.Reflects (history ++ [(key, value)]) := by
  intro k
  have hget := h.get?_eq key
  rw [valuesOf_concat]
  cases hold : m.get? key with
  | some old =>
    -- nothing is stored: the value that is there was recorded earlier
    rw [hold] at hget
    have hkey := mem_keysOf_of_valuesOf hget.symm
    simp only [Memo.record, hold, h k, mem_keysOf_concat, List.head?_append]
    by_cases hk : k = key
    · subst hk
      simp [hkey, ← hget]
    · simp [hk, Ne.symm hk]
  | none =>
    rw [hold] at hget
    simp only [Memo.record, hold, Std.TreeMap.getElem?_insert, mem_keysOf_concat, List.head?_append]
    by_cases hk : k = key
    · subst hk
      cases value <;> simp [← hget]
    · simp [hk, Ne.symm hk, h k]

end Reflects

/-- What is recorded after one more use of a table is what the table then keeps. -/
theorem reflects_apply {m : Memo α} {ops : List (Op α)} (h : m.Reflects (recorded ops)) (op : Op α) :
    (m.apply op).2.1.Reflects (recorded (ops ++ [op])) := by
  rw [recorded_concat]
  cases op with
  | record key value => exact h.record key value
  | clear => exact reflects_empty
  | get key => simpa [apply, Op.isClear, Op.entry?] using h
  | contains key => simpa [apply, Op.isClear, Op.entry?] using h
  | size => simpa [apply, Op.isClear, Op.entry?] using h

/-! ## Any uses -/

def after (ops : List (Op α)) : Memo α := ops.foldl (fun m op => (m.apply op).2.1) .empty

def notes (name : String) (m : Memo α) (op : Op α) : List String := (m.apply op).2.2.map (storedMessage name)

theorem reflects_after (ops : List (Op α)) : (after ops).Reflects (recorded ops) := by
  induction ops using List.reverseRecOn with
  | nil => exact reflects_empty
  | append_singleton ops op ih =>
    unfold after
    rw [List.foldl_append]
    exact reflects_apply ih op

/-- A record stores exactly when no value was recorded for its key. -/
theorem notes_record (name : String) (ops : List (Op α)) (key : Int) (value : Option α) :
    (after ops).notes name (.record key value) =
      if valuesOf (recorded ops) key = [] then [name ++ ": cached key " ++ toString key] else [] := by
  have hget := (reflects_after ops).get?_eq key
  cases hold : (after ops).get? key with
  | none =>
    rw [hold, eq_comm, List.head?_eq_none_iff] at hget
    simp [notes, apply, record, hold, hget, storedMessage]
  | some old =>
    have hne : valuesOf (recorded ops) key ≠ [] := by
      intro hnil
      simp [hold, hnil] at hget
    simp [notes, apply, record, hold, hne]

/-- After any uses a table answers by what was recorded since it was emptied last: a look-up
    and a record by the first value of the key, presence and size by the keys. A record is
    noted exactly when its key had no value. -/
theorem uses_by_history (name : String) (ops : List (Op α)) :
    (∀ key, ((after ops).apply (.get key)).1 = .value (valuesOf (recorded ops) key).head?) ∧
      (∀ key value, ((after ops).apply (.record key value)).1 =
        .value ((valuesOf (recorded ops) key).head?.or value)) ∧
      (∀ key, ((after ops).apply (.contains key)).1 = .present (decide (key ∈ keysOf (recorded ops)))) ∧
      ((after ops).apply .size).1 = .count (keysOf (recorded ops)).toFinset.card ∧
      ((after ops).apply .clear).1 = .cleared ∧
      ∀ op, (after ops).notes name op = match op with
        | .record key _ => if valuesOf (recorded ops) key = [] then [name ++ ": cached key " ++ toString key] else []
        | _ => [] := by
  have h := reflects_after ops
  refine ⟨fun key => ?_, fun key value => ?_, fun key => ?_, ?_, rfl, fun op => ?_⟩
  · rw [apply, h.get?_eq]
  · rw [← h.get?_eq key]
    cases hold : (after ops).get? key <;> simp [apply, record, hold]
  · rw [apply, h.contains_eq]
  · rw [apply, h.size_eq]
  · cases op with
    | record key value => exact notes_record name ops key value
    | get key => rfl
    | contains key => rfl
    | size => rfl
    | clear => rfl

end Memo

end Tractor
