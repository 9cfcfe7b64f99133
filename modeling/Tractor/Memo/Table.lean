/-
  Tractor.Memo.Table — finished results kept under integer keys.

  The first value recorded for a key stays. A record may also carry no value: the key
  then counts as present, and a later record for it still stores.

  - `Memo.get?`: the value kept for a key.
  - `Memo.record`: keeps a value unless there is one, and tells whether it stored
    (`get?_record`).
  - `Memo.apply`: one use of a table, with its reply and the keys it stored.
-/

import Std.Data.TreeMap

namespace Tractor

/-- Values kept under integer keys, in the order of the keys. -/
structure Memo (α : Type) where
  entries : Std.TreeMap Int (Option α)

namespace Memo

variable {α : Type}

def empty : Memo α := ⟨∅⟩

def get? (m : Memo α) (key : Int) : Option α := m.entries[key]?.join

/-- Whether the key was recorded, with a value or without. -/
def contains (m : Memo α) (key : Int) : Bool := m.entries.contains key

def size (m : Memo α) : Nat := m.entries.size

def keys (m : Memo α) : List Int := m.entries.keys

/-- The value that stays, the table after, and whether it stored. -/
def record (m : Memo α) (key : Int) (value : Option α) : Option α × Memo α × Bool :=
  match m.get? key with
  | some old => (some old, m, false)
  -- no value is there, though the key may be
  | none => (value, ⟨m.entries.insert key value⟩, true)

/-- A record that stores changes its own key only, and one that does not changes none. -/
theorem get?_record (m : Memo α) (key k : Int) (value : Option α) :
    (m.record key value).2.1.get? k = if k = key then (m.get? key).or value else m.get? k := by
  unfold record
  cases h : m.get? key with
  | some old => by_cases hk : k = key <;> simp_all
  | none => by_cases hk : k = key <;> simp_all [get?, Std.TreeMap.getElem?_insert, Ne.symm]

inductive Op (α : Type) where
  | get (key : Int)
  | record (key : Int) (value : Option α)
  | contains (key : Int)
  | size
  | clear
  deriving Repr

inductive Reply (α : Type) where
  | value (v : Option α)
  | present (b : Bool)
  | count (n : Nat)
  | cleared
  deriving Repr

/-- The reply to a use, the table after, and the keys it stored. -/
def apply (m : Memo α) : Op α → Reply α × Memo α × List Int
  | .get key => (.value (m.get? key), m, [])
  | .record key value =>
    let (kept, after, stored) := m.record key value
    (.value kept, after, if stored then [key] else [])
  | .contains key => (.present (m.contains key), m, [])
  | .size => (.count m.size, m, [])
  | .clear => (.cleared, empty, [])

def storedMessage (name : String) (key : Int) : String := name ++ ": cached key " ++ toString key

end Memo

end Tractor
