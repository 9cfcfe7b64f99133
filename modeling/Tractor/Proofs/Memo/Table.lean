/-
  Tractor.Proofs.Memo.Table — a table that keeps the values of one function.

  `Memo.Keeps m P f`: the keys of `m` are those with `P`, and the value kept for a key is
  that of `f`. Then a look-up finds the value exactly for these keys (`get?_eq_some`,
  `get?_eq_none`), and one more record of a value of `f` adds its key (`insert`).
  `Memo.Faithful m listing`: whatever the keys are, what is kept is what is listed.
-/

import Tractor.Memo.Table
import Tractor.Shape.Listing

namespace Tractor

namespace Memo

variable {α : Type}

def Keeps (m : Memo α) (P : Int → Prop) (f : Int → α) : Prop := ∀ k v, m.entries[k]? = some v ↔ P k ∧ v = some (f k)

def Faithful (m : Memo α) (listing : Int → Except Fault α) : Prop :=
  ∀ k kept, m.entries[k]? = some kept → ∃ v, kept = some v ∧ listing k = .ok v

theorem keeps_empty {P : Int → Prop} (f : Int → α) (h : ∀ k, ¬ P k) : (empty : Memo α).Keeps P f := by
  intro k v
  simp [empty, h k]

namespace Keeps

variable {m : Memo α} {P : Int → Prop} {f : Int → α} {k : Int}

theorem get?_eq_some (h : m.Keeps P f) (hk : P k) : m.get? k = some (f k) := by
  rw [get?, (h k _).mpr ⟨hk, rfl⟩]
  rfl

theorem get?_eq_none (h : m.Keeps P f) (hk : ¬ P k) : m.get? k = none := by
  rw [get?]
  cases he : m.entries[k]? with
  | none => rfl
  | some v => exact absurd ((h k v).mp he).1 hk

theorem contains_iff (h : m.Keeps P f) : m.contains k = true ↔ P k := by
  rw [contains, Std.TreeMap.contains_eq_isSome_getElem?, Option.isSome_iff_exists]
  constructor
  · rintro ⟨v, hv⟩
    exact ((h k v).mp hv).1
  · intro hk
    exact ⟨_, (h k _).mpr ⟨hk, rfl⟩⟩

theorem faithful {listing : Int → Except Fault α} (h : m.Keeps P f) (hf : ∀ k, P k → listing k = .ok (f k)) :
    m.Faithful listing := by
  intro k kept hk
  obtain ⟨hP, rfl⟩ := (h k kept).mp hk
  exact ⟨f k, rfl, hf k hP⟩

theorem insert {Q : Int → Prop} (h : m.Keeps P f) (key : Int) (hQ : ∀ k, Q k ↔ k = key ∨ P k) :
    Keeps ⟨m.entries.insert key (some (f key))⟩ Q f := by
  intro k v
  rw [Std.TreeMap.getElem?_insert, hQ]
  by_cases hk : k = key
  · subst hk
    simp [eq_comm]
  · rw [if_neg (fun e => hk (Std.LawfulEqCmp.eq_of_compare e).symm), h k v]
    simp [hk]

end Keeps

end Memo

end Tractor
