/-
  Tractor.Proofs.Text.Numeral — which texts are numerals, and which number each stands for.

  The digits of a numeral are one or more, of any script, with at most one underscore
  between each two (`Grouped`). A numeral is such digits, 4300 at most, and before them a
  sign or none (`IsNumeral`). Where a text has no blank these are what is read
  (`integer?_eq_some_iff`). The decimal numeral of a number is one of them, and no two
  numbers share it.

  - `integer?_decimal`: the decimal numeral of a number is read as that number.
  - `decimal_injective`: numbers with one decimal numeral are one number.
-/

import Mathlib.Data.List.Induction
import Mathlib.Data.Nat.Digits.Defs
import Tractor.Proofs.Text.Words
import Tractor.Text.Numeral

namespace Tractor.Text

/-! ## Digits in groups -/

inductive Grouped : List Char → List Nat → Prop
  | last {c : Char} {d : Nat} : digit? c = some d → Grouped [c] [d]
  | next {c : Char} {d : Nat} {cs : List Char} {ds : List Nat} :
      digit? c = some d → Grouped cs ds → Grouped (c :: cs) (d :: ds)
  | spaced {c : Char} {d : Nat} {cs : List Char} {ds : List Nat} :
      digit? c = some d → Grouped cs ds → Grouped (c :: '_' :: cs) (d :: ds)

@[simp] theorem digit?_underscore : digit? '_' = none := by decide

@[simp] theorem digits?_nil : digits? [] = none := rfl

@[simp] theorem digits?_underscore (cs : List Char) : digits? ('_' :: cs) = none := by
  simp [digits?, pieces, plainDigits?]

theorem digits?_singleton (c : Char) : digits? [c] = (digit? c).map ([·]) := by
  by_cases hc : c = '_'
  · subst hc
    rfl
  · cases hd : digit? c <;> simp [digits?, pieces, plainDigits?, hc, hd]

theorem digits?_cons_underscore (c : Char) (cs : List Char) :
    digits? (c :: '_' :: cs) = (digit? c).bind fun d => (digits? cs).map (d :: ·) := by
  by_cases hc : c = '_'
  · subst hc
    simp
  · cases hd : digit? c with
    | none => simp [digits?, pieces, plainDigits?, hc, hd]
    | some d =>
      cases hrest : (pieces (· == '_') cs).mapM plainDigits? <;>
        simp [digits?, pieces, plainDigits?, hc, hd, hrest]

/-- Where no underscore comes between them, a digit is of one group with the next. -/
theorem digits?_cons_cons (c : Char) {x : Char} (hx : x ≠ '_') (cs : List Char) :
    digits? (c :: x :: cs) = (digit? c).bind fun d => (digits? (x :: cs)).map (d :: ·) := by
  by_cases hc : c = '_'
  · subst hc
    simp
  · obtain ⟨p, ps, hpieces⟩ := exists_pieces_eq_cons (· == '_') cs
    cases hd : digit? c with
    | none => simp [digits?, pieces, plainDigits?, hc, hx, hpieces, hd]
    | some d =>
      cases he : digit? x with
      | none => simp [digits?, pieces, plainDigits?, hc, hx, hpieces, hd, he]
      | some e =>
        cases hp : p.mapM digit? with
        | none => simp [digits?, pieces, plainDigits?, hc, hx, hpieces, hd, he, hp]
        | some values =>
          cases hps : ps.mapM plainDigits? <;>
            simp [digits?, pieces, plainDigits?, hc, hx, hpieces, hd, he, hp, hps]

theorem Grouped.exists_eq_cons {cs : List Char} {ds : List Nat} (h : Grouped cs ds) :
    ∃ c rest, cs = c :: rest ∧ (digit? c).isSome = true := by
  cases h with
  | last hd | next hd _ | spaced hd _ => exact ⟨_, _, rfl, by simp [hd]⟩

theorem grouped_of_digits? : ∀ {cs : List Char} {ds : List Nat}, digits? cs = some ds → Grouped cs ds
  | [], ds, h => by simp at h
  | [c], ds, h => by
    rw [digits?_singleton, Option.map_eq_some_iff] at h
    obtain ⟨d, hd, rfl⟩ := h
    exact .last hd
  | c :: x :: cs, ds, h => by
    by_cases hx : x = '_'
    · subst hx
      rw [digits?_cons_underscore] at h
      obtain ⟨d, hd, h⟩ := Option.bind_eq_some_iff.mp h
      obtain ⟨rest, hrest, rfl⟩ := Option.map_eq_some_iff.mp h
      exact .spaced hd (grouped_of_digits? hrest)
    · rw [digits?_cons_cons c hx] at h
      obtain ⟨d, hd, h⟩ := Option.bind_eq_some_iff.mp h
      obtain ⟨rest, hrest, rfl⟩ := Option.map_eq_some_iff.mp h
      exact .next hd (grouped_of_digits? hrest)

theorem Grouped.digits?_eq {cs : List Char} {ds : List Nat} (h : Grouped cs ds) : digits? cs = some ds := by
  induction h with
  | last hd => simp [digits?_singleton, hd]
  | @next c d cs ds hd hrest ih =>
    obtain ⟨x, cs, rfl, hx⟩ := hrest.exists_eq_cons
    have hne : x ≠ '_' := by
      intro e
      simp [e] at hx
    simp [digits?_cons_cons c hne, hd, ih]
  | spaced hd _ ih => simp [digits?_cons_underscore, hd, ih]

theorem digits?_eq_some_iff {cs : List Char} {ds : List Nat} : digits? cs = some ds ↔ Grouped cs ds :=
  ⟨grouped_of_digits?, Grouped.digits?_eq⟩

/-! ## Numerals -/

/-- A sign or none, and 4300 digits at most, with at most one underscore between each two. -/
inductive IsNumeral : List Char → Int → Prop
  | unsigned {cs : List Char} {ds : List Nat} :
      Grouped cs ds → ds.length ≤ 4300 → IsNumeral cs (Nat.ofDigits 10 ds.reverse : Nat)
  | plus {cs : List Char} {ds : List Nat} :
      Grouped cs ds → ds.length ≤ 4300 → IsNumeral ('+' :: cs) (Nat.ofDigits 10 ds.reverse : Nat)
  | minus {cs : List Char} {ds : List Nat} :
      Grouped cs ds → ds.length ≤ 4300 → IsNumeral ('-' :: cs) (-(Nat.ofDigits 10 ds.reverse : Nat))

theorem ofDigits_eq (ds : List Nat) : ofDigits ds = Nat.ofDigits 10 ds.reverse := by
  induction ds using List.reverseRecOn with
  | nil => rfl
  | append_singleton ds d ih =>
    rw [List.reverse_append, List.reverse_singleton, List.singleton_append, Nat.ofDigits_cons, ← ih]
    simp [ofDigits, Nat.add_comm]

theorem natural?_eq_some_iff {cs : List Char} {n : Nat} :
    natural? cs = some n ↔ ∃ ds, Grouped cs ds ∧ ds.length ≤ 4300 ∧ Nat.ofDigits 10 ds.reverse = n := by
  unfold natural? maxDigits
  simp only [Option.bind_eq_some_iff, digits?_eq_some_iff, Option.ite_none_right_eq_some, Option.some.injEq, ofDigits_eq]

/-- A digit in front is no sign. -/
theorem signed?_of_isSome {c : Char} (hc : (digit? c).isSome = true) (cs : List Char) :
    signed? (c :: cs) = (natural? (c :: cs)).map Int.ofNat := by
  unfold signed?
  split
  · rename_i h
    obtain ⟨rfl, -⟩ := List.cons.inj h
    exact absurd hc (by decide)
  · rename_i h
    obtain ⟨rfl, -⟩ := List.cons.inj h
    exact absurd hc (by decide)
  · rfl

theorem isNumeral_of_signed? {cs : List Char} {v : Int} (h : signed? cs = some v) : IsNumeral cs v := by
  unfold signed? at h
  split at h
  all_goals
    obtain ⟨n, hn, rfl⟩ := Option.map_eq_some_iff.mp h
    obtain ⟨ds, hds, hlength, rfl⟩ := natural?_eq_some_iff.mp hn
  · exact .plus hds hlength
  · exact .minus hds hlength
  · exact .unsigned hds hlength

theorem IsNumeral.signed?_eq {cs : List Char} {v : Int} (h : IsNumeral cs v) : signed? cs = some v := by
  cases h with
  | unsigned hds hlength =>
    obtain ⟨c, rest, rfl, hc⟩ := hds.exists_eq_cons
    rw [signed?_of_isSome hc, natural?_eq_some_iff.mpr ⟨_, hds, hlength, rfl⟩]
    rfl
  | plus hds hlength =>
    simp only [signed?]
    rw [natural?_eq_some_iff.mpr ⟨_, hds, hlength, rfl⟩]
    rfl
  | minus hds hlength =>
    simp only [signed?]
    rw [natural?_eq_some_iff.mpr ⟨_, hds, hlength, rfl⟩]
    rfl

theorem integer?_eq_some_iff {cs : List Char} {v : Int} (h : ∀ c ∈ cs, isBlank c = false) :
    integer? cs = some v ↔ IsNumeral cs v := by
  have hpadding : ∀ c ∈ cs, isPadding c = false := by
    intro c hc
    simp [isPadding, h c hc]
  unfold integer?
  rw [trim_eq_self hpadding]
  exact ⟨isNumeral_of_signed?, IsNumeral.signed?_eq⟩

/-! ## Decimal numerals -/

theorem toNat_of_isDigit {c : Char} (h : c.isDigit = true) : 48 ≤ c.toNat ∧ c.toNat ≤ 57 := by
  simpa [Char.isDigit, UInt32.le_iff_toNat_le] using h

theorem digit?_of_isDigit {c : Char} (h : c.isDigit = true) : digit? c = some (c.toNat - '0'.toNat) := by
  unfold digit? zeros
  rw [List.find?_cons_of_pos (by simpa using toNat_of_isDigit h)]
  rfl

theorem grouped_of_isDigit {cs : List Char} (hne : cs ≠ []) (h : ∀ c ∈ cs, c.isDigit = true) :
    Grouped cs (cs.map fun c => c.toNat - '0'.toNat) := by
  induction cs with
  | nil => exact absurd rfl hne
  | cons c cs ih =>
    rw [List.forall_mem_cons] at h
    have hd := digit?_of_isDigit h.1
    cases cs with
    | nil => exact .last hd
    | cons x cs => exact .next hd (ih (by simp) h.2)

theorem isDigit_of_mem_toDigits {n : Nat} : ∀ c ∈ Nat.toDigits 10 n, c.isDigit = true :=
  fun _ hc => Nat.isDigit_of_mem_toDigits (by decide) (by decide) hc

theorem exists_grouped_toDigits (n : Nat) : ∃ ds, Grouped (Nat.toDigits 10 n) ds ∧
    ds.length = (Nat.toDigits 10 n).length ∧ Nat.ofDigits 10 ds.reverse = n := by
  refine ⟨_, grouped_of_isDigit Nat.toDigits_ne_nil isDigit_of_mem_toDigits, by simp, ?_⟩
  rw [← ofDigits_eq, ofDigits, List.foldl_map]
  exact Nat.ofDigitChars_ten_toDigits

theorem isNumeral_decimal {v : Int} (h : (decimal v).length ≤ 4300) : IsNumeral (decimal v) v := by
  cases v with
  | ofNat n =>
    obtain ⟨ds, hds, hlength, hvalue⟩ := exists_grouped_toDigits n
    have hnumeral := IsNumeral.unsigned hds (hlength.trans_le h)
    rwa [hvalue] at hnumeral
  | negSucc n =>
    obtain ⟨ds, hds, hlength, hvalue⟩ := exists_grouped_toDigits (n + 1)
    have hshort : (Nat.toDigits 10 (n + 1)).length ≤ 4300 := Nat.le_of_succ_le h
    have hnumeral := IsNumeral.minus hds (hlength.trans_le hshort)
    rwa [hvalue] at hnumeral

theorem decimal_ne_nil (v : Int) : decimal v ≠ [] := by
  cases v <;> simp [decimal]

theorem isDigit_or_of_mem_decimal {v : Int} {c : Char} (hc : c ∈ decimal v) : c.isDigit = true ∨ c = '-' := by
  cases v with
  | ofNat n => exact Or.inl (isDigit_of_mem_toDigits c hc)
  | negSucc n =>
    rcases List.mem_cons.mp hc with hc | hc
    · exact Or.inr hc
    · exact Or.inl (isDigit_of_mem_toDigits c hc)

theorem notMem_decimal {x : Char} (hdigit : x.isDigit = false) (hdash : x ≠ '-') (v : Int) : x ∉ decimal v := by
  intro hx
  rcases isDigit_or_of_mem_decimal hx with h | h
  · rw [hdigit] at h
    cases h
  · exact hdash h

theorem isBlank_of_mem_decimal {v : Int} {c : Char} (hc : c ∈ decimal v) : isBlank c = false := by
  rcases isDigit_or_of_mem_decimal hc with h | h
  · obtain ⟨hlow, hhigh⟩ := toNat_of_isDigit h
    simp [isBlank]
    omega
  · rw [h]
    decide

/-- The decimal numeral of a number is read as that number. -/
theorem integer?_decimal {v : Int} (h : (decimal v).length ≤ 4300) : integer? (decimal v) = some v :=
  (integer?_eq_some_iff fun _ hc => isBlank_of_mem_decimal hc).mpr (isNumeral_decimal h)

theorem dash_notMem_toDigits (n : Nat) : '-' ∉ Nat.toDigits 10 n :=
  fun h => absurd (isDigit_of_mem_toDigits '-' h) (by decide)

theorem toDigits_injective : Function.Injective (Nat.toDigits 10) := by
  intro m n h
  have hvalue := congrArg (Nat.ofDigitChars 10 · 0) h
  simpa using hvalue

theorem decimal_injective : Function.Injective decimal := by
  intro v w h
  cases v with
  | ofNat m =>
    cases w with
    | ofNat n => exact congrArg Int.ofNat (toDigits_injective h)
    | negSucc n =>
      have hdigits : Nat.toDigits 10 m = '-' :: Nat.toDigits 10 (n + 1) := h
      exact absurd (hdigits ▸ List.mem_cons_self) (dash_notMem_toDigits m)
  | negSucc m =>
    cases w with
    | ofNat n =>
      have hdigits : '-' :: Nat.toDigits 10 (m + 1) = Nat.toDigits 10 n := h
      exact absurd (hdigits ▸ List.mem_cons_self) (dash_notMem_toDigits n)
    | negSucc n =>
      have hvalue := toDigits_injective (List.cons.inj h).2
      rw [Nat.succ_injective hvalue]

end Tractor.Text
