/-
  Tractor.Text.Similar — when a typed text is close to a known one.

  Two texts are matched by their longest common stretch, and then in the same way to
  the left and to the right of it. Of several longest stretches the one that starts
  first in the known text is taken, and of those the one that starts first in the typed
  text. The texts are similar when the characters that are matched make up at least
  three fifths of both.

  - `longest`: the longest common stretch.
  - `matched`: how many characters of one text are matched.
  - `isSimilar`: whether a typed text is close to a known one.
-/

namespace Tractor.Text

def agreement : List Char → List Char → Nat
  | a :: as, b :: bs => if a = b then agreement as bs + 1 else 0
  | _, _ => 0

/-- A common stretch: where it starts in the known and in the typed text, and its length. -/
structure Stretch where
  known : Nat
  typed : Nat
  length : Nat
  deriving DecidableEq, Repr

def stretches (known typed : List Char) : List Stretch :=
  (List.range known.length).flatMap fun i =>
    (List.range typed.length).map fun j => ⟨i, j, agreement (known.drop i) (typed.drop j)⟩

/-- The longest common stretch, the first one if there are several. -/
def longest (known typed : List Char) : Stretch :=
  (stretches known typed).foldl (fun best s => if best.length < s.length then s else best) ⟨0, 0, 0⟩

/-- The characters matched by stretches that lie at most `n` deep. -/
def matchedWithin : Nat → List Char → List Char → Nat
  | 0, _, _ => 0
  | n + 1, known, typed =>
    let s := longest known typed
    if s.length = 0 then 0
    else matchedWithin n (known.take s.known) (typed.take s.typed) + s.length +
      matchedWithin n (known.drop (s.known + s.length)) (typed.drop (s.typed + s.length))

/-- How many characters of the known text are matched; each stretch takes at least one. -/
def matched (known typed : List Char) : Nat := matchedWithin known.length known typed

def isSimilar (known typed : List Char) : Bool :=
  decide (3 * (known.length + typed.length) ≤ 10 * matched known typed)

end Tractor.Text
