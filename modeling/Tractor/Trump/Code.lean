/-
  Tractor.Trump.Code — reading a deal's trump.

  The rank is read before the suit. From a console the two are read in any case, and an
  empty suit means none; a refusal quotes both as they were given.
-/

import Tractor.Card.Code
import Tractor.Trump.Basic

namespace Tractor

structure TrumpFault where
  rank : String
  suit : String
  deriving DecidableEq, Repr

def TrumpFault.message (f : TrumpFault) : String := "invalid trump '" ++ f.rank ++ f.suit ++ "'"

namespace Trump

def ofValues (rank : String) (suit : Option String) : Except CardFault Trump := do
  let r ← Rank.ofValue rank
  match suit with
  | none => return ⟨r, none⟩
  | some text => return ⟨r, some (← Suit.ofValue text)⟩

def upperText (text : String) : String := String.ofList (Text.upper text.toList)

def ofText (rank : String) (suit : Option String) : Except TrumpFault Trump :=
  let typed := suit.filter fun text => !text.isEmpty
  match ofValues (upperText rank) (typed.map upperText) with
  | .ok t => .ok t
  | .error _ => .error ⟨rank, suit.getD ""⟩

end Trump

end Tractor
