/-
  Tractor.Card.Code — reading cards, and what is refused.

  A code is read in any case and with blanks around it. It is a joker's value, or a
  rank's value followed by one character that is a suit's. The values of suits, ranks
  and jokers on their own are read as they stand. A refusal quotes the text it was
  given, not the text it made of it.

  - `Card.ofCode`: the card of a code.
  - `Card.ofCodes`: the cards of several codes, or the fault of the first bad one.
  - `Card.ofParts`: a card from a rank, a suit and a joker that may each be missing.
-/

import Tractor.Card.Basic
import Tractor.Text.Blank
import Tractor.Text.Quoted
import Tractor.Text.Upper

namespace Tractor

inductive CardFault where
  | notRank (text : String)
  | notSuit (text : String)
  | notJoker (text : String)
  | badCode (code : String)
  /-- A joker with a rank or a suit. -/
  | jokerWithParts
  /-- A card without joker that lacks its rank or its suit. -/
  | missingPart
  /-- Fewer decks than one. -/
  | deckCount
  deriving DecidableEq, Repr

def CardFault.message : CardFault → String
  | notRank text => Text.quoted text ++ " is not a valid Number"
  | notSuit text => Text.quoted text ++ " is not a valid Suit"
  | notJoker text => Text.quoted text ++ " is not a valid Joker"
  | badCode code => "invalid card code '" ++ code ++ "'"
  | jokerWithParts => "jokers carry neither number nor suit"
  | missingPart => "suited cards need both number and suit"
  | deckCount => "decks must be positive"

def Rank.ofValue (text : String) : Except CardFault Rank :=
  match ofValue? text with
  | some r => .ok r
  | none => .error (.notRank text)

def Suit.ofValue (text : String) : Except CardFault Suit :=
  match ofValue? text with
  | some s => .ok s
  | none => .error (.notSuit text)

def Joker.ofValue (text : String) : Except CardFault Joker :=
  match ofValue? text with
  | some j => .ok j
  | none => .error (.notJoker text)

namespace Card

/-- A rank's value followed by a suit's character. -/
def ofFace? (cs : List Char) : Option Card := do
  let suit ← Suit.ofValue? (String.singleton (← cs.getLast?))
  let rank ← Rank.ofValue? (String.ofList cs.dropLast)
  return suited rank suit

/-- The card of a code in upper case without blanks. -/
def ofPlainCode? (cs : List Char) : Option Card :=
  match Joker.ofValue? (String.ofList cs) with
  | some j => some (joker j)
  | none => ofFace? cs

def plainCode (code : String) : List Char := Text.upper (Text.strip code.toList)

def ofCode (code : String) : Except CardFault Card :=
  match ofPlainCode? (plainCode code) with
  | some c => .ok c
  | none => .error (.badCode code)

/-- The cards of the codes, or the fault of the first bad one. -/
def ofCodes (codes : List String) : Except CardFault (List Card) := codes.mapM ofCode

def ofParts : Option Rank → Option Suit → Option Joker → Except CardFault Card
  | none, none, some j => .ok (joker j)
  | _, _, some _ => .error .jokerWithParts
  | some r, some s, none => .ok (suited r s)
  | _, _, none => .error .missingPart

def decks (count : Int) : Except CardFault (List Card) :=
  if count ≤ 0 then .error .deckCount else .ok (List.replicate count.toNat deck).flatten

end Card

end Tractor
