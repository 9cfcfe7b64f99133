/-
  Tractor.Card.Basic — suits, ranks, jokers, cards and decks.

  A card is a rank in a suit, or one of two jokers. Each suit, rank and joker has a
  short value, and a card's code is its joker's value, or its rank's followed by its
  suit's. A deck holds every card once, by suits and ranks in ascending order, with the
  jokers last.
-/

namespace Tractor

inductive Suit where
  | clubs
  | diamonds
  | hearts
  | spades
  deriving DecidableEq, Repr

namespace Suit

def all : List Suit := [clubs, diamonds, hearts, spades]

def index : Suit → Nat
  | clubs => 0
  | diamonds => 1
  | hearts => 2
  | spades => 3

def value : Suit → String
  | clubs => "C"
  | diamonds => "D"
  | hearts => "H"
  | spades => "S"

def name : Suit → String
  | clubs => "CLUBS"
  | diamonds => "DIAMONDS"
  | hearts => "HEARTS"
  | spades => "SPADES"

def ofValue? (text : String) : Option Suit := all.find? (·.value == text)

theorem ofValue?_value (s : Suit) : ofValue? s.value = some s := by cases s <;> decide

theorem mem_all (s : Suit) : s ∈ all := by cases s <;> decide

theorem exists_ne (s : Suit) : ∃ o : Suit, o ≠ s := by
  cases s with
  | clubs => exact ⟨diamonds, by decide⟩
  | diamonds => exact ⟨clubs, by decide⟩
  | hearts => exact ⟨clubs, by decide⟩
  | spades => exact ⟨clubs, by decide⟩

theorem getElem?_all_index (s : Suit) : all[s.index]? = some s := by cases s <;> rfl

@[simp] theorem index_inj {s o : Suit} : s.index = o.index ↔ s = o := by
  constructor
  · intro h
    have hs := getElem?_all_index s
    rw [h, getElem?_all_index o] at hs
    exact (Option.some.inj hs).symm
  · rintro rfl
    rfl

end Suit

/-- The ranks, in ascending order when none of them is trump. -/
inductive Rank where
  | two
  | three
  | four
  | five
  | six
  | seven
  | eight
  | nine
  | ten
  | jack
  | queen
  | king
  | ace
  deriving DecidableEq, Repr

namespace Rank

def all : List Rank :=
  [two, three, four, five, six, seven, eight, nine, ten, jack, queen, king, ace]

def index : Rank → Nat
  | two => 0
  | three => 1
  | four => 2
  | five => 3
  | six => 4
  | seven => 5
  | eight => 6
  | nine => 7
  | ten => 8
  | jack => 9
  | queen => 10
  | king => 11
  | ace => 12

def value : Rank → String
  | two => "2"
  | three => "3"
  | four => "4"
  | five => "5"
  | six => "6"
  | seven => "7"
  | eight => "8"
  | nine => "9"
  | ten => "10"
  | jack => "J"
  | queen => "Q"
  | king => "K"
  | ace => "A"

def ofValue? (text : String) : Option Rank := all.find? (·.value == text)

theorem ofValue?_value (r : Rank) : ofValue? r.value = some r := by cases r <;> decide

theorem index_le (r : Rank) : r.index ≤ 12 := by cases r <;> decide

theorem getElem?_all_index (r : Rank) : all[r.index]? = some r := by cases r <;> rfl

@[simp] theorem index_inj {r q : Rank} : r.index = q.index ↔ r = q := by
  constructor
  · intro h
    have hr := getElem?_all_index r
    rw [h, getElem?_all_index q] at hr
    exact (Option.some.inj hr).symm
  · rintro rfl
    rfl

end Rank

inductive Joker where
  | small
  | big
  deriving DecidableEq, Repr

namespace Joker

def all : List Joker := [small, big]

def value : Joker → String
  | small => "SJ"
  | big => "BJ"

def ofValue? (text : String) : Option Joker := all.find? (·.value == text)

theorem ofValue?_value (j : Joker) : ofValue? j.value = some j := by cases j <;> decide

end Joker

inductive Card where
  | suited (rank : Rank) (suit : Suit)
  | joker (j : Joker)
  deriving DecidableEq, Repr

namespace Card

def code : Card → String
  | suited r s => r.value ++ s.value
  | joker j => j.value

def isJoker : Card → Bool
  | suited .. => false
  | joker _ => true

def rank? : Card → Option Rank
  | suited r _ => some r
  | joker _ => none

def suit? : Card → Option Suit
  | suited _ s => some s
  | joker _ => none

def joker? : Card → Option Joker
  | suited .. => none
  | joker j => some j

def deck : List Card :=
  (Suit.all.flatMap fun s => Rank.all.map (suited · s)) ++ Joker.all.map joker

theorem mem_deck (c : Card) : c ∈ deck := by
  cases c with
  | suited r s =>
    refine List.mem_append_left _ (List.mem_flatMap.mpr ⟨s, s.mem_all, List.mem_map.mpr ⟨r, ?_, rfl⟩⟩)
    exact List.mem_of_getElem? r.getElem?_all_index
  | joker j => cases j <;> decide

def formatAll (cards : List Card) : String :=
  String.ofList ([' '].intercalate (cards.map fun c => c.code.toList))

end Card

end Tractor
