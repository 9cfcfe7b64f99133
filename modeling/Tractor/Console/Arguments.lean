/-
  Tractor.Console.Arguments — the words of a command line as options and arguments.

  A word that starts with a dash and is longer than it is an option; after the word of
  two dashes nothing is. An option of two dashes may have its value after an equals
  sign, and takes it from the next word otherwise, whatever that word is. One dash
  may be followed by several flags of one letter each. Some grammars allow options only
  before the first argument. An option of two dashes that is not known is refused with
  the known ones that are close to it.

  - `scan`: the options and arguments in order, or the first fault.
-/

import Tractor.Console.Usage
import Tractor.Text.Similar

namespace Tractor.Console

structure LongOption where
  /-- The name, with its dashes. -/
  name : String
  takesValue : Bool
  deriving DecidableEq, Repr

structure Grammar where
  /-- The options of two dashes, in the alphabetical order in which they are suggested. -/
  long : List LongOption
  /-- The flags of one letter. -/
  letters : List Char
  /-- Whether options may follow an argument. -/
  interspersed : Bool
  deriving DecidableEq, Repr

inductive Item where
  | flag (name : String)
  | option (name value : String)
  | argument (text : String)
  deriving DecidableEq, Repr

def isOption (word : String) : Bool :=
  match word.toList with
  | '-' :: _ :: _ => true
  | _ => false

def isLong (word : String) : Bool :=
  match word.toList with
  | '-' :: '-' :: _ => true
  | _ => false

/-- The word up to the first equals sign, and what follows it if there is one. -/
def splitValue (word : String) : String × Option String :=
  let cs := word.toList
  let name := String.ofList (cs.takeWhile (· != '='))
  match cs.dropWhile (· != '=') with
  | [] => (name, none)
  | _ :: value => (name, some (String.ofList value))

namespace Grammar

def similar (g : Grammar) (name : String) : List String :=
  (g.long.map LongOption.name).filter fun known => Text.isSimilar known.toList name.toList

def find (g : Grammar) (name : String) : Except UsageFault LongOption :=
  match g.long.find? (·.name == name) with
  | some option => .ok option
  | none => .error (.unknownOption name (g.similar name))

def letterFlags (g : Grammar) (letters : List Char) : Except UsageFault (List Item) :=
  letters.mapM fun c =>
    let name := String.ofList ['-', c]
    if g.letters.contains c then .ok (.flag name) else .error (.unknownOption name [])

end Grammar

def scan (g : Grammar) : List String → Except UsageFault (List Item)
  | [] => .ok []
  | word :: rest => do
    if word = "--" then return rest.map .argument
    if !isOption word then
      if g.interspersed then return .argument word :: (← scan g rest)
      else return (word :: rest).map .argument
    if !isLong word then
      let flags ← g.letterFlags (word.toList.drop 1)
      return flags ++ (← scan g rest)
    let (name, value) := splitValue word
    let option ← g.find name
    if !option.takesValue then
      if value.isSome then throw (.needlessValue name)
      return .flag name :: (← scan g rest)
    match value, rest with
    | some v, rest => return .option name v :: (← scan g rest)
    | none, v :: rest => return .option name v :: (← scan g rest)
    | none, [] => throw (.missingValue name)

namespace Item

def arguments (items : List Item) : List String :=
  items.filterMap fun
    | argument text => some text
    | _ => none

def lastValue? (name : String) (items : List Item) : Option String :=
  (items.filterMap fun
    | option n v => if n = name then some v else none
    | _ => none).getLast?

def lastFlag? (names : List String) (items : List Item) : Option String :=
  (items.filterMap fun
    | flag n => if names.contains n then some n else none
    | _ => none).getLast?

end Item

end Tractor.Console
