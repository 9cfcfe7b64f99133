/-
  Tractor.Console.Command — the commands, how they are read, and what they print.

  `partitions`, `assignments` and `full` list what their number asks for, `follow` lists
  what may follow a shape, and `hand` groups cards under a trump. A command line names
  one command and may ask before it for what the listings note. Every command, and the
  line as a whole, may be asked how it is used; the question is answered once all
  options are read, whatever the arguments are.

  - `Invocation.ofWords`: the invocation of a command line, or why it is refused.
  - `Command.run`: the lines that a command prints, and what was noted.
-/

import Tractor.Console.Arguments
import Tractor.Console.Layout
import Tractor.Memo.Session

namespace Tractor.Console

inductive Verb where
  | partitions
  | assignments
  | full
  | follow
  | hand
  deriving DecidableEq, Repr

inductive Command where
  | partitions (n : Int)
  | clusterings (k : Int)
  | decompositions (n : Int)
  | follow (lead : Shape) (newAdjacency : Bool)
  | hand (trump : Trump) (cards : List Card)
  /-- How one command, or the line as a whole, is used. -/
  | usage (verb : Option Verb)
  deriving DecidableEq, Repr

structure Invocation where
  verbose : Bool
  command : Command
  deriving DecidableEq, Repr

/-! ## Verbs -/

namespace Verb

def all : List Verb := [partitions, assignments, full, follow, hand]

def name : Verb → String
  | partitions => "partitions"
  | assignments => "assignments"
  | full => "full"
  | follow => "follow"
  | hand => "hand"

def arguments : Verb → String
  | partitions => "NUM_CARDS"
  | assignments => "LENGTH"
  | full => "NUM_CARDS"
  | follow => "SHAPE"
  | hand => "CODES..."

def ofName (text : String) : Except UsageFault Verb :=
  match all.find? (·.name == text) with
  | some v => .ok v
  | none => .error (.unknownCommand text)

def help : LongOption := ⟨"--help", false⟩

def grammar : Verb → Grammar
  | partitions => ⟨[help], [], true⟩
  | assignments => ⟨[help], [], true⟩
  | full => ⟨[help], [], true⟩
  | follow => ⟨[help, ⟨"--new-adjacency", false⟩, ⟨"--no-new-adjacency", false⟩], [], true⟩
  | hand => ⟨[help, ⟨"--trump-number", true⟩, ⟨"--trump-suit", true⟩], [], true⟩

end Verb

/-- The options before the name of a command. -/
def lineGrammar : Grammar := ⟨[Verb.help, ⟨"--verbose", false⟩], ['v'], false⟩

def asksUsage (items : List Item) : Bool := (Item.lastFlag? [Verb.help.name] items).isSome

/-! ## Reading -/

def firstArgument (verb : Verb) (items : List Item) : Except UsageFault (String × List String) :=
  match Item.arguments items with
  | [] => .error (.missingArgument verb.arguments)
  | first :: others => .ok (first, others)

def noMore (args : List String) : Except UsageFault Unit :=
  if args.isEmpty then .ok () else .error (.extraArguments args)

def countOf (name typed : String) : Except UsageFault Int :=
  match Text.integer? typed.toList with
  | none => .error (.notInteger name typed)
  | some n => if n < 1 then .error (.belowOne name n) else .ok n

def countArgument (verb : Verb) (items : List Item) : Except UsageFault Int := do
  let (typed, others) ← firstArgument verb items
  let n ← countOf verb.arguments typed
  noMore others
  return n

/-- The only argument, a lead, and whether new adjacency is allowed. -/
def followArguments (items : List Item) : Except UsageFault Command := do
  let (typed, others) ← firstArgument .follow items
  noMore others
  let lead ← (Shape.ofText typed).mapError .badShape
  let flag := Item.lastFlag? ["--new-adjacency", "--no-new-adjacency"] items
  return .follow lead (decide (flag ≠ some "--no-new-adjacency"))

/-- The codes of a hand under a trump, which is read first. -/
def handArguments (items : List Item) : Except UsageFault Command := do
  let (code, codes) ← firstArgument .hand items
  let rank := (Item.lastValue? "--trump-number" items).getD "2"
  let trump ← (Trump.ofText rank (Item.lastValue? "--trump-suit" items)).mapError .badTrump
  let cards ← (Card.ofCodes (code :: codes)).mapError .badCodes
  return .hand trump cards

def Command.ofItems (verb : Verb) (items : List Item) : Except UsageFault Command :=
  match verb with
  | .partitions => .partitions <$> countArgument verb items
  | .assignments => .clusterings <$> countArgument verb items
  | .full => .decompositions <$> countArgument verb items
  | .follow => followArguments items
  | .hand => handArguments items

def Command.ofWords (name : String) (words : List String) : Except UsageFault Command := do
  let verb ← Verb.ofName name
  let items ← scan verb.grammar words
  if asksUsage items then return .usage (some verb)
  Command.ofItems verb items

def Invocation.ofWords (words : List String) : Except UsageFault Invocation := do
  let items ← scan lineGrammar words
  let verbose := (Item.lastFlag? ["-v", "--verbose"] items).isSome
  if asksUsage items then return ⟨verbose, .usage none⟩
  match Item.arguments items with
  | [] => throw .missingCommand
  | name :: rest => return ⟨verbose, ← Command.ofWords name rest⟩

/-! ## Running -/

def numbered (title : String) (n : Int) : String := title ++ String.ofList (Text.decimal n)

/-- The lines of the answer to the first request of a session, and what was noted. -/
def answered (request : Request) (grid : Answer → Grid) : Except Fault (List String) × List Event :=
  let (answer, after) := Session.empty.serve request
  (answer.map fun a => (grid a).lines, after.log)

/-- The shapes of an answer: a partition has a run for each tuple, a clustering for each
    cluster. -/
def shapesOf : Answer → List Shape
  | .runs rs => rs.map fun r => r.map ([·])
  | .clusterings cs => cs.map fun c => c.map fun cluster => cluster.map Int.ofNat
  | .shapes ss => ss
  | .cleared => []

namespace Command

def handLines (trump : Trump) (cards : List Card) : List String :=
  let piles := tally trump cards
  (Grid.ofPiles "Hand" piles).lines ++ paragraph (Card.formatAll (spread piles))

def usageLine (verb : Verb) : String := "Usage: " ++ verb.name ++ " [OPTIONS] " ++ verb.arguments

def usageLines : Option Verb → List String
  | some verb => [usageLine verb]
  | none => Verb.all.map usageLine

def run : Command → Except Fault (List String) × List Event
  | .partitions n => answered (.partitions n) fun a =>
    Grid.ofShapes (numbered "Tuple partitions of " n) (shapesOf a)
  | .clusterings k => answered (.clusterings k) fun a =>
    Grid.ofShapes (numbered "Adjacency assignments of " k) (shapesOf a)
  | .decompositions n => answered (.decompositions n) fun a =>
    Grid.ofShapes (numbered "Decompositions of " n) (shapesOf a)
  | .follow lead newAdjacency => answered (.follows lead newAdjacency) fun a =>
    Grid.ofShapes ("Following " ++ String.ofList lead.shown) (shapesOf a)
  | .hand trump cards => (.ok (handLines trump cards), [])
  | .usage verb => (.ok (usageLines verb), [])

end Command

end Tractor.Console
