/-
  Tractor.Console.Usage — why a command line is refused.
-/

import Tractor.Shape.Written
import Tractor.Trump.Code

namespace Tractor.Console

inductive UsageFault where
  | missingCommand
  | unknownCommand (name : String)
  /-- An option that is not known, with the known ones that are close to it. -/
  | unknownOption (name : String) (similar : List String)
  /-- A value for an option that takes none. -/
  | needlessValue (option : String)
  /-- No value for an option that takes one. -/
  | missingValue (option : String)
  | missingArgument (name : String)
  | extraArguments (args : List String)
  | notInteger (name : String) (typed : String)
  | belowOne (name : String) (value : Int)
  | badShape (fault : ShapeFault)
  | badTrump (fault : TrumpFault)
  | badCodes (fault : CardFault)
  deriving DecidableEq, Repr

def invalidValue (what why : String) : String := "Invalid value for " ++ what ++ ": " ++ why

def suggestion : List String → String
  | [] => ""
  | [option] => " Did you mean " ++ option ++ "?"
  | options => " (Possible options: " ++ ", ".intercalate options ++ ")"

def UsageFault.message : UsageFault → String
  | missingCommand => "Missing command."
  | unknownCommand name => "No such command " ++ Text.quoted name ++ "."
  | unknownOption name similar => "No such option: " ++ name ++ suggestion similar
  | needlessValue option => "Option '" ++ option ++ "' does not take a value."
  | missingValue option => "Option '" ++ option ++ "' requires an argument."
  | missingArgument name => "Missing argument '" ++ name ++ "'."
  | extraArguments args =>
    let word := if args.length = 1 then "argument" else "arguments"
    "Got unexpected extra " ++ word ++ " (" ++ " ".intercalate args ++ ")"
  | notInteger name typed =>
    invalidValue ("'" ++ name ++ "'") (Text.quoted typed ++ " is not a valid integer range.")
  | belowOne name value =>
    invalidValue ("'" ++ name ++ "'") (String.ofList (Text.decimal value) ++ " is not in the range x>=1.")
  | badShape fault => invalidValue "SHAPE" fault.message
  | badTrump fault => invalidValue "--trump-number/--trump-suit" fault.message
  | badCodes fault => invalidValue "CODES" fault.message

end Tractor.Console
