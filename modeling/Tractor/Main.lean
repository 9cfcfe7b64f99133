/-
  Tractor.Main — the program: one command line, its listing on standard output.

  With `-v` what the listing notes goes to standard error. A command line that is
  refused says why there and ends with status 2.
-/

import Tractor.Console.Command

open Tractor Console in
def main (args : List String) : IO UInt32 := do
  match Invocation.ofWords args with
  | .error fault =>
    IO.eprintln fault.message
    return 2
  | .ok invocation =>
    let (lines, events) := invocation.command.run
    if invocation.verbose then
      for event in events do IO.eprintln event.message
    match lines with
    | .error fault =>
      IO.eprintln fault.message
      return 1
    | .ok lines =>
      for line in lines do IO.println line
      return 0
