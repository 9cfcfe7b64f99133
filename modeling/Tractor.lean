import Tractor.Card.Basic
import Tractor.Card.Code
import Tractor.Console.Arguments
import Tractor.Console.Command
import Tractor.Hand.Expansion
import Tractor.Hand.Ranked
import Tractor.Main
import Tractor.Proofs.Memo.History
import Tractor.Proofs.Shape.Adjacency
import Tractor.Proofs.Shape.Bottom
import Tractor.Proofs.Shape.Legality
import Tractor.Trump.Adjacency
import Tractor.Proofs.Shape.Listed
import Tractor.Proofs.Shape.Lockstep
import Tractor.Proofs.Shape.Multiplicity
import Tractor.Proofs.Shape.OneRun
import Tractor.Proofs.Shape.Reordering
import Tractor.Proofs.Trump.Order
import Tractor.Proofs.Hand.Tally
import Tractor.Proofs.Trump.Descent
import Tractor.Proofs.Memo.Checks
import Tractor.Proofs.Console.Follow
import Tractor.Proofs.Text.Numeral
import Tractor.Proofs.Shape.Typed
import Tractor.Proofs.Card.Code
import Tractor.Proofs.Console.Shown
import Tractor.Proofs.Hand.Written
import Tractor.Proofs.Memo.Uses
import Tractor.Proofs.Hand.Expansion
