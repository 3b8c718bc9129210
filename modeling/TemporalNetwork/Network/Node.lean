import TemporalNetwork.Label.CaseLabel
import TemporalNetwork.Label.Text

/-!
Time-points.
-/

namespace TemporalNetwork

structure Node where
  name : String
  /-- The scenarios in which the node has to be executed. -/
  label : Label
  /-- The proposition whose value becomes known when the node is executed. -/
  observed : Option Proposition
  contingent : Bool
  /-- The letter of a contingent node, given to it together with its link. -/
  letter : Option CaseLetter
  /-- The potential of the node in the graph of ordinary and lower-case values. -/
  potential : Int
  deriving DecidableEq, Repr, Inhabited

namespace Node

def named (name : String) : Node := ⟨name, .empty, none, false, none, 0⟩

def isObserver (n : Node) : Bool := n.observed.isSome

end Node

end TemporalNetwork
