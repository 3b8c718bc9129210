import TemporalNetwork.Edge.Payload

/-!
Faults: what stops an operation that is called outside its domain.
-/

namespace TemporalNetwork

inductive Fault where
  /-- An index does not belong to the container it is used on. -/
  | outOfRange
  /-- The edge has been removed, or never was. -/
  | removedEdge (edge : EdgeId)
  /-- A bound has no negation. -/
  | overflow
  /-- A check starts on a network that an earlier check left half propagated. -/
  | halfPropagated
  deriving DecidableEq, Repr

/-- The text that explains the fault, where there is one. -/
def Fault.message? : Fault → Option String
  | removedEdge e => some ("edge e" ++ toString e ++ " is not in the graph")
  | _ => none

end TemporalNetwork
