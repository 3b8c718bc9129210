import TemporalNetwork.Network.Basic

/-!
Closing a label: adding the label of the observer of each proposition it mentions, until nothing is
added. A node that is executed under a label needs the propositions of the label to be observed, and
so needs their observers to be executed.
-/

namespace TemporalNetwork

inductive ClosureFailure where
  /-- A proposition that the label comes to mention has no observer. -/
  | unobserved (p : Proposition)
  /-- Two literals over one proposition differ. -/
  | contradictory
  deriving DecidableEq, Repr

/-- The label of the observer of `p`. -/
def Network.observerLabel? {E : Type} (g : Network E) (p : Proposition) : Option Label :=
  (observerAmong? g.nodes p).map fun n => (g.nodeD n).label

/-- Adds the labels of the observers of `ps`. -/
def addObserverLabels (observerLabel? : Proposition → Option Label) (label : Label) :
    List Proposition → Except ClosureFailure Label
  | [] => .ok label
  | p :: ps =>
    match observerLabel? p with
    | none => .error (.unobserved p)
    | some l =>
      match label.and? l with
      | none => .error .contradictory
      | some next => addObserverLabels observerLabel? next ps

/-- Closes a label in at most `fuel` rounds. -/
def closeWithin (observerLabel? : Proposition → Option Label) :
    (fuel : Nat) → Label → Except ClosureFailure Label
  | 0, label => .ok label
  | fuel + 1, label =>
    match addObserverLabels observerLabel? label label.propositions.toList with
    | .error e => .error e
    | .ok next => if next = label then .ok label else closeWithin observerLabel? fuel next

/-- Every round but the last adds one of 32 propositions. -/
def closeLabel (observerLabel? : Proposition → Option Label) (label : Label) :
    Except ClosureFailure Label :=
  closeWithin observerLabel? 33 label

end TemporalNetwork
