import TemporalNetwork.Check.Preparation
import TemporalNetwork.Conditional.Closure
import TemporalNetwork.Edge.LabeledEdge

/-!
Well-definedness of conditional networks. Each proposition has one observer; the label of a node
entails the labels of the observers of its propositions; the label of a value entails the labels of
both ends of its edge and of the observers of its propositions. What can be repaired is repaired.
-/

namespace TemporalNetwork

abbrev LabeledNetwork := Network LabeledEdge

namespace Network

/-- The first node whose proposition is observed by an earlier one. -/
def duplicateObserver? (g : LabeledNetwork) : Option StructuralError :=
  g.nodeIds.findSome? fun n =>
    (g.nodeD n).observed.bind fun p =>
      (observerAmong? g.nodes p).bind fun first =>
        if first < n then some (.duplicateObserver p (g.nodeName first) (g.nodeName n)) else none

/-- The first observer whose label mentions its own proposition. -/
def selfDependentObserver? (g : LabeledNetwork) : Option StructuralError :=
  g.nodeIds.findSome? fun n =>
    (g.nodeD n).observed.bind fun p =>
      if (g.nodeD n).label.mentions p then
        some (.observerLabelContainsOwnProposition (g.nodeName n) p)
      else none

end Network

/-- What becomes of a value with a given label on an edge with given ends. -/
inductive LabelRepair where
  | keep
  | dropUnknown
  | dropContradictory
  | relabel (required : Label)
  | reject (p : Proposition)
  deriving DecidableEq, Repr

namespace Network

/-- The label that a value between the two nodes needs at least. -/
def endpointLabel? (g : LabeledNetwork) (source target : NodeId) (label : Label) : Option Label :=
  (label.and? (g.nodeD source).label).bind fun l => l.and? (g.nodeD target).label

def labelRepair (g : LabeledNetwork) (withNodeLabels : Bool) (source target : NodeId)
    (label : Label) : LabelRepair :=
  if label.hasUnknown then .dropUnknown
  else if withNodeLabels then
    match g.endpointLabel? source target label with
    | none => .dropContradictory
    | some required =>
      match closeLabel g.observerLabel? required with
      | .error (.unobserved p) => .reject p
      | .error .contradictory => .dropContradictory
      | .ok closed => if closed = label then .keep else .relabel closed
  else
    match label.propositions.toList.find? fun p => (g.observerLabel? p).isNone with
    | some p => .reject p
    | none => .keep

end Network

namespace WellDefined

open Preparation

/-- A value in the text of a repair. -/
def valueText (label : Label) (value : Value) : String :=
  "(" ++ label.text ++ ", " ++ Value.text value ++ ")"

/-- Z occurs in every scenario. -/
def clearZLabel (z : NodeId) : Preparation LabeledEdge Unit := do
  match (← network).node? z with
  | none => throw (.fault .outOfRange)
  | some node =>
    if !node.label.isEmpty then
      noteFix ("removed the label " ++ node.label.text ++ " of Z")
      modifyNetwork fun g => g.modifyNode z fun n => { n with label := .empty }

def closeNodeLabel (n : NodeId) : Preparation LabeledEdge Unit := do
  let g ← network
  let label := (g.nodeD n).label
  match closeLabel g.observerLabel? label with
  | .error (.unobserved p) => throw (.structural (.unobservedProposition (g.nodeName n) p))
  | .error .contradictory => throw (.structural (.inconsistentNodeLabel (g.nodeName n)))
  | .ok closed =>
    if closed ≠ label then
      noteFix ("extended the label of " ++ g.nodeName n ++ " from " ++ label.text ++ " to " ++
        closed.text)
      modifyNetwork fun g => g.modifyNode n fun node => { node with label := closed }

def failIf (e : Option StructuralError) : Preparation LabeledEdge Unit :=
  match e with
  | some e => throw (.structural e)
  | none => return

def repairValue (withNodeLabels : Bool) (e : EdgeId) (case : CaseLabel) (label : Label)
    (value : Value) : Preparation LabeledEdge Unit := do
  let g ← network
  match g.slot? e with
  | none => return
  | some slot =>
    match g.labelRepair withNodeLabels slot.source slot.target label with
    | .keep => return
    | .reject p => throw (.structural (.unobservedProposition slot.name p))
    | .dropUnknown =>
      modifyNetwork fun g => g.modifyEdge e fun edge => edge.erase case label
      noteFix ("removed " ++ valueText label value ++ " from " ++ slot.name ++
        ": unknown literals are not allowed")
    | .dropContradictory =>
      modifyNetwork fun g => g.modifyEdge e fun edge => edge.erase case label
      noteFix ("removed " ++ valueText label value ++ " from " ++ slot.name ++
        ": it contradicts the node labels")
    | .relabel required =>
      modifyNetwork fun g => g.modifyEdge e fun edge =>
        ((edge.erase case label).merge case required value).1
      noteFix ("replaced label " ++ label.text ++ " of " ++ slot.name ++ " by " ++ required.text)

def repairEdge (withNodeLabels : Bool) (e : EdgeId) : Preparation LabeledEdge Unit := do
  match (← network).edge? e with
  | none => return
  | some edge => edge.allValues.forM fun v => repairValue withNodeLabels e v.1 v.2.1 v.2.2

/-- Checks a network and repairs what can be repaired; returns Z. -/
def prepare (withNodeLabels : Bool) : Preparation LabeledEdge NodeId := do
  let z ← ensureZ
  clearZLabel z
  failIf (← network).duplicateObserver?
  if withNodeLabels then
    (← network).nodeIds.forM closeNodeLabel
    failIf (← network).selfDependentObserver?
  (← network).edgeIds.forM (repairEdge withNodeLabels)
  return z

end WellDefined

end TemporalNetwork
