import TemporalNetwork.Conditional.WellDefined

/-!
The horizon: a time by which every node can be scheduled if the network is consistent, and the
number of passes after which propagation gives up.
-/

namespace TemporalNetwork

structure Horizon where
  /-- The largest absolute value of a negative finite value. -/
  maxWeight : Int
  value : Value
  deriving DecidableEq, Repr

namespace Network

/-- All ordinary and upper-case values. -/
def allValues (g : LabeledNetwork) : List Value :=
  g.edgeIds.flatMap fun e =>
    match g.edge? e with
    | some edge => edge.allValues.map fun v => v.2.2
    | none => []

def maxWeight (g : LabeledNetwork) : Int :=
  (((g.allValues.filter fun v => v < 0 ∧ Value.IsFinite v).map fun v => -v).max?).getD 0

/-- The horizon, which has to be a finite value. -/
def horizon? (g : LabeledNetwork) : Except RangeError Horizon :=
  let w := g.maxWeight
  let value := w * g.nodeCount
  if Value.IsFinite value then .ok ⟨w, value⟩ else .error (.horizonOverflow w g.nodeCount)

/-- Merges a value into an edge, which is added with the given kind if there is none. -/
def mergeInto (g : LabeledNetwork) (kind : ConstraintKind) (source target : NodeId)
    (case : CaseLabel) (label : Label) (value : Value) : LabeledNetwork × Bool :=
  let (g, e) := g.edgeOrInsert source target (LabeledEdge.ofKind kind)
  match g.edge? e with
  | none => (g, false)
  | some edge =>
    let (edge, changed) := edge.merge case label value
    (g.modifyEdge e fun _ => edge, changed)

/-- Bounds a node to `[0, horizon]` after Z, in the scenarios of `label`. -/
def boundNode (g : LabeledNetwork) (z : NodeId) (horizon : Value) (label : Label) (n : NodeId) :
    LabeledNetwork :=
  let g := (g.mergeInto .internal n z .empty label 0).1
  (g.mergeInto .internal z n .empty label horizon).1

def addBounds (g : LabeledNetwork) (z : NodeId) (horizon : Value) (withNodeLabels : Bool) :
    LabeledNetwork :=
  (g.nodeIds.filter fun n => n != z).foldl (fun g n =>
    g.boundNode z horizon (if withNodeLabels then (g.nodeD n).label else .empty) n) g

/-- The greatest number of passes: the product of the largest weight, the square of the number of
nodes and the cube of the number of propositions, and at most the largest 64-bit number. -/
def cycleBound (g : LabeledNetwork) (maxWeight : Int) : Nat :=
  let weight := max 1 maxWeight.toNat
  let nodes := g.nodeCount
  let propositions := max 1 g.observations.propositions.size
  min (weight * (nodes * nodes) * (propositions * propositions * propositions))
    18446744073709551615

/-- The network without unknown literals, self-loops and added edges without values. -/
def cleaned (g : LabeledNetwork) : LabeledNetwork :=
  g.edgeIds.foldl (fun g e =>
    let g := g.modifyEdge e LabeledEdge.dropUnknown
    match g.slot? e with
    | none => g
    | some slot =>
      let added := slot.payload.kind == .derived || slot.payload.kind == .internal
      if slot.source = slot.target ∨ (added ∧ slot.payload.isVoid) then (g.removeEdge e).1 else g) g

end Network

end TemporalNetwork
