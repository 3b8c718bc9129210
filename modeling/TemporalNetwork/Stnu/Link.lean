import TemporalNetwork.Check.Preparation
import TemporalNetwork.Edge.PlainEdge

/-!
Contingent links of networks without propositions. A link is given by the pair of contingent edges
`A → C (y)` and `C → A (−x)` with `0 ≤ x < y`; the one with the larger value leaves the activation
node.
-/

namespace TemporalNetwork

abbrev PlainNetwork := Network PlainEdge

structure StnuLink where
  activation : NodeId
  contingent : NodeId
  lower : Value
  upper : Value
  deriving DecidableEq, Repr

/-- Tightens the ordinary value of an edge, which is added as a derived one if there is none. -/
def Network.tighten (g : PlainNetwork) (source target : NodeId) (value : Value) :
    PlainNetwork × Bool :=
  let (g, e) := g.edgeOrInsert source target (PlainEdge.ofKind .derived)
  match g.edge? e with
  | none => (g, false)
  | some edge =>
    let (edge, changed) := edge.tighten value
    (g.modifyEdge e fun _ => edge, changed)

/-- Stores a case value and an upper bound of the ordinary value, for which an edge is added if
there is none. -/
def Network.storeCase (g : PlainNetwork) (source target : NodeId) (value : Value)
    (case : CaseValue) : PlainNetwork :=
  let (g, e) := g.edgeOrInsert source target (PlainEdge.ofKind .internal)
  g.modifyEdge e fun edge => { (edge.tighten value).1 with case := some case }

namespace StnuLink

open Preparation

/-- The contingent edge in the opposite direction. -/
def companion? (g : PlainNetwork) (source target : NodeId) : Option EdgeId :=
  (g.findEdge? target source).filter fun c =>
    (g.edge? c).any fun edge => edge.kind == .contingent

/-- The ordinary value of a contingent edge. -/
def rawValue (e : EdgeId) : Preparation PlainEdge Value := do
  let g ← network
  match (g.edge? e).bind PlainEdge.value? with
  | some v => return v
  | none => throw (.structural (.emptyContingentEdge (g.edgeName e)))

/-- The link whose edge from the activation node is `e`; none if `e` leaves the contingent node. Of
two edges with one value the first is taken. -/
def ofEdge? (e : EdgeId) : Preparation PlainEdge (Option StnuLink) := do
  let g ← network
  match g.slot? e with
  | none => return none
  | some ⟨name, source, target, _⟩ =>
    match companion? g source target with
    | none => throw (.structural (.missingCompanion name))
    | some companion =>
      let value ← rawValue e
      let companionValue ← rawValue companion
      if value < companionValue ∨ (value = companionValue ∧ companion < e) then return none
      let lower ← negate companionValue
      if lower < 0 ∨ value ≤ lower then
        throw (.structural (.invalidContingentRange (g.nodeName target) lower value))
      return some ⟨source, target, lower, value⟩

/-- Stores a case value on the edge from `source` to `target`; one that is present has to agree. -/
def storeCaseValue (source target : NodeId) (case : CaseValue) : Preparation PlainEdge Unit := do
  modifyNetwork fun g => (g.edgeOrInsert source target (PlainEdge.ofKind .internal)).1
  let g ← network
  match g.findEdge? source target with
  | none => return
  | some e =>
    if ((g.edge? e).bind PlainEdge.case).any (· != case) then
      throw (.structural (.contradictoryCaseValues (g.edgeName e)))
    modifyNetwork fun g => g.modifyEdge e fun edge => { edge with case := some case }

/-- Stores the case values of a link and records its activation node. -/
def record (link : StnuLink) : Preparation PlainEdge Unit := do
  let ⟨activation, contingent, lower, upper⟩ := link
  let g ← network
  if let some first := (g.activation? contingent).filter (· != activation) then
    throw (.structural (.multipleActivations (g.nodeName contingent) (← nodeName first)
      (g.nodeName activation)))
  let negated ← negate upper
  storeCaseValue activation contingent ⟨.lower, contingent, lower⟩
  storeCaseValue contingent activation ⟨.upper, contingent, negated⟩
  modifyNetwork fun g => g.modifyNode contingent fun n => { n with contingent := true }
  modifyNetwork fun g => g.setActivation contingent activation

/-- Bounds a node to be at or after Z. -/
def boundBelow (z n : NodeId) : Preparation PlainEdge Unit := do
  if ((← network).node? z).isNone then throw (.fault .outOfRange)
  modifyNetwork fun g => (g.tighten n z 0).1

/-- Adds Z if it is missing, bounds every node to be after Z, and sets up the links; returns them by
increasing contingent node. -/
def prepareAll : Preparation PlainEdge (List StnuLink) := do
  let z ← ensureZ
  ((← network).nodeIds.filter fun n => n != z).forM (boundBelow z)
  let links ← (← network).contingentEdges.filterMapM ofEdge?
  links.forM record
  return links.mergeSort fun a b => a.contingent ≤ b.contingent

end StnuLink

end TemporalNetwork
