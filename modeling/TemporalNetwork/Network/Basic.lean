import TemporalNetwork.Fault
import TemporalNetwork.Network.Adjacency
import TemporalNetwork.Network.Node

/-!
Temporal networks: named nodes, and named edges with at most one edge for each ordered pair of
nodes.
-/

namespace TemporalNetwork

structure EdgeSlot (E : Type) where
  name : String
  source : NodeId
  target : NodeId
  payload : E
  deriving Repr

structure Network (E : Type) where
  nodes : Array Node
  adjacency : Adjacency
  /-- The edges by number; a removed edge leaves an empty slot. -/
  slots : Array (Option (EdgeSlot E))
  /-- The empty slots, the last one removed first. -/
  free : List EdgeId
  /-- The reference node every other node is scheduled relative to. -/
  z : Option NodeId
  /-- The contingent nodes with their activation nodes. -/
  activations : List (NodeId × NodeId)
  deriving Repr

/-- The first of `name i`, `name (i + 1)`, … which is not taken, among `fuel` of them. -/
def firstUnused (taken : String → Bool) (name : Nat → String) : (fuel : Nat) → (i : Nat) → String
  | 0, i => name i
  | fuel + 1, i => if taken (name i) then firstUnused taken name fuel (i + 1) else name i

namespace Network

variable {E : Type}

def empty : Network E := ⟨#[], .empty, #[], [], none, []⟩

instance : Inhabited (Network E) := ⟨empty⟩

def nodeCount (g : Network E) : Nat := g.nodes.size

def nodeIds (g : Network E) : List NodeId := List.range g.nodeCount

def node? (g : Network E) (n : NodeId) : Option Node := g.nodes[n]?

/-- The node numbered `n`; a nameless node if there is none. -/
def nodeD (g : Network E) (n : NodeId) : Node := (g.node? n).getD (Node.named "")

def node (g : Network E) (n : NodeId) : Except Fault Node :=
  match g.node? n with
  | some node => .ok node
  | none => .error .outOfRange

def nodeName (g : Network E) (n : NodeId) : String := (g.nodeD n).name

def findNode? (g : Network E) (name : String) : Option NodeId :=
  g.nodes.findIdx? fun n => n.name == name

def slot? (g : Network E) (e : EdgeId) : Option (EdgeSlot E) := (g.slots[e]?).join

def slot (g : Network E) (e : EdgeId) : Except Fault (EdgeSlot E) :=
  match g.slot? e with
  | some slot => .ok slot
  | none => .error (.removedEdge e)

def edge? (g : Network E) (e : EdgeId) : Option E := (g.slot? e).map EdgeSlot.payload

def edgeName (g : Network E) (e : EdgeId) : String := ((g.slot? e).map EdgeSlot.name).getD ""

/-- The edges, by increasing number. -/
def edgeIds (g : Network E) : List EdgeId :=
  (List.range g.slots.size).filter fun e => (g.slot? e).isSome

def edgeCount (g : Network E) : Nat := g.slots.countP Option.isSome

def findEdge? (g : Network E) (source target : NodeId) : Option EdgeId :=
  g.adjacency.get? source target

def findEdgeByName? (g : Network E) (name : String) : Option EdgeId :=
  g.slots.findIdx? fun s => s.any fun slot => slot.name == name

/-- The payload of the edge from `source` to `target`. -/
def edgeBetween? (g : Network E) (source target : NodeId) : Option E :=
  (g.findEdge? source target).bind g.edge?

/-- The edges leaving `n` with their targets. -/
def outEdges (g : Network E) (n : NodeId) : List (NodeId × EdgeId) := g.adjacency.row n

/-- The edges entering `n` with their sources. -/
def inEdges (g : Network E) (n : NodeId) : List (NodeId × EdgeId) := g.adjacency.column n

/-- The edges leaving `n`, for a number that need not be a node's. -/
def outEdges? (g : Network E) (n : NodeId) : Except Fault (List (NodeId × EdgeId)) :=
  if g.adjacency.hasRow n then .ok (g.outEdges n) else .error .outOfRange

/-- The edges entering `n`, for a number that need not be a node's. -/
def inEdges? (g : Network E) (n : NodeId) : Except Fault (List (NodeId × EdgeId)) :=
  if g.adjacency.hasColumn n then .ok (g.inEdges n) else .error .outOfRange

def activation? (g : Network E) (contingent : NodeId) : Option NodeId :=
  (g.activations.find? fun a => a.1 == contingent).map Prod.snd

/-- The contingent links as pairs of activation and contingent node, by contingent node. -/
def contingentLinks (g : Network E) : List (NodeId × NodeId) :=
  (g.activations.mergeSort fun a b => a.1 ≤ b.1).map fun a => (a.2, a.1)

/-- The edges of kind `contingent`, by increasing number. -/
def contingentEdges [EdgePayload E] (g : Network E) : List EdgeId :=
  g.edgeIds.filter fun e => (g.edge? e).any fun p => EdgePayload.kind p == .contingent

end Network

/-- The node that observes `p`; the one with the smallest number if there are several. -/
def observerAmong? (nodes : Array Node) (p : Proposition) : Option NodeId :=
  nodes.findIdx? fun n => n.observed == some p

/-- The propositions other than `p` whose observer's label mentions `p`. -/
def childrenAmong (nodes : Array Node) (p : Proposition) : PropositionSet :=
  .ofList <| Proposition.all.filter fun q =>
    q != p && ((observerAmong? nodes q).bind fun n => nodes[n]?).any fun n => n.label.mentions p

/-- Who observes what, tabulated. -/
structure ObservationIndex where
  observers : Vector (Option NodeId) 32
  children : Vector PropositionSet 32
  propositions : PropositionSet
  deriving DecidableEq, Repr

def ObservationIndex.ofNodes (nodes : Array Node) : ObservationIndex where
  observers := Vector.ofFn (observerAmong? nodes)
  children := Vector.ofFn (childrenAmong nodes)
  propositions := .ofList (nodes.toList.filterMap Node.observed)

namespace ObservationIndex

def observer? (i : ObservationIndex) (p : Proposition) : Option NodeId := i.observers[p]

def childrenOf (i : ObservationIndex) (p : Proposition) : PropositionSet := i.children[p]

end ObservationIndex

def Network.observations {E : Type} (g : Network E) : ObservationIndex := .ofNodes g.nodes

end TemporalNetwork
