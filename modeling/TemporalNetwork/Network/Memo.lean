import TemporalNetwork.Network.Edit

/-!
Networks that remember answers. What the nodes observe and which edges are contingent is worked out
when it is first asked for and kept until a change that could affect it.
-/

namespace TemporalNetwork

namespace ObservationIndex

/-- The index before a node has been looked at. -/
def empty : ObservationIndex := ⟨Vector.replicate 32 none, Vector.replicate 32 .empty, .empty⟩

/-- Enters what a node observes; of several observers of a proposition the first one stays. -/
def enterNode (i : ObservationIndex) (n : NodeId) (node : Node) : ObservationIndex :=
  match node.observed with
  | none => i
  | some p =>
    { i with
      observers := i.observers.setIfInBounds p.val ((i.observer? p).or (some n))
      propositions := i.propositions.insert p }

def addChild (i : ObservationIndex) (child parent : Proposition) : ObservationIndex :=
  if parent = child then i
  else { i with children := i.children.setIfInBounds parent.val ((i.childrenOf parent).insert child) }

/-- Enters a proposition as a child of those that the label of its observer mentions. -/
def enterChild (nodes : Array Node) (i : ObservationIndex) (child : Proposition) : ObservationIndex :=
  match (i.observer? child).bind fun n => nodes[n]? with
  | none => i
  | some node => node.label.propositions.toList.foldl (fun i parent => i.addChild child parent) i

/-- The index as it is put together: a pass over the nodes finds the observers, and one over the
propositions their children. -/
def gather (nodes : Array Node) : ObservationIndex :=
  let observers := nodes.toList.zipIdx.foldl (fun i entry => i.enterNode entry.2 entry.1) empty
  Proposition.all.foldl (enterChild nodes) observers

end ObservationIndex

structure MemoNetwork (E : Type) where
  network : Network E
  /-- What the nodes observe, if that has been worked out. -/
  observations? : Option ObservationIndex
  /-- The contingent edges, if they have been worked out. -/
  contingentEdges? : Option (List EdgeId)

namespace MemoNetwork

variable {E : Type}

def ofNetwork (g : Network E) : MemoNetwork E := ⟨g, none, none⟩

def empty : MemoNetwork E := ofNetwork .empty

/-- What the nodes observe; the answer is kept. -/
def observations (m : MemoNetwork E) : MemoNetwork E × ObservationIndex :=
  match m.observations? with
  | some i => (m, i)
  | none =>
    let i := .gather m.network.nodes
    ({ m with observations? := some i }, i)

/-- The contingent edges by increasing number; the answer is kept. -/
def contingentEdges [EdgePayload E] (m : MemoNetwork E) : MemoNetwork E × List EdgeId :=
  match m.contingentEdges? with
  | some es => (m, es)
  | none =>
    let es := m.network.contingentEdges
    ({ m with contingentEdges? := some es }, es)

def observer? (m : MemoNetwork E) (p : Proposition) : MemoNetwork E × Option NodeId :=
  let (m, i) := m.observations
  (m, i.observer? p)

def childrenOf (m : MemoNetwork E) (p : Proposition) : MemoNetwork E × PropositionSet :=
  let (m, i) := m.observations
  (m, i.childrenOf p)

def propositions (m : MemoNetwork E) : MemoNetwork E × PropositionSet :=
  let (m, i) := m.observations
  (m, i.propositions)

def addNode (m : MemoNetwork E) (n : Node) : Option (MemoNetwork E × NodeId) :=
  (m.network.addNode n).map fun (g, id) =>
    ({ m with network := g, observations? := none }, id)

def modifyNode (m : MemoNetwork E) (n : NodeId) (f : Node → Node) : MemoNetwork E :=
  { m with network := m.network.modifyNode n f, observations? := none }

/-- A name is not part of an answer. -/
def renameNode (m : MemoNetwork E) (n : NodeId) (name : String) :
    Except Fault (MemoNetwork E × Bool) :=
  (m.network.renameNode n name).map fun (g, done) => ({ m with network := g }, done)

def removeNode [EdgePayload E] (m : MemoNetwork E) (n : NodeId) : Option (MemoNetwork E × Node) :=
  (m.network.removeNode n).map fun (g, node) => (ofNetwork g, node)

def addEdgeBetween (m : MemoNetwork E) (name : String) (payload : E) (source target : NodeId) :
    Option (MemoNetwork E × EdgeId) :=
  (m.network.addEdgeBetween name payload source target).map fun (g, e) =>
    ({ m with network := g, contingentEdges? := none }, e)

def addEdge (m : MemoNetwork E) (name : String) (payload : E) (source target : String) :
    Option (MemoNetwork E × EdgeId) :=
  (m.network.addEdge name payload source target).map fun (g, e) =>
    ({ m with network := g, contingentEdges? := none }, e)

def edgeOrInsert (m : MemoNetwork E) (source target : NodeId) (payload : E) :
    Except Fault (MemoNetwork E × EdgeId) :=
  match m.network.findEdge? source target with
  | some e => .ok (m, e)
  | none => do
    let _ ← m.network.node source
    let _ ← m.network.node target
    let (g, e) := m.network.edgeOrInsert source target payload
    return ({ m with network := g, contingentEdges? := none }, e)

def modifyEdge (m : MemoNetwork E) (e : EdgeId) (f : E → E) : MemoNetwork E :=
  { m with network := m.network.modifyEdge e f, contingentEdges? := none }

/-- Changes the values of an edge; its kind has to stay the same. -/
def modifyValues (m : MemoNetwork E) (e : EdgeId) (f : E → E) : MemoNetwork E :=
  { m with network := m.network.modifyEdge e f }

/-- A name is not part of an answer. -/
def renameEdge (m : MemoNetwork E) (e : EdgeId) (name : String) : MemoNetwork E × Bool :=
  let (g, done) := m.network.renameEdge e name
  ({ m with network := g }, done)

def removeEdge (m : MemoNetwork E) (e : EdgeId) : MemoNetwork E × Option E :=
  match m.network.slot? e with
  | none => (m, none)
  | some slot =>
    ({ m with network := (m.network.removeEdge e).1, contingentEdges? := none }, some slot.payload)

def reverse (m : MemoNetwork E) : MemoNetwork E :=
  { m with network := m.network.reverse, contingentEdges? := none }

def setZ (m : MemoNetwork E) (z : NodeId) : MemoNetwork E :=
  { m with network := m.network.setZ z }

def setActivation (m : MemoNetwork E) (contingent activation : NodeId) : MemoNetwork E :=
  { m with network := m.network.setActivation contingent activation }

end MemoNetwork

end TemporalNetwork
