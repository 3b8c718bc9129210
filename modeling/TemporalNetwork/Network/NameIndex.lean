import TemporalNetwork.Network.Edit

/-!
Networks that keep tables of their names. Nodes and edges are looked up by name in tables of their own,
and every operation that adds, renames, renumbers or removes one of them brings its table up to date.
-/

namespace TemporalNetwork

/-- A table of numbers by name. -/
structure NameIndex where
  /-- One entry per name. -/
  entries : List (String × Nat)
  deriving Repr

namespace NameIndex

def empty : NameIndex := ⟨[]⟩

def size (i : NameIndex) : Nat := i.entries.length

def find? (i : NameIndex) (name : String) : Option Nat :=
  (i.entries.find? fun e => e.1 == name).map Prod.snd

def erase (i : NameIndex) (name : String) : NameIndex :=
  ⟨i.entries.filter fun e => e.1 != name⟩

/-- Enters a number under a name, in place of the one that is there. -/
def insert (i : NameIndex) (name : String) (k : Nat) : NameIndex :=
  ⟨(name, k) :: (i.erase name).entries⟩

end NameIndex

structure IndexedNetwork (E : Type) where
  network : Network E
  nodeIndex : NameIndex
  edgeIndex : NameIndex

namespace IndexedNetwork

variable {E : Type}

def empty : IndexedNetwork E := ⟨.empty, .empty, .empty⟩

def findNode? (m : IndexedNetwork E) (name : String) : Option NodeId := m.nodeIndex.find? name

def findEdgeByName? (m : IndexedNetwork E) (name : String) : Option EdgeId := m.edgeIndex.find? name

/-- The number of edges, which is that of their names. -/
def edgeCount (m : IndexedNetwork E) : Nat := m.edgeIndex.size

def addNode (m : IndexedNetwork E) (n : Node) : Option (IndexedNetwork E × NodeId) :=
  if (m.findNode? n.name).isSome then none
  else
    (m.network.addNode n).map fun (g, id) =>
      ({ m with network := g, nodeIndex := m.nodeIndex.insert n.name id }, id)

/-- Changes a node but not its name. -/
def modifyNode (m : IndexedNetwork E) (n : NodeId) (f : Node → Node) : IndexedNetwork E :=
  { m with network := m.network.modifyNode n f }

def renameNode (m : IndexedNetwork E) (n : NodeId) (name : String) :
    Except Fault (IndexedNetwork E × Bool) :=
  match m.findNode? name with
  | some present => .ok (m, present == n)
  | none =>
    match m.network.node? n with
    | none => .error .outOfRange
    | some node =>
      .ok ({ m with
        network := m.network.modifyNode n fun node => { node with name := name }
        nodeIndex := (m.nodeIndex.erase node.name).insert name n }, true)

def insertEdge (m : IndexedNetwork E) (name : String) (payload : E) (source target : NodeId) :
    IndexedNetwork E × EdgeId :=
  let (g, e) := m.network.insertEdge name payload source target
  ({ m with network := g, edgeIndex := m.edgeIndex.insert name e }, e)

def addEdgeBetween (m : IndexedNetwork E) (name : String) (payload : E) (source target : NodeId) :
    Option (IndexedNetwork E × EdgeId) :=
  if m.network.nodeCount ≤ source ∨ m.network.nodeCount ≤ target ∨
      (m.findEdgeByName? name).isSome ∨ (m.network.findEdge? source target).isSome then none
  else some (m.insertEdge name payload source target)

def addEdge (m : IndexedNetwork E) (name : String) (payload : E) (source target : String) :
    Option (IndexedNetwork E × EdgeId) := do
  m.addEdgeBetween name payload (← m.findNode? source) (← m.findNode? target)

def freshEdgeName (m : IndexedNetwork E) (source target : Node) : String :=
  let base := source.name ++ "_" ++ target.name
  firstUnused (fun name => (m.findEdgeByName? name).isSome)
    (fun i => if i = 0 then base else base ++ "_" ++ toString i) (m.edgeCount + 1) 0

/-- The edge from `source` to `target`, added with the given payload if there is none; its name is
made of the names of its ends. -/
def edgeOrInsert (m : IndexedNetwork E) (source target : NodeId) (payload : E) :
    Except Fault (IndexedNetwork E × EdgeId) :=
  match m.network.findEdge? source target with
  | some e => .ok (m, e)
  | none => do
    let first ← m.network.node source
    let second ← m.network.node target
    return m.insertEdge (m.freshEdgeName first second) payload source target

def modifyEdge (m : IndexedNetwork E) (e : EdgeId) (f : E → E) : IndexedNetwork E :=
  { m with network := m.network.modifyEdge e f }

def renameEdge (m : IndexedNetwork E) (e : EdgeId) (name : String) : IndexedNetwork E × Bool :=
  match m.findEdgeByName? name with
  | some present => (m, present == e)
  | none =>
    match m.network.slot? e with
    | none => (m, false)
    | some slot =>
      ({ m with
        network := (m.network.renameEdge e name).1
        edgeIndex := (m.edgeIndex.erase slot.name).insert name e }, true)

def removeEdge (m : IndexedNetwork E) (e : EdgeId) : IndexedNetwork E × Option E :=
  match m.network.slot? e with
  | none => (m, none)
  | some slot =>
    ({ m with
      network := (m.network.removeEdge e).1
      edgeIndex := m.edgeIndex.erase slot.name }, some slot.payload)

/-- Removes a node after its edges; the name of the last node stands for the free number then. -/
def removeNode [EdgePayload E] (m : IndexedNetwork E) (n : NodeId) :
    Option (IndexedNetwork E × Node) :=
  let incident := (m.network.outEdges n ++ m.network.inEdges n).map Prod.snd
  let isolated := incident.foldl (fun m e => (m.removeEdge e).1) m
  (isolated.network.removeNode n).map fun (g, removed) =>
    let remaining := m.nodeIndex.erase removed.name
    ({ isolated with
      network := g
      nodeIndex := if n = g.nodeCount then remaining else remaining.insert (g.nodeName n) n },
      removed)

def reverse (m : IndexedNetwork E) : IndexedNetwork E := { m with network := m.network.reverse }

def setZ (m : IndexedNetwork E) (z : NodeId) : IndexedNetwork E :=
  { m with network := m.network.setZ z }

def setActivation (m : IndexedNetwork E) (contingent activation : NodeId) : IndexedNetwork E :=
  { m with network := m.network.setActivation contingent activation }

end IndexedNetwork

end TemporalNetwork
