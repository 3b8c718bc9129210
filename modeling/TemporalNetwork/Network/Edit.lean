import TemporalNetwork.Network.Basic

/-!
Changes to a network. Node and edge names stay distinct: an operation that would repeat a name is
refused.
-/

namespace TemporalNetwork.Network

variable {E : Type}

/-- Adds a node; refused if its name is taken. A node named `Z` becomes the reference node unless
there is one. -/
def addNode (g : Network E) (n : Node) : Option (Network E × NodeId) :=
  if (g.findNode? n.name).isSome then none
  else
    let id := g.nodeCount
    some ({ g with
      nodes := g.nodes.push n
      adjacency := g.adjacency.addNode
      z := if n.name = "Z" ∧ g.z.isNone then some id else g.z }, id)

def modifyNode (g : Network E) (n : NodeId) (f : Node → Node) : Network E :=
  { g with nodes := g.nodes.modify n f }

@[simp] theorem node?_modifyNode (g : Network E) (n : NodeId) (f : Node → Node) (m : NodeId) :
    (g.modifyNode n f).node? m = if n = m then (g.node? m).map f else g.node? m := by
  simp only [node?, modifyNode, Array.getElem?_modify]

/-- Renames a node; refused if another node has the name. -/
def renameNode (g : Network E) (n : NodeId) (name : String) : Except Fault (Network E × Bool) :=
  match g.findNode? name with
  | some present => .ok (g, present == n)
  | none =>
    match g.node? n with
    | none => .error .outOfRange
    | some _ => .ok (g.modifyNode n fun node => { node with name := name }, true)

/-- Stores an edge in the slot emptied last, or in a new one. -/
def insertEdge (g : Network E) (name : String) (payload : E) (source target : NodeId) :
    Network E × EdgeId :=
  let slot := some ⟨name, source, target, payload⟩
  match g.free with
  | e :: free =>
    ({ g with
      slots := g.slots.setIfInBounds e slot
      free := free
      adjacency := g.adjacency.set source target (some e) }, e)
  | [] =>
    let e := g.slots.size
    ({ g with
      slots := g.slots.push slot
      adjacency := g.adjacency.set source target (some e) }, e)

/-- Adds an edge; refused if an end is no node, the name is taken, or the nodes are connected in
this direction. -/
def addEdgeBetween (g : Network E) (name : String) (payload : E) (source target : NodeId) :
    Option (Network E × EdgeId) :=
  if g.nodeCount ≤ source ∨ g.nodeCount ≤ target ∨ (g.findEdgeByName? name).isSome ∨
      (g.findEdge? source target).isSome then none
  else some (g.insertEdge name payload source target)

/-- Adds an edge between the nodes of the given names. -/
def addEdge (g : Network E) (name : String) (payload : E) (source target : String) :
    Option (Network E × EdgeId) := do
  g.addEdgeBetween name payload (← g.findNode? source) (← g.findNode? target)

/-- The name of a new edge: the names of its ends, and a number if that is taken. -/
def freshEdgeName (g : Network E) (source target : NodeId) : String :=
  let base := g.nodeName source ++ "_" ++ g.nodeName target
  firstUnused (fun name => (g.findEdgeByName? name).isSome)
    (fun i => if i = 0 then base else base ++ "_" ++ toString i) (g.edgeCount + 1) 0

/-- The edge from `source` to `target`, added with the given payload if there is none. -/
def edgeOrInsert (g : Network E) (source target : NodeId) (payload : E) : Network E × EdgeId :=
  match g.findEdge? source target with
  | some e => (g, e)
  | none => g.insertEdge (g.freshEdgeName source target) payload source target

def modifyEdge (g : Network E) (e : EdgeId) (f : E → E) : Network E :=
  { g with slots := g.slots.modify e fun s => s.map fun slot =>
      { slot with payload := f slot.payload } }

@[simp] theorem slot?_modifyEdge (g : Network E) (e : EdgeId) (f : E → E) (d : EdgeId) :
    (g.modifyEdge e f).slot? d =
      if e = d then (g.slot? d).map fun s => { s with payload := f s.payload } else g.slot? d := by
  simp only [slot?, modifyEdge, Array.getElem?_modify]
  by_cases same : e = d
  · cases g.slots[d]? <;> simp [same]
  · simp [same]

@[simp] theorem findEdge?_modifyEdge (g : Network E) (e : EdgeId) (f : E → E)
    (source target : NodeId) :
    (g.modifyEdge e f).findEdge? source target = g.findEdge? source target := rfl

/-- Renames an edge; refused if the edge is gone or another edge has the name. -/
def renameEdge (g : Network E) (e : EdgeId) (name : String) : Network E × Bool :=
  match g.findEdgeByName? name with
  | some present => (g, present == e)
  | none =>
    match g.slot? e with
    | none => (g, false)
    | some _ =>
      ({ g with slots := g.slots.modify e fun s => s.map fun slot =>
          { slot with name := name } }, true)

def removeEdge (g : Network E) (e : EdgeId) : Network E × Option E :=
  match g.slot? e with
  | none => (g, none)
  | some slot =>
    ({ g with
      slots := g.slots.setIfInBounds e none
      free := e :: g.free
      adjacency := g.adjacency.set slot.source slot.target none }, some slot.payload)

/-- Removes a node and its edges; the last node takes its number. -/
def removeNode [EdgePayload E] (g : Network E) (n : NodeId) : Option (Network E × Node) :=
  match g.node? n with
  | none => none
  | some removed =>
    let incident := (g.outEdges n ++ g.inEdges n).map Prod.snd
    let g := incident.foldl (fun g e => (g.removeEdge e).1) g
    let last := g.nodeCount - 1
    let moved := fun k => if k = last then n else k
    let follow := fun slot : EdgeSlot E =>
      { slot with
        source := moved slot.source
        target := moved slot.target
        payload := EdgePayload.moveNode last n slot.payload }
    some ({ g with
      nodes := (g.nodes.setIfInBounds n (g.nodeD last)).pop
      adjacency := g.adjacency.removeNode n
      slots := if n = last then g.slots else g.slots.map (Option.map follow)
      z := (g.z.filter fun z => z != n).map moved
      activations := (g.activations.filter fun a => a.1 != n && a.2 != n).map fun a =>
        (moved a.1, moved a.2) }, removed)

/-- Reverses the direction of every edge. -/
def reverse (g : Network E) : Network E :=
  { g with
    adjacency := g.adjacency.transpose
    slots := g.slots.map (Option.map fun slot =>
      { slot with source := slot.target, target := slot.source }) }

def setZ (g : Network E) (z : NodeId) : Network E := { g with z := some z }

def setActivation (g : Network E) (contingent activation : NodeId) : Network E :=
  { g with
    activations := (contingent, activation) :: g.activations.filter fun a => a.1 != contingent }

end TemporalNetwork.Network
