import TemporalNetwork.Queue.MinQueue
import TemporalNetwork.Stnu.Run

/-!
Potentials. A potential `p` has `p v ≤ p u + w` for every edge `u → v` of weight `w`, where the
weight is the lesser of the ordinary and the lower-case value; the reduced weights `w + p u − p v`
are then not negative, and shortest paths are found node by node.
-/

namespace TemporalNetwork

namespace Network

def potential (g : PlainNetwork) (n : NodeId) : Int := (g.nodeD n).potential

/-- The weight of an edge, if there is one. -/
def weightBetween? (g : PlainNetwork) (source target : NodeId) : Option Int :=
  (g.edgeBetween? source target).bind PlainEdge.lowerOrOrdinary?

/-- The edges with their weights, by increasing number. -/
def weightedEdges (g : PlainNetwork) : List (NodeId × NodeId × Int) :=
  g.edgeIds.filterMap fun e =>
    (g.slot? e).bind fun slot =>
      slot.payload.lowerOrOrdinary?.map fun w => (slot.source, slot.target, w)

def setPotentials (g : PlainNetwork) (p : Array Int) : PlainNetwork :=
  { g with nodes := g.nodes.mapIdx fun i n => { n with potential := p.getD i 0 } }

end Network

namespace Potential

/-- Lowers the distance of the target of each edge in turn; tells whether one changed. -/
def relax (edges : List (NodeId × NodeId × Int)) (distances : Array Int) : Array Int × Bool :=
  edges.foldl (fun (d, changed) (source, target, w) =>
    let distance := d.getD source 0 + w
    if distance < d.getD target 0 then (d.setIfInBounds target distance, true) else (d, changed))
    (distances, false)

/-- Relaxes until nothing changes, in at most `rounds` rounds. -/
def relaxWithin (edges : List (NodeId × NodeId × Int)) :
    (rounds : Nat) → Array Int → Option (Array Int)
  | 0, _ => none
  | rounds + 1, distances =>
    match relax edges distances with
    | (d, true) => relaxWithin edges rounds d
    | (d, false) => some d

/-- The distances from a source with an edge of weight 0 to every node; none if there is a negative
cycle, which never comes to rest. -/
def distances? (g : PlainNetwork) : Option (Array Int) :=
  relaxWithin g.weightedEdges (g.nodeCount + 1) (Array.replicate g.nodeCount 0)

/-- Computes the potential of every node anew. -/
def compute {σ : Type} : StnuM σ Unit := do
  StnuM.count fun s => { s with bellmanFordRuns := s.bellmanFordRuns + 1 }
  match distances? (← StnuM.network) with
  | none => throw .notControllable
  | some d => StnuM.modifyNetwork fun g => g.setPotentials d

/-- The nodes whose potential drops when the potential of one of them drops by `decrease`, with
their new potentials: those closer than `decrease` in reduced weights. At most `fuel` nodes are
settled. -/
def lowered (g : PlainNetwork) (decrease : Int) :
    (fuel : Nat) → MinQueue → (settled : Array Bool) → List (NodeId × Int)
  | 0, _, _ => []
  | fuel + 1, queue, settled =>
    match queue.popMin with
    | none => []
    | some ((n, key), queue) =>
      let settled := settled.setIfInBounds n true
      let queue := (g.outEdges n).foldl (fun queue (successor, e) =>
        if settled.getD successor false then queue
        else
          match (g.edge? e).bind PlainEdge.lowerOrOrdinary? with
          | none => queue
          | some w =>
            let successorKey := key + (w + g.potential n - g.potential successor)
            if successorKey < decrease then (queue.insertOrDecrease successor successorKey).1
            else queue) queue
      (n, g.potential n - (decrease - key)) :: lowered g decrease fuel queue settled

/-- The potential that the tightened edges `source → n` leave to `n`. -/
def leastOver (g : PlainNetwork) (n : NodeId) (sources : List NodeId) : Int :=
  (sources.filterMap fun s => (g.weightBetween? s n).map fun w => g.potential s + w).foldl min
    (g.potential n)

/-- Repairs the potential after the edges `source → n` have been tightened. If one of these edges
still violates the potential, it closes a negative cycle. -/
def repair {σ : Type} (n : NodeId) (sources : List NodeId) : StnuM σ Unit := do
  let g ← StnuM.network
  let decrease := g.potential n - leastOver g n sources
  if decrease ≤ 0 then return
  StnuM.count fun s => { s with potentialUpdates := s.potentialUpdates + 1 }
  let updates := lowered g decrease (g.nodeCount + 1) (MinQueue.empty.insertOrDecrease n 0).1
    (Array.replicate g.nodeCount false)
  let g := updates.foldl (fun g (m, p) => g.modifyNode m fun node => { node with potential := p }) g
  StnuM.modifyNetwork fun _ => g
  if leastOver g n sources < g.potential n then throw .notControllable

end Potential

end TemporalNetwork
