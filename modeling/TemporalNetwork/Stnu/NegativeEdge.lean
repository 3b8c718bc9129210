import TemporalNetwork.Queue.MinQueue
import TemporalNetwork.Stnu.NormalForm
import TemporalNetwork.Stnu.Run

/-!
Controllability by one back-propagation per node with a negative incoming edge. It extends the
negative edges backwards along edges that are not negative; a node on the way that has a negative
incoming edge itself is treated first.
-/

namespace TemporalNetwork

inductive NodeStatus where
  | unvisited
  | inProgress
  | done
  deriving DecidableEq, Repr

namespace PlainEdge

/-- The negative values of an edge; an upper-case value comes with its contingent node. -/
def negativeStarts (e : PlainEdge) : List (Value × Option NodeId) :=
  ((e.value?.filter (· < 0)).map fun v => (v, none)).toList ++
    ((e.upper?.filter fun c => c.value < 0).map fun c => (c.value, some c.contingent)).toList

/-- The value with which an edge extends a path that starts at the upper-case edge of `origin`. A
lower-case value cannot extend a path from the upper-case edge of its own link. -/
def extension? (e : PlainEdge) (origin : Option NodeId) : Option Value :=
  lesser (e.value?.filter (0 ≤ ·))
    ((e.lower?.filter fun c => 0 ≤ c.value ∧ some c.contingent ≠ origin).map CaseValue.value)

end PlainEdge

namespace Network

def hasNegativeInEdge (g : PlainNetwork) (n : NodeId) : Bool :=
  (g.inEdges n).any fun (_, e) => (g.edge? e).any fun edge => !edge.negativeStarts.isEmpty

end Network

/-- The paths that lead backwards from one node. -/
structure Frontier where
  queue : MinQueue
  settled : Array Bool
  /-- For each node, the contingent node of the upper-case edge its path ends with. -/
  origins : Array (Option NodeId)

namespace Frontier

/-- Notes a path to `n`, unless one as short is known. -/
def offer (f : Frontier) (n : NodeId) (distance : Int) (origin : Option NodeId) : Frontier :=
  let (queue, changed) := f.queue.insertOrDecrease n distance
  if changed then { f with queue := queue, origins := f.origins.setIfInBounds n origin }
  else { f with queue := queue }

/-- The negative edges into `source`. -/
def ofSource (g : PlainNetwork) (source : NodeId) : Frontier :=
  (g.inEdges source).foldl (fun f (n, e) =>
    ((g.edge? e).map PlainEdge.negativeStarts).getD [] |>.foldl (fun f (v, origin) =>
      f.offer n v origin) f)
    ⟨.empty, Array.replicate g.nodeCount false, Array.replicate g.nodeCount none⟩

/-- Extends the path to `n` of the given length by the edges into `n`. -/
def extend (f : Frontier) (g : PlainNetwork) (n : NodeId) (distance : Int) : Frontier :=
  let origin := f.origins.getD n none
  (g.inEdges n).foldl (fun f (m, e) =>
    if f.settled.getD m false then f
    else
      match (g.edge? e).bind fun edge => edge.extension? origin with
      | none => f
      | some w => f.offer m (distance + w) origin) f

end Frontier

abbrev NodeRun := StnuM NodeStatus

namespace NodeRun

open StnuM

/-- Settles the nodes of the frontier by increasing distance, at most `fuel` of them; `visit` treats
a node with a negative incoming edge. -/
def drain (visit : NodeId → NodeRun Unit) (source : NodeId) :
    (fuel : Nat) → Frontier → NodeRun Unit
  | 0, _ => return
  | fuel + 1, f => do
    match f.queue.popMin with
    | none => return
    | some ((n, distance), queue) =>
      let f := { f with queue := queue, settled := f.settled.setIfInBounds n true }
      if 0 ≤ distance then
        if n ≠ source then
          match weight? distance with
          | .error e => throw (.range e)
          | .ok w => discard <| derive n source w
        drain visit source fuel f
      else if n = source then throw .notControllable
      else
        if (← network).hasNegativeInEdge n then visit n
        drain visit source fuel (f.extend (← network) n distance)

/-- The back-propagation of `source`, which is nested at most `depth` deep. Nodes that wait for each
other in a circle cannot be controlled. -/
def backPropagate (stops : Polls) : (depth : Nat) → (source : NodeId) → NodeRun Unit
  | 0, _ => return
  | depth + 1, source => do
    match ← status? source with
    | some .done => return
    | some .inProgress => throw .notControllable
    | _ =>
      poll stops
      setStatus source .inProgress
      count fun s => { s with backPropagations := s.backPropagations + 1 }
      let g ← network
      drain (backPropagate stops depth) source (g.nodeCount + 1) (Frontier.ofSource g source)
      setStatus source .done

/-- Treats every node that has a negative incoming edge at the start. Each nesting treats a further
node. -/
def processAll (stops : Polls) : NodeRun Unit := do
  let g ← network
  (g.nodeIds.filter g.hasNegativeInEdge).forM (backPropagate stops (g.nodeCount + 1))

end NodeRun

end TemporalNetwork
