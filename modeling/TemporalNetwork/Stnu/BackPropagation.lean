import TemporalNetwork.Stnu.Potential

/-!
Controllability by one back-propagation per contingent link. A link whose back-propagation reaches
the activation node of another link waits until that one is finished.
-/

namespace TemporalNetwork

inductive LinkStatus where
  | unstarted
  | started
  | finished
  deriving DecidableEq, Repr

inductive BackPropagation where
  /-- The edges to add from each node to the activation node. -/
  | completed (edges : List (NodeId × Value))
  /-- Another link, given by its place, has to be finished first. -/
  | interrupted (next : Nat)
  | failed (i : Interruption)
  deriving DecidableEq, Repr

namespace BackPropagation

/-- What a back-propagation works on. -/
structure Query where
  network : PlainNetwork
  links : List StnuLink
  statuses : Array LinkStatus
  /-- The place of the link that propagates. -/
  index : Nat
  link : StnuLink

namespace Query

/-- The first other link activated by `n` that is not finished. -/
def unfinishedLinkAt? (q : Query) (n : NodeId) : Option Nat :=
  (List.range q.links.length).find? fun i =>
    i != q.index && (q.links[i]?).any (fun l => l.activation == n) &&
      q.statuses[i]? != some .finished

/-- The value with which an edge extends a path of length `distance`: lower-case values extend
negative paths only. -/
def stepWeight? (edge : PlainEdge) (distance : Int) : Option Value :=
  PlainEdge.lesser edge.value? (if distance < 0 then edge.lower?.map CaseValue.value else none)

/-- Extends the path from `n` by the edges into it; none if one closes a negative cycle at the
contingent node. -/
def extend? (q : Query) (distance : Int) (settled : Array Bool) :
    List (NodeId × EdgeId) → MinQueue → Option MinQueue
  | [], queue => some queue
  | (m, e) :: rest, queue =>
    if settled.getD m false then q.extend? distance settled rest queue
    else
      match (q.network.edge? e).bind fun edge => stepWeight? edge distance with
      | none => q.extend? distance settled rest queue
      | some w =>
        let d := distance + w
        if m = q.link.contingent then
          if d < 0 then none else q.extend? distance settled rest queue
        else
          let key := d + q.network.potential m - q.network.potential q.link.contingent
          q.extend? distance settled rest (queue.insertOrDecrease m key).1

/-- Settles the waiting nodes by increasing distance, at most `fuel` of them. A node whose distance
is at least the uncertainty of the link gets an edge and is not passed; `edges` is in reverse. -/
def settle (q : Query) :
    (fuel : Nat) → MinQueue → (settled : Array Bool) → (edges : List (NodeId × Value)) →
      BackPropagation
  | 0, _, _, edges => .completed edges.reverse
  | fuel + 1, queue, settled, edges =>
    match queue.popMin with
    | none => .completed edges.reverse
    | some ((n, key), queue) =>
      let settled := settled.setIfInBounds n true
      let distance := key - q.network.potential n + q.network.potential q.link.contingent
      let continueAt := fun (_ : Unit) =>
        match q.extend? distance settled (q.network.inEdges n) queue with
        | none => .failed .notControllable
        | some queue => q.settle fuel queue settled edges
      if n = q.link.activation then
        if distance < q.link.upper then .failed .notControllable
        else q.settle fuel queue settled edges
      else if n = q.link.contingent then continueAt ()
      else if q.link.upper - q.link.lower ≤ distance then
        match weight? (distance - q.link.upper) with
        | .error e => .failed (.range e)
        | .ok w => q.settle fuel queue settled ((n, w) :: edges)
      else
        match q.unfinishedLinkAt? n with
        | none => continueAt ()
        | some other =>
          if q.statuses[other]? = some .started then .failed .notControllable
          else .interrupted other

end Query

/-- The back-propagation of the link at place `index`, from its contingent node. -/
def ofLink (g : PlainNetwork) (links : List StnuLink) (statuses : Array LinkStatus) (index : Nat)
    (link : StnuLink) : BackPropagation :=
  Query.settle ⟨g, links, statuses, index, link⟩ (g.nodeCount + 1)
    (MinQueue.empty.insertOrDecrease link.contingent 0).1 (Array.replicate g.nodeCount false) []

end BackPropagation

abbrev LinkRun := StnuM LinkStatus

namespace LinkRun

open StnuM

def backPropagate (links : List StnuLink) (index : Nat) (link : StnuLink) :
    LinkRun BackPropagation := do
  count fun s => { s with backPropagations := s.backPropagations + 1 }
  let s ← get
  return .ofLink s.network links s.statuses index link

def countRestart : LinkRun Unit :=
  count fun s => { s with restartedBackPropagations := s.restartedBackPropagations + 1 }

/-- Adds edges to the activation node; returns the nodes whose edge was tightened. -/
def addEdges (activation : NodeId) (edges : List (NodeId × Value)) : LinkRun (List NodeId) := do
  let tightened ← edges.filterM fun (n, value) => derive n activation value
  return tightened.map Prod.fst

/-- Finishes the link on top of the stack, or puts on top the one it waits for, at most `fuel`
times. The potential is repaired after each link. -/
def processStack (links : List StnuLink) (stops : Polls) :
    (fuel : Nat) → (stack : List Nat) → LinkRun Unit
  | _, [] => return
  | 0, _ => return
  | fuel + 1, index :: rest => do
    match links[index]? with
    | none => return
    | some link =>
      poll stops
      match ← backPropagate links index link with
      | .failed i => throw i
      | .interrupted next =>
        setStatus next .started
        countRestart
        processStack links stops fuel (next :: index :: rest)
      | .completed edges =>
        let tightened ← addEdges link.activation edges
        Potential.repair link.activation tightened
        setStatus index .finished
        processStack links stops fuel rest

/-- Finishes a link, after those it waits for; it takes at most `fuel` attempts, those of the links
it waits for included. The potential is computed anew after each link. -/
def processNested (links : List StnuLink) (stops : Polls) : (fuel : Nat) → (index : Nat) →
    LinkRun Unit
  | 0, _ => return
  | fuel + 1, index => do
    match links[index]? with
    | none => return
    | some link =>
      poll stops
      match ← backPropagate links index link with
      | .failed i => throw i
      | .interrupted next =>
        countRestart
        setStatus next .started
        processNested links stops fuel next
        processNested links stops fuel index
      | .completed edges =>
        let tightened ← addEdges link.activation edges
        if !tightened.isEmpty then Potential.compute
        setStatus index .finished

/-- Processes the link at place `index` unless that has been done. Every link is put on the stack
once and taken off once, and interrupts another one at most once. -/
def process (links : List StnuLink) (incremental : Bool) (stops : Polls) (index : Nat) :
    LinkRun Unit := do
  if (← status? index) = some .unstarted then
    setStatus index .started
    if incremental then processStack links stops (2 * links.length + 1) [index]
    else processNested links stops (links.length + 1) index

/-- Processes every link; the nodes have to hold a potential. -/
def processAll (links : List StnuLink) (incremental : Bool) (stops : Polls) : LinkRun Unit :=
  (List.range links.length).forM (process links incremental stops)

end LinkRun

end TemporalNetwork
