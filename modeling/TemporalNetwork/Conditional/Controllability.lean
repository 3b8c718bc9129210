import TemporalNetwork.Conditional.Consistency

/-!
Dynamic controllability of conditional simple temporal networks with uncertainty. After the rules
have reached a fixpoint, the network in which every contingent duration takes its maximum is checked
for consistency.
-/

namespace TemporalNetwork

/-- The edge when every contingent duration takes its maximum: upper-case values become ordinary,
lower-case values are dropped, and a contingent edge becomes an ordinary one. Values with unknown
literals are left out. -/
def LabeledEdge.allMax (e : LabeledEdge) : LabeledEdge :=
  let known := e.dropUnknown
  let merged := known.upper.entries.foldl (fun e v => (e.mergeOrdinary v.2.1 v.2.2).1) known
  let plain := merged.clearCase
  if plain.kind = .contingent then { plain with kind := .ordinary } else plain

def Network.allMaxProjection (g : LabeledNetwork) : LabeledNetwork :=
  { g with slots := g.slots.map (Option.map fun slot =>
      { slot with payload := slot.payload.allMax }) }

structure CstnuChecker where
  network : LabeledNetwork
  options : CheckerOptions
  stage : Stage
  status : CheckStatus
  z : Option NodeId
  horizon : Option Horizon
  links : List ContingentLink

namespace CstnuChecker

def ofNetwork (network : LabeledNetwork) (options : CheckerOptions) : CstnuChecker :=
  ⟨network, options, .uninitialised, .fresh, none, none, []⟩

def horizonValue? (c : CstnuChecker) : Option Value := c.horizon.map Horizon.value

def rules : RuleSet := .withCases

/-- Repairs the network, sets up its contingent links, and bounds every node by the horizon. -/
def prepare (withNodeLabels : Bool) :
    Preparation LabeledEdge (NodeId × List ContingentLink × Horizon) := do
  let z ← WellDefined.prepare withNodeLabels
  let links ← ContingentLink.prepareAll
  match (← Preparation.network).horizon? with
  | .error e => throw (.range e)
  | .ok horizon =>
    Preparation.modifyNetwork fun g => g.addBounds z horizon.value withNodeLabels
    return (z, links, horizon)

/-- Prepares the network; does nothing if that has been done. -/
def initialise (c : CstnuChecker) : CstnuChecker × Except Failure Unit :=
  if c.stage ≠ .uninitialised then (c, .ok ())
  else
    match (prepare c.options.withNodeLabels).run ⟨c.network, c.status.fixes⟩ with
    | .ok (z, links, horizon) d =>
      ({ c with
        network := d.network
        status := { c.status with fixes := d.fixes }
        z := some z
        horizon := some horizon
        links := links
        stage := .initialised }, .ok ())
    | .error e d =>
      ({ c with network := d.network, status := { c.status with fixes := d.fixes } }, .error e)

def context (c : CstnuChecker) (z : NodeId) (horizon : Horizon) : RuleContext where
  z := z
  horizon := horizon.value
  withNodeLabels := c.options.withNodeLabels
  onlyToZ := false
  rules := rules
  links := c.links
  observations := c.network.observations

/-- Checks the network of maximal durations and takes its outcome over. -/
def checkProjection (g : LabeledNetwork) (options : CheckerOptions) (stops : Polls)
    (s : CheckStatus) : Except Failure CheckStatus :=
  let projection := CstnChecker.ofNetwork g.allMaxProjection { options with onlyToZ := false } .full
  match (projection.check stops).2 with
  | .error e => .error e
  | .ok projected =>
    let s := s.addCounters projected
    match projected.outcome with
    | .consistent => .ok s.setConsistent
    | .inconsistent => .ok (s.setInconsistent projected.negativeLoop)
    | .timeout => .ok s.setTimeout
    | .cycleBoundExceeded => .ok s.setCycleBoundExceeded
    | .notFinished => .ok s

/-- Checks the network, which is prepared first if need be. A check that has finished is not
repeated. -/
def check (c : CstnuChecker) (stops : Polls) : CstnuChecker × Except Failure CheckStatus :=
  if c.stage.isFinished then (c, .ok c.status)
  else
    match c.initialise with
    | (c, .error e) => (c, .error e)
    | (c, .ok ()) =>
      match c.stage, c.z, c.horizon with
      | .initialised, some z, some horizon =>
        let bound := c.network.cycleBound horizon.maxWeight
        let (g, status, polls, halt) :=
          c.status.propagate c.network (c.context z horizon) stops bound
        let recorded := match halt with
          | none => checkProjection g c.options (fun k => stops (polls + k)) status
          | some h => (status.recordHalt h).mapError .range
        match recorded with
        | .ok status =>
          ({ c with network := g, status := status, stage := .finished status.outcome },
            .ok status)
        | .error e =>
          ({ c with network := g, status := status, stage := .propagating }, .error e)
      | _, _, _ => (c, .error (.fault .halfPropagated))

/-- Checks the network within the time of the options. -/
def initialiseAndCheck (c : CstnuChecker) : CstnuChecker × Except Failure CheckStatus :=
  c.check c.options.polls

end CstnuChecker

end TemporalNetwork
