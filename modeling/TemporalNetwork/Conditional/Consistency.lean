import TemporalNetwork.Conditional.Propagation

/-!
Dynamic consistency of conditional simple temporal networks. The checker owns its network and adds
derived values to it.
-/

namespace TemporalNetwork

structure CstnChecker where
  network : LabeledNetwork
  options : CheckerOptions
  rules : RuleSet
  stage : Stage
  status : CheckStatus
  z : Option NodeId
  horizon : Option Horizon

/-- Records how a propagation ended; a fixpoint means consistent. A sum that is not representable is
an error and no outcome. -/
def CheckStatus.recordHalt (s : CheckStatus) : Halt → Except RangeError CheckStatus
  | .negativeLoop loop => .ok (s.setInconsistent (some loop))
  | .timeout => .ok s.setTimeout
  | .cycleBoundExceeded => .ok s.setCycleBoundExceeded
  | .sumOverflow lhs rhs => .error (.sumOverflow lhs rhs)

/-- The network and status after a propagation, the number of its polls, and why it ended. -/
def CheckStatus.propagate (s : CheckStatus) (g : LabeledNetwork) (ctx : RuleContext)
    (stops : Polls) (cycleBound : Nat) : LabeledNetwork × CheckStatus × Nat × Option Halt :=
  let finish := fun (p : Progress) (h : Option Halt) =>
    (p.network, { s with cycles := p.cycles, applied := p.applied }, p.polls, h)
  match (Propagation.toFixpoint ctx stops cycleBound).run ⟨g, s.applied, s.cycles, 0⟩ with
  | .ok () p => finish p none
  | .error h p => finish p (some h)

namespace CstnChecker

def ofNetwork (network : LabeledNetwork) (options : CheckerOptions) (rules : RuleSet) :
    CstnChecker :=
  ⟨network, options, rules, .uninitialised, .fresh, none, none⟩

/-- The horizon, known once the checker is initialised. -/
def horizonValue? (c : CstnChecker) : Option Value := c.horizon.map Horizon.value

/-- Repairs the network, computes the horizon and bounds every node by it. -/
def prepare (withNodeLabels : Bool) : Preparation LabeledEdge (NodeId × Horizon) := do
  let z ← WellDefined.prepare withNodeLabels
  let g ← Preparation.network
  match g.contingentEdges.head? with
  | some e => throw (.structural (.unsupportedContingentEdge (g.edgeName e)))
  | none =>
    match g.horizon? with
    | .error e => throw (.range e)
    | .ok horizon =>
      Preparation.modifyNetwork fun g => g.addBounds z horizon.value withNodeLabels
      return (z, horizon)

/-- Prepares the network; does nothing if that has been done. -/
def initialise (c : CstnChecker) : CstnChecker × Except Failure Unit :=
  if c.stage ≠ .uninitialised then (c, .ok ())
  else
    match (prepare c.options.withNodeLabels).run ⟨c.network, c.status.fixes⟩ with
    | .ok (z, horizon) d =>
      ({ c with
        network := d.network
        status := { c.status with fixes := d.fixes }
        z := some z
        horizon := some horizon
        stage := .initialised }, .ok ())
    | .error e d =>
      ({ c with network := d.network, status := { c.status with fixes := d.fixes } }, .error e)

def context (c : CstnChecker) (z : NodeId) (horizon : Horizon) : RuleContext where
  z := z
  horizon := horizon.value
  withNodeLabels := c.options.withNodeLabels
  onlyToZ := c.options.onlyToZ
  rules := c.rules
  links := []
  observations := c.network.observations

/-- Checks the network, which is prepared first if need be, and counts the polls. A check that has
finished is not repeated. -/
def checkCounting (c : CstnChecker) (stops : Polls) :
    CstnChecker × Nat × Except Failure CheckStatus :=
  if c.stage.isFinished then (c, 0, .ok c.status)
  else
    match c.initialise with
    | (c, .error e) => (c, 0, .error e)
    | (c, .ok ()) =>
      match c.stage, c.z, c.horizon with
      | .initialised, some z, some horizon =>
        let bound := c.network.cycleBound horizon.maxWeight
        let (g, status, polls, halt) :=
          c.status.propagate c.network (c.context z horizon) stops bound
        let recorded := match halt with
          | none => Except.ok status.setConsistent
          | some h => status.recordHalt h
        match recorded with
        | .ok status =>
          ({ c with network := g, status := status, stage := .finished status.outcome }, polls,
            .ok status)
        | .error e =>
          ({ c with network := g, status := status, stage := .propagating }, polls,
            .error (.range e))
      | _, _, _ => (c, 0, .error (.fault .halfPropagated))

def check (c : CstnChecker) (stops : Polls) : CstnChecker × Except Failure CheckStatus :=
  let (c, _, answer) := c.checkCounting stops
  (c, answer)

/-- Checks the network within the time of the options. -/
def initialiseAndCheck (c : CstnChecker) : CstnChecker × Except Failure CheckStatus :=
  c.check c.options.polls

/-- The earliest and the latest time of a node after Z which hold whenever `scenario` does. -/
def timeWindow? (c : CstnChecker) (n : NodeId) (scenario : Label) : Option (Value × Value) := do
  let z ← c.z
  let toZ ← c.network.edgeBetween? n z
  let fromZ ← c.network.edgeBetween? z n
  let earliest ← toZ.values.minSubsumed? scenario
  let latest ← fromZ.values.minSubsumed? scenario
  return ((Value.neg? earliest).getD Value.posInf, latest)

end CstnChecker

end TemporalNetwork
