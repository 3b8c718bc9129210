import TemporalNetwork.Stnu.BackPropagation
import TemporalNetwork.Stnu.NegativeEdge

/-!
Dynamic controllability of simple temporal networks with uncertainty. The checker adds the edges it
derives to its network.
-/

namespace TemporalNetwork

structure StnuChecker where
  network : PlainNetwork
  options : CheckerOptions
  stage : Stage
  status : CheckStatus
  links : List StnuLink

namespace StnuChecker

def ofNetwork (network : PlainNetwork) (options : CheckerOptions) : StnuChecker :=
  ⟨network, options, .uninitialised, .fresh, []⟩

/-- Prepares the network; does nothing if that has been done. -/
def initialise (c : StnuChecker) : StnuChecker × Except Failure Unit :=
  if c.stage ≠ .uninitialised then (c, .ok ())
  else
    match StnuLink.prepareAll.run ⟨c.network, c.status.fixes⟩ with
    | .ok links d =>
      ({ c with
        network := d.network
        status := { c.status with fixes := d.fixes }
        links := links
        stage := .initialised }, .ok ())
    | .error e d =>
      ({ c with network := d.network, status := { c.status with fixes := d.fixes } }, .error e)

/-- What a run leaves behind. -/
structure Result where
  network : PlainNetwork
  statistics : StnuStatistics
  links : List StnuLink
  interruption : Option Interruption

/-- Runs a computation from the given statuses. -/
def runFrom {σ : Type} (m : StnuM σ Unit) (g : PlainNetwork) (statistics : StnuStatistics)
    (statuses : Array σ) (links : List StnuLink) : Result :=
  match m.run (.start g statistics statuses) with
  | .ok () s => ⟨s.network, s.statistics, links, none⟩
  | .error i s => ⟨s.network, s.statistics, links, some i⟩

/-- Runs an algorithm on a prepared network. -/
def runAlgorithm (algorithm : StnuAlgorithm) (g : PlainNetwork) (links : List StnuLink)
    (statistics : StnuStatistics) (stops : Polls) : Result :=
  let byLinks := fun incremental =>
    runFrom (do Potential.compute; LinkRun.processAll links incremental stops) g statistics
      (Array.replicate links.length .unstarted) links
  match algorithm with
  | .rul2018 => byLinks false
  | .rul2020 => byLinks true
  | .morris2014 =>
    let (g, links, added) := NormalForm.ofLinks g links
    runFrom (NodeRun.processAll stops) g
      { statistics with normalFormNodes := statistics.normalFormNodes + added }
      (Array.replicate g.nodeCount .unvisited) links

/-- Checks the network, which is prepared first if need be. A check that has finished is not
repeated. -/
def check (c : StnuChecker) (stops : Polls) : StnuChecker × Except Failure CheckStatus :=
  if c.stage.isFinished then (c, .ok c.status)
  else
    match c.initialise with
    | (c, .error e) => (c, .error e)
    | (c, .ok ()) =>
      if c.stage ≠ .initialised then (c, .error (.fault .halfPropagated))
      else
        let r := runAlgorithm c.options.algorithm c.network c.links c.status.stnu stops
        let status := { c.status with stnu := r.statistics }
        let finish := fun (status : CheckStatus) =>
          ({ c with
            network := r.network
            status := status
            links := r.links
            stage := .finished status.outcome }, Except.ok status)
        match r.interruption with
        | none => finish status.setConsistent
        | some .notControllable => finish (status.setInconsistent none)
        | some .timeout => finish status.setTimeout
        | some (.range e) =>
          ({ c with network := r.network, status := status, links := r.links,
                    stage := .propagating }, .error (.range e))

/-- Checks the network within the time of the options. -/
def initialiseAndCheck (c : StnuChecker) : StnuChecker × Except Failure CheckStatus :=
  c.check c.options.polls

end StnuChecker

end TemporalNetwork
