import TemporalNetwork.Check.Options
import TemporalNetwork.Check.Status
import TemporalNetwork.Stnu.Link

/-!
A run of one of the algorithms for networks without propositions. What it has derived up to an
interruption stays in the network.
-/

namespace TemporalNetwork

/-- Why a run stops without the conclusion that the network is controllable. -/
inductive Interruption where
  | notControllable
  | timeout
  | range (e : RangeError)
  deriving DecidableEq, Repr

/-- The state of a run; `σ` is the progress of a link or of a node. -/
structure StnuRun (σ : Type) where
  network : PlainNetwork
  statistics : StnuStatistics
  polls : Nat
  statuses : Array σ
  /-- The changes of status, the latest first. -/
  moves : List (Nat × σ)

/-- The state in which a run begins. -/
def StnuRun.start {σ : Type} (g : PlainNetwork) (statistics : StnuStatistics)
    (statuses : Array σ) : StnuRun σ :=
  ⟨g, statistics, 0, statuses, []⟩

abbrev StnuM (σ : Type) := EStateM Interruption (StnuRun σ)

namespace StnuM

variable {σ : Type}

/-- Asks whether to stop. -/
def poll (stops : Polls) : StnuM σ Unit := fun s =>
  let next := { s with polls := s.polls + 1 }
  if stops s.polls then .error .timeout next else .ok () next

def network : StnuM σ PlainNetwork := do return (← get).network

def modifyNetwork (f : PlainNetwork → PlainNetwork) : StnuM σ Unit :=
  modify fun s => { s with network := f s.network }

def count (f : StnuStatistics → StnuStatistics) : StnuM σ Unit :=
  modify fun s => { s with statistics := f s.statistics }

def status? (i : Nat) : StnuM σ (Option σ) := do return (← get).statuses[i]?

def setStatus (i : Nat) (status : σ) : StnuM σ Unit :=
  modify fun s => { s with
    statuses := s.statuses.setIfInBounds i status
    moves := (i, status) :: s.moves }

/-- Tightens an edge and counts it if it changed. -/
def derive (source target : NodeId) (value : Value) : StnuM σ Bool := do
  let changed ← modifyGet fun s =>
    let (g, changed) := s.network.tighten source target value
    (changed, { s with network := g })
  if changed then count fun s => { s with derivedEdges := s.derivedEdges + 1 }
  return changed

end StnuM

/-- A derived distance as the value of an edge, which has to be finite. -/
def weight? (distance : Int) : Except RangeError Value :=
  if Value.IsFinite distance then .ok distance else .error (.weightOverflow distance)

end TemporalNetwork
