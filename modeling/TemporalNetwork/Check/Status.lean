import TemporalNetwork.Check.Error
import TemporalNetwork.Check.Rule
import TemporalNetwork.Label.Text

/-!
The answer of a check, and the stages a checker goes through.
-/

namespace TemporalNetwork

inductive Outcome where
  | consistent
  | inconsistent
  | timeout
  | cycleBoundExceeded
  | notFinished
  deriving DecidableEq, Repr

def Outcome.name : Outcome → String
  | consistent => "Consistent"
  | inconsistent => "Inconsistent"
  | timeout => "Timeout"
  | cycleBoundExceeded => "CycleBoundExceeded"
  | notFinished => "NotFinished"

/-- A checker goes from the first stage to the last and never back. -/
inductive Stage where
  | uninitialised
  | initialised
  | propagating
  | finished (outcome : Outcome)
  deriving DecidableEq, Repr

namespace Stage

def isFinished : Stage → Bool
  | finished _ => true
  | _ => false

def text : Stage → String
  | uninitialised => "Uninitialized"
  | initialised => "Initialized"
  | propagating => "Propagating"
  | finished outcome => "Finished(" ++ outcome.name ++ ")"

end Stage

/-- A loop with a negative value which holds in at least one scenario. -/
structure NegativeLoop where
  /-- The name of a node on the loop. -/
  node : String
  label : Label
  value : Value
  deriving DecidableEq, Repr

def NegativeLoop.text (l : NegativeLoop) : String :=
  l.node ++ "→" ++ l.node ++ " (" ++ l.label.text ++ ", " ++ Value.text l.value ++ ")"

/-- What the check of a network without propositions did. -/
structure StnuStatistics where
  bellmanFordRuns : Nat
  backPropagations : Nat
  restartedBackPropagations : Nat
  /-- The ordinary edges added or tightened. -/
  derivedEdges : Nat
  /-- The incremental updates of the potential. -/
  potentialUpdates : Nat
  /-- The nodes added to bring the network into normal form. -/
  normalFormNodes : Nat
  deriving DecidableEq, Repr

namespace StnuStatistics

def zero : StnuStatistics := ⟨0, 0, 0, 0, 0, 0⟩

instance : Inhabited StnuStatistics := ⟨zero⟩

/-- The statistics with their names. -/
def entries (s : StnuStatistics) : List (String × Nat) :=
  [("bellman_ford_runs", s.bellmanFordRuns),
    ("back_propagations", s.backPropagations),
    ("restarted_back_propagations", s.restartedBackPropagations),
    ("derived_edges", s.derivedEdges),
    ("potential_updates", s.potentialUpdates),
    ("normal_form_nodes", s.normalFormNodes)]

end StnuStatistics

structure CheckStatus where
  /-- Whether the network is consistent, or controllable; a verdict only if `finished`. -/
  consistency : Bool
  finished : Bool
  timeout : Bool
  cycleBoundExceeded : Bool
  /-- The number of passes over the worklist. -/
  cycles : Nat
  applied : RuleCounts
  negativeLoop : Option NegativeLoop
  /-- The repairs made while the network was prepared. -/
  fixes : List String
  stnu : StnuStatistics
  deriving DecidableEq, Repr

namespace CheckStatus

def fresh : CheckStatus := ⟨false, false, false, false, 0, .zero, none, [], .zero⟩

instance : Inhabited CheckStatus := ⟨fresh⟩

def outcome (s : CheckStatus) : Outcome :=
  if s.timeout then .timeout
  else if s.cycleBoundExceeded then .cycleBoundExceeded
  else if !s.finished then .notFinished
  else if s.consistency then .consistent
  else .inconsistent

def isConsistent (s : CheckStatus) : Bool := s.outcome == .consistent

def setConsistent (s : CheckStatus) : CheckStatus :=
  { s with consistency := true, finished := true }

def setInconsistent (s : CheckStatus) (loop : Option NegativeLoop) : CheckStatus :=
  { s with consistency := false, finished := true, negativeLoop := loop }

def setTimeout (s : CheckStatus) : CheckStatus := { s with finished := false, timeout := true }

def setCycleBoundExceeded (s : CheckStatus) : CheckStatus :=
  { s with finished := false, cycleBoundExceeded := true }

/-- Adds the passes and rule applications of `t`. -/
def addCounters (s t : CheckStatus) : CheckStatus :=
  { s with cycles := s.cycles + t.cycles, applied := s.applied.add t.applied }

/-- The status in one line; the duration of the check is not measured. -/
def text (s : CheckStatus) : String :=
  s.outcome.name ++ " after " ++ toString s.cycles ++ " cycles and " ++
    toString s.applied.total ++ " rule applications in 0ns" ++
    match s.negativeLoop with
    | some l => "; negative loop " ++ l.text
    | none => ""

end CheckStatus

end TemporalNetwork
