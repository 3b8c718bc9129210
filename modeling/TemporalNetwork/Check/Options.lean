/-!
Options of the checkers, and when a check gives up.
-/

namespace TemporalNetwork

/-- How a network without propositions is checked. -/
inductive StnuAlgorithm where
  /-- Normal form, then a recursive back-propagation from every node with a negative edge into it.
  -/
  | morris2014
  /-- One back-propagation per link; links wait for others by recursion, and the potential is
  computed anew after each link. -/
  | rul2018
  /-- One back-propagation per link; links wait for others on a stack, and the potential is
  repaired after each link. -/
  | rul2020
  deriving DecidableEq, Repr

def StnuAlgorithm.name : StnuAlgorithm → String
  | morris2014 => "Morris2014"
  | rul2018 => "RUL2018"
  | rul2020 => "RUL2020"

def StnuAlgorithm.ofName? : String → Option StnuAlgorithm
  | "Morris2014" => some .morris2014
  | "RUL2018" => some .rul2018
  | "RUL2020" => some .rul2020
  | _ => none

/-- The successive answers to "should the check stop now?". -/
abbrev Polls := Nat → Bool

namespace Polls

/-- Never stops a check. -/
def never : Polls := fun _ => false

/-- Lets the first `n` polls pass. -/
def after (n : Nat) : Polls := fun k => decide (n ≤ k)

end Polls

structure CheckerOptions where
  /-- The time a check may take, in milliseconds. -/
  timeoutMs : Option Nat
  /-- Only derive values on edges into Z. -/
  onlyToZ : Bool
  withNodeLabels : Bool
  algorithm : StnuAlgorithm
  deriving DecidableEq, Repr

namespace CheckerOptions

def standard : CheckerOptions := ⟨some 2700000, false, true, .rul2020⟩

/-- Time does not pass during a check, so only an empty budget is ever used up. -/
def polls (o : CheckerOptions) : Polls :=
  if o.timeoutMs = some 0 then .after 0 else .never

end CheckerOptions

end TemporalNetwork
