import TemporalNetwork.Check.Status
import TemporalNetwork.Statistics.Casing

/-!
The statistic log: lines of the form `HEADING name=value`, and closing lines after blocks of them.
Nothing is logged before the log is configured, and only the first configuration counts.
-/

namespace TemporalNetwork

structure LogFormat where
  /-- What every line begins with. -/
  heading : String
  /-- The line after a block of statistics. -/
  closing : Option String
  casing : Option Casing
  deriving DecidableEq, Repr

structure StatisticLog where
  format : Option LogFormat
  lines : List String
  deriving DecidableEq, Repr

namespace StatisticLog

def empty : StatisticLog := ⟨none, []⟩

def isConfigured (l : StatisticLog) : Bool := l.format.isSome

def configure (l : StatisticLog) (f : LogFormat) : StatisticLog :=
  { l with format := l.format <|> some f }

def statistic (l : StatisticLog) (name value : String) : StatisticLog :=
  match l.format with
  | none => l
  | some f =>
    let name := (f.casing.map fun c => c.apply name).getD name
    { l with lines := l.lines ++ [f.heading ++ " " ++ name ++ "=" ++ value] }

/-- Ends a block of statistics. -/
def close (l : StatisticLog) : StatisticLog :=
  match l.format.bind LogFormat.closing with
  | none => l
  | some line => { l with lines := l.lines ++ [line] }

/-- The name made of the names of nested groups. -/
def path (groups : List String) : String := "_".intercalate groups

/-- The name of a member of a group. -/
def member (group name : String) : String := group ++ "_" ++ name

/-- Logs the status of a check; the duration of the check is not measured. -/
def status (l : StatisticLog) (s : CheckStatus) : StatisticLog :=
  let entries :=
    [("outcome", s.outcome.name), ("cycles", toString s.cycles), ("executionTime", "0"),
      ("fixes", toString s.fixes.length)] ++
    (Rule.all.map fun r => ("rule" ++ r.name, toString (s.applied.count r))) ++
    (s.stnu.entries.map fun (name, n) => (member "stnu" name, toString n))
  (entries.foldl (fun l (name, value) => l.statistic name value) l).close

end StatisticLog

end TemporalNetwork
