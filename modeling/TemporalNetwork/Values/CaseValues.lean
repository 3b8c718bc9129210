import TemporalNetwork.Label.CaseLabel
import TemporalNetwork.Values.ValueMap

/-!
Case values: the upper-case values of an edge, grouped by the case letters they depend on, and the
lower-case value on the edge from an activation node to its contingent node.
-/

namespace TemporalNetwork

/-- The lower bound of a contingent link. -/
structure LowerCaseValue where
  letter : CaseLetter
  label : Label
  value : Value
  deriving DecidableEq, Repr

def LowerCaseValue.text (l : LowerCaseValue) : String :=
  "(" ++ l.label.text ++ ", " ++ l.letter.lowerText ++ ":" ++ toString l.value ++ ")"

/-- Upper-case values. The empty case label is no key: ordinary values are kept elsewhere. -/
structure UpperCaseMap where
  /-- One group per case label, in increasing order; no group is empty. -/
  groups : List (CaseLabel × ValueMap)
  deriving DecidableEq, Repr, Inhabited

namespace UpperCaseMap

def empty : UpperCaseMap := ⟨[]⟩

def isEmpty (u : UpperCaseMap) : Bool := u.groups.isEmpty

def size (u : UpperCaseMap) : Nat := u.groups.foldr (fun g n => g.2.size + n) 0

def entries (u : UpperCaseMap) : List (CaseLabel × Label × Value) :=
  u.groups.flatMap fun g => g.2.entries.map fun e => (g.1, e.1, e.2)

/-- The values which depend on exactly the letters of `case`. -/
def group (u : UpperCaseMap) (case : CaseLabel) : ValueMap :=
  match u.groups.find? fun g => g.1 == case with
  | some g => g.2
  | none => ValueMap.empty

def insertGroup (case : CaseLabel) (m : ValueMap) :
    List (CaseLabel × ValueMap) → List (CaseLabel × ValueMap)
  | [] => [(case, m)]
  | g :: rest =>
    match compare case g.1 with
    | .lt => (case, m) :: g :: rest
    | .eq => (case, m) :: rest
    | .gt => g :: insertGroup case m rest

/-- Applies `f` to the values of every case label and drops the groups left empty. -/
def mapGroups (f : CaseLabel → ValueMap → ValueMap) (u : UpperCaseMap) : UpperCaseMap :=
  ⟨(u.groups.map fun g => (g.1, f g.1 g.2)).filter fun g => !g.2.isEmpty⟩

def get? (u : UpperCaseMap) (case : CaseLabel) (label : Label) : Option Value :=
  (u.group case).get? label

def erase (u : UpperCaseMap) (case : CaseLabel) (label : Label) : UpperCaseMap :=
  u.mapGroups fun c m => if c = case then m.erase label else m

/-- Whether a value which depends on no further letters makes `(case, label, value)` redundant. -/
def dominates (u : UpperCaseMap) (case : CaseLabel) (label : Label) (value : Value) : Bool :=
  u.groups.any fun g => g.1.subset case && g.2.dominates label value

/-- Drops the values which the ordinary value `(label, value)` makes redundant. -/
def dropDominatedByOrdinary (u : UpperCaseMap) (label : Label) (value : Value) : UpperCaseMap :=
  u.mapGroups fun _ m => m.dropDominated label value

/-- Merges an upper-case value; the second component tells whether the map changed. -/
def merge (u : UpperCaseMap) (case : CaseLabel) (label : Label) (value : Value) :
    UpperCaseMap × Bool :=
  if case.isEmpty ∨ value = Value.posInf ∨ u.dominates case label value then (u, false)
  else
    let thinned := u.mapGroups fun c m => if case.subset c then m.dropDominated label value else m
    let merged := (thinned.group case).merge label value
    (⟨insertGroup case merged.1 thinned.groups⟩, merged.2)

def min? (u : UpperCaseMap) : Option Value := (u.groups.filterMap fun g => g.2.min?).min?

def dropUnknown (u : UpperCaseMap) : UpperCaseMap := u.mapGroups fun _ m => m.dropUnknown

end UpperCaseMap

end TemporalNetwork
