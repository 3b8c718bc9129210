import TemporalNetwork.Edge.Payload
import TemporalNetwork.Values.CaseValues

/-!
Edges of conditional networks. Besides its ordinary values an edge can hold upper-case values and at
most one lower-case value.
-/

namespace TemporalNetwork

structure LabeledEdge where
  kind : ConstraintKind
  values : ValueMap
  upper : UpperCaseMap
  lower : Option LowerCaseValue
  deriving DecidableEq, Repr, Inhabited

namespace LabeledEdge

def ofKind (kind : ConstraintKind) : LabeledEdge := ⟨kind, .empty, .empty, none⟩

/-- Merges an ordinary value; upper-case values which it makes redundant are dropped. -/
def mergeOrdinary (e : LabeledEdge) (label : Label) (value : Value) : LabeledEdge × Bool :=
  match e.values.merge label value with
  | (values, true) =>
    ({ e with values := values, upper := e.upper.dropDominatedByOrdinary label value }, true)
  | (_, false) => (e, false)

/-- Merges a value; with the empty case label it is an ordinary one. -/
def merge (e : LabeledEdge) (case : CaseLabel) (label : Label) (value : Value) :
    LabeledEdge × Bool :=
  if case.isEmpty then e.mergeOrdinary label value
  else if e.values.dominates label value then (e, false)
  else
    match e.upper.merge case label value with
    | (upper, changed) => ({ e with upper := upper }, changed)

def eraseOrdinary (e : LabeledEdge) (label : Label) : LabeledEdge :=
  { e with values := e.values.erase label }

def eraseUpper (e : LabeledEdge) (case : CaseLabel) (label : Label) : LabeledEdge :=
  { e with upper := e.upper.erase case label }

/-- Removes one value; with the empty case label it is an ordinary one. -/
def erase (e : LabeledEdge) (case : CaseLabel) (label : Label) : LabeledEdge :=
  if case.isEmpty then e.eraseOrdinary label else e.eraseUpper case label

/-- Every ordinary and upper-case value; the ordinary ones have the empty case label. -/
def allValues (e : LabeledEdge) : List (CaseLabel × Label × Value) :=
  e.values.entries.map (fun v => (CaseLabel.empty, v.1, v.2)) ++ e.upper.entries

def min? (e : LabeledEdge) : Option Value := e.values.min?

def clearCase (e : LabeledEdge) : LabeledEdge := { e with upper := .empty, lower := none }

def dropUnknown (e : LabeledEdge) : LabeledEdge :=
  { e with values := e.values.dropUnknown, upper := e.upper.dropUnknown }

def isVoid (e : LabeledEdge) : Bool := e.values.isEmpty && e.upper.isEmpty && e.lower.isNone

instance : EdgePayload LabeledEdge where
  kind e := e.kind
  withKind kind e := { e with kind := kind }
  isVoid := isVoid
  moveNode _ _ e := e

def text (e : LabeledEdge) : String :=
  e.kind.name ++ " " ++ e.values.text ++
    String.join (e.upper.entries.map fun v =>
      " (" ++ v.2.1.text ++ ", " ++ v.1.text ++ ":" ++ toString v.2.2 ++ ")") ++
    match e.lower with
    | some l => " " ++ l.text
    | none => ""

end LabeledEdge

end TemporalNetwork
