import TemporalNetwork.Check.Status
import TemporalNetwork.Conditional.ContingentLink
import TemporalNetwork.Conditional.Horizon

/-!
What the propagation rules share. A rule reads the network and lists what it derives for one edge,
in order; it changes nothing. Nodes do not change during a propagation, so what they observe is
tabulated in the context.
-/

namespace TemporalNetwork

structure RuleContext where
  z : NodeId
  horizon : Value
  withNodeLabels : Bool
  /-- Only derive values on edges into Z. -/
  onlyToZ : Bool
  rules : RuleSet
  links : List ContingentLink
  observations : ObservationIndex

/-- One result of a rule: a value for its edge, or a reason to stop the propagation. -/
inductive Derivation where
  | value (case : CaseLabel) (label : Label) (value : Value)
  | negativeLoop (loop : NegativeLoop)
  | sumOverflow (lhs rhs : Value)
  deriving DecidableEq, Repr

namespace RuleContext

def isEnabled (ctx : RuleContext) (rule : Rule) : Bool := ctx.rules.contains rule

def nodeLabel (ctx : RuleContext) (g : LabeledNetwork) (n : NodeId) : Label :=
  if ctx.withNodeLabels then (g.nodeD n).label else .empty

/-- The propositions which are only observed once `p` is. -/
def children (ctx : RuleContext) (p : Proposition) : PropositionSet :=
  if ctx.withNodeLabels then ctx.observations.childrenOf p else .empty

/-- Drops the propositions which are only observed when an unknown literal of the label is
decided. -/
def dropChildrenOfUnknown (ctx : RuleContext) (label : Label) : Label :=
  if ctx.withNodeLabels then
    label.eraseAll (label.unknowns.toList.foldl (fun s p => s ∪ ctx.children p) .empty)
  else label

/-- The conjunction with the labels of both ends of an edge. -/
def withEndpoints? (ctx : RuleContext) (g : LabeledNetwork) (source target : NodeId)
    (label : Label) : Option Label :=
  (label.and? (ctx.nodeLabel g source)).bind fun l => l.and? (ctx.nodeLabel g target)

/-- The label of a value that combines two others. Labels which differ combine into unknown literals
where that is permitted; else they have to agree and be free of unknown literals. -/
def combine? (ctx : RuleContext) (mayDiffer : Bool) (first second : Label) : Option Label :=
  if mayDiffer then some (ctx.dropChildrenOfUnknown (first.blend second))
  else if first.hasUnknown ∨ second.hasUnknown then none
  else (first.and? second).map ctx.dropChildrenOfUnknown

/-- The value a rule gives to an edge whose end is its source: a loop that is not negative tells
nothing, a negative one proves the network inconsistent if its label has no unknown literal, and
otherwise marks the scenarios in which the source cannot be executed. -/
def closeLoop? (name : String) (case : CaseLabel) (label : Label) (sum : Value) :
    Option Derivation :=
  if 0 ≤ sum ∨ !case.isEmpty then none
  else if label.hasUnknown then some (.value .empty label Value.negInf)
  else some (.negativeLoop ⟨name, label, sum⟩)

end RuleContext

end TemporalNetwork
