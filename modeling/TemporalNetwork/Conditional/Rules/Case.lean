import TemporalNetwork.Conditional.Rules.Context

/-!
The rules for contingent links.
-/

namespace TemporalNetwork.RuleContext

/-- The links activated by a node. -/
def linksActivatedBy (ctx : RuleContext) (n : NodeId) : List ContingentLink :=
  ctx.links.filter fun link => link.activation == n

/-- The link that ends in a node. -/
def linkOf? (ctx : RuleContext) (n : NodeId) : Option ContingentLink :=
  ctx.links.find? fun link => link.contingent == n

/-- The value derived from the lower-case value before a negative value that leaves the contingent
node. -/
def crossValue? (ctx : RuleContext) (g : LabeledNetwork) (activation w : NodeId)
    (lower : LowerCaseValue) (value : CaseLabel × Label × Value) : Option Derivation :=
  let (case, label, v) := value
  if 0 ≤ v ∨ case.contains lower.letter then none
  else
    match Value.sum? lower.value v with
    | none => some (.sumOverflow lower.value v)
    | some sum =>
      match ctx.combine? (w = ctx.z ∧ sum < 0) lower.label label with
      | none => none
      | some combined =>
        if w = activation then closeLoop? (g.nodeName activation) case combined sum
        else some (.value case combined sum)

/-- The lower-case value on `activation → contingent` followed by the negative values on
`contingent → w`, for `activation → w`. -/
def crossLowerCase (ctx : RuleContext) (g : LabeledNetwork) (activation contingent w : NodeId) :
    List Derivation :=
  if !ctx.isEnabled .crossLowerCase ∨ w = contingent then []
  else
    match (g.edgeBetween? activation contingent).bind LabeledEdge.lower,
        g.edgeBetween? contingent w with
    | some lower, some edge => edge.allValues.filterMap (ctx.crossValue? g activation w lower)
    | _, _ => []

/-- Whether an upper-case value into the activation node of a link holds without its letter: the
value is at least the negated lower bound, and the link exists wherever the value holds. -/
def letterIsRemovable (case : CaseLabel) (label : Label) (v : Value) (link : ContingentLink) :
    Bool :=
  case.contains link.letter && decide (-link.lower ≤ v) && label.subsumes link.label

/-- The upper-case values on `x → activation` without a letter they do not depend on. -/
def letterRemoval (ctx : RuleContext) (g : LabeledNetwork) (x activation : NodeId) :
    List Derivation :=
  if !ctx.isEnabled .letterRemoval then []
  else
    match g.edgeBetween? x activation with
    | none => []
    | some edge =>
      let links := ctx.linksActivatedBy activation
      if links.isEmpty then []
      else
        edge.upper.entries.flatMap fun (case, label, v) =>
          (links.filter (letterIsRemovable case label v)).map fun link =>
            .value (case.erase link.letter) label v

end TemporalNetwork.RuleContext
