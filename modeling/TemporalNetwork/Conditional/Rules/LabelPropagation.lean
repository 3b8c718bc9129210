import TemporalNetwork.Conditional.Rules.Context

/-!
Labelled propagation: a value on `x → y` and one on `y → w` give their sum on `x → w`.
-/

namespace TemporalNetwork.RuleContext

/-- Values below `−horizon` can only come from a negative cycle and count as `−∞`. -/
def clamp (ctx : RuleContext) (v : Value) : Value := if v < -ctx.horizon then Value.negInf else v

/-- The value derived from one value on each edge of the path `x → y → w`. An upper-case value on
the first edge has to be negative, and no letter may occur twice. The labels may only differ for a
negative sum towards Z over a negative first value: else the middle node can occur after the source,
which cannot know its scenario yet. -/
def propagateValues? (ctx : RuleContext) (g : LabeledNetwork) (x w : NodeId)
    (first second : CaseLabel × Label × Value) : Option Derivation :=
  let (firstCase, firstLabel, u) := first
  let (secondCase, secondLabel, v) := second
  if (!firstCase.isEmpty ∧ 0 ≤ u) ∨ firstCase.intersects secondCase then none
  else
    match Value.sum? u v with
    | none => some (.sumOverflow u v)
    | some s =>
      let sum := ctx.clamp s
      match ctx.combine? (w = ctx.z ∧ sum < 0 ∧ u < 0) firstLabel secondLabel with
      | none => none
      | some label =>
        let case := firstCase ∪ secondCase
        if x = w then closeLoop? (g.nodeName x) case label sum else some (.value case label sum)

/-- Labelled propagation along `x → y → w`, for `x → w`. Neither of the two edges is a self-loop. -/
def labelPropagation (ctx : RuleContext) (g : LabeledNetwork) (x y w : NodeId) :
    List Derivation :=
  if !ctx.isEnabled .labelPropagation ∨ x = y ∨ y = w then []
  else
    match g.edgeBetween? x y, g.edgeBetween? y w with
    | some first, some second =>
      let seconds := second.allValues
      first.allValues.flatMap fun u => seconds.filterMap fun v => ctx.propagateValues? g x w u v
    | _, _ => []

end TemporalNetwork.RuleContext
