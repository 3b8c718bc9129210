import TemporalNetwork.Conditional.Rules.Context

/-!
The observation rules remove a proposition from the label of a value that constrains the network
before the proposition is observed. Towards Z labels may have unknown literals, and the rules bear
names of their own there.
-/

namespace TemporalNetwork.RuleContext

def r0Name (ctx : RuleContext) (target : NodeId) : Rule := if target = ctx.z then .qr0 else .r0

def r3Name (ctx : RuleContext) (target : NodeId) : Rule := if target = ctx.z then .qr3 else .r3

/-- A value on an edge from the observer of `p` that is not positive does not depend on `p`, nor on
what is only observed once `p` is. -/
def stripObserved? (ctx : RuleContext) (g : LabeledNetwork) (observer target : NodeId)
    (p : Proposition) (value : CaseLabel × Label × Value) : Option Derivation :=
  let (case, label, v) := value
  if 0 < v ∨ !label.mentions p ∨ (target ≠ ctx.z ∧ label.hasUnknown) then none
  else
    match ctx.withEndpoints? g observer target ((label.erase p).eraseAll (ctx.children p)) with
    | none => none
    | some stripped =>
      if stripped.mentions p ∨ stripped = label then none else some (.value case stripped v)

/-- Rule `r0`, or `qr0` towards Z, for the edge from an observer. -/
def r0 (ctx : RuleContext) (g : LabeledNetwork) (observer target : NodeId) : List Derivation :=
  if observer = target ∨ !ctx.isEnabled (ctx.r0Name target) then []
  else
    match (g.nodeD observer).observed, g.edgeBetween? observer target with
    | some p, some edge => edge.allValues.filterMap (ctx.stripObserved? g observer target p)
    | _, _ => []

/-- The ordinary values on the edges into `target` from observers other than `source` and `target`,
where one of them is not positive. -/
def observationsInto (g : LabeledNetwork) (source target : NodeId) :
    List (Proposition × ValueMap) :=
  (g.inEdges target).filterMap fun (observer, e) =>
    if observer = source ∨ observer = target then none
    else
      match (g.nodeD observer).observed, g.edge? e with
      | some p, some edge => if edge.min?.any (· ≤ 0) then some (p, edge.values) else none
      | _, _ => none

/-- The value derived from a value whose label mentions `p` and a value on the edge from the
observer of `p`. -/
def observeValue? (ctx : RuleContext) (g : LabeledNetwork) (source target : NodeId)
    (p : Proposition) (value : CaseLabel × Label × Value) (observation : Label × Value) :
    Option Derivation :=
  let (case, label, v) := value
  let (observed, t) := observation
  if 0 < t ∨ observed.mentions p then none
  else
    let base := label.erase p
    let combined :=
      if target = ctx.z then some (base.blend observed)
      else if observed.hasUnknown then none
      else base.and? observed
    let combined := combined.bind fun l =>
      ctx.withEndpoints? g source target (ctx.dropChildrenOfUnknown (l.eraseAll (ctx.children p)))
    match combined with
    | none => none
    | some l => if l.mentions p then none else some (.value case l (max v t))

/-- Whether a value can be combined with the observations of `p`. -/
def isObservable (ctx : RuleContext) (target : NodeId) (p : Proposition) (observations : ValueMap)
    (label : Label) : Bool :=
  label.mentions p && (target == ctx.z ||
    (!label.hasUnknown && (observations.minConsistent? (label.erase p)).isSome))

/-- Rule `r3`, or `qr3` towards Z, for the edge from `source`. -/
def r3 (ctx : RuleContext) (g : LabeledNetwork) (source target : NodeId) : List Derivation :=
  if source = target ∨ !ctx.isEnabled (ctx.r3Name target) then []
  else
    match g.edgeBetween? source target with
    | none => []
    | some edge =>
      let values := edge.allValues.filter fun v => !v.2.1.isEmpty
      if values.isEmpty then []
      else
        (observationsInto g source target).flatMap fun (p, observations) =>
          (values.filter fun v => ctx.isObservable target p observations v.2.1).flatMap fun v =>
            observations.entries.filterMap (ctx.observeValue? g source target p v)

end TemporalNetwork.RuleContext
