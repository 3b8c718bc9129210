import TemporalNetwork.Check.Options
import TemporalNetwork.Conditional.Rules.Case
import TemporalNetwork.Conditional.Rules.LabelPropagation
import TemporalNetwork.Conditional.Rules.Observation
import TemporalNetwork.Queue.Worklist

/-!
Propagation: the rules are applied in passes until no edge changes. A pass first applies the
observation rules to each edge of the worklist, then uses each of these edges in every triangle it
is part of; the edges that change form the next worklist.
-/

namespace TemporalNetwork

/-- Why a propagation ends before a fixpoint. -/
inductive Halt where
  | negativeLoop (loop : NegativeLoop)
  | sumOverflow (lhs rhs : Value)
  | timeout
  | cycleBoundExceeded
  deriving DecidableEq, Repr

structure Progress where
  network : LabeledNetwork
  applied : RuleCounts
  cycles : Nat
  /-- How often the propagation has asked whether to stop. -/
  polls : Nat

namespace Progress

/-- Merges a derived value, for which an edge is added if need be, and counts the application if the
edge changed. The value `+∞` needs no edge. -/
def merge : Progress → Rule → NodeId → NodeId → CaseLabel → Label → Value → Progress × Bool
  | ⟨g, applied, cycles, polls⟩, rule, source, target, case, label, value =>
    if value = Value.posInf ∧ (g.findEdge? source target).isNone then
      (⟨g, applied, cycles, polls⟩, false)
    else
      let (g, changed) := g.mergeInto .derived source target case label value
      (⟨g, if changed then applied.record rule else applied, cycles, polls⟩, changed)

end Progress

abbrev Propagation := EStateM Halt Progress

namespace Propagation

/-- Asks whether to stop. -/
def poll (stops : Polls) : Propagation Unit := fun s =>
  let next := { s with polls := s.polls + 1 }
  if stops s.polls then .error .timeout next else .ok () next

/-- Adds the derivations of a rule to the edge from `source` to `target`, up to one that ends the
propagation; tells whether the edge changed. -/
def apply (rule : Rule) (source target : NodeId) : List Derivation → Propagation Bool
  | [] => return false
  | .value case label v :: rest => do
    let first ← modifyGet fun s => (s.merge rule source target case label v).swap
    let others ← apply rule source target rest
    return first || others
  | .negativeLoop loop :: _ => throw (.negativeLoop loop)
  | .sumOverflow lhs rhs :: _ => throw (.sumOverflow lhs rhs)

def applyR0 (ctx : RuleContext) (observer target : NodeId) : Propagation Bool := do
  apply (ctx.r0Name target) observer target (ctx.r0 (← get).network observer target)

def applyR3 (ctx : RuleContext) (source target : NodeId) : Propagation Bool := do
  apply (ctx.r3Name target) source target (ctx.r3 (← get).network source target)

def applyLabelPropagation (ctx : RuleContext) (x y w : NodeId) : Propagation Bool := do
  apply .labelPropagation x w (ctx.labelPropagation (← get).network x y w)

def applyCrossLowerCase (ctx : RuleContext) (activation contingent w : NodeId) :
    Propagation Bool := do
  apply .crossLowerCase activation w (ctx.crossLowerCase (← get).network activation contingent w)

def applyLetterRemoval (ctx : RuleContext) (x activation : NodeId) : Propagation Bool := do
  apply .letterRemoval x activation (ctx.letterRemoval (← get).network x activation)

/-- Notes the edge from `source` to `target` if `changed`. -/
def noteIf (changed : Bool) (source target : NodeId) (next : Worklist) : Propagation Worklist := do
  if changed then
    match (← get).network.findEdge? source target with
    | some e => return next.insert e
    | none => return next
  else return next

/-- The observation rules for an edge, and for the other edges into its target if the edge is an
observation itself. -/
def observeEdge (ctx : RuleContext) (next : Worklist) (e : EdgeId) : Propagation Worklist := do
  match (← get).network.slot? e with
  | none => return next
  | some ⟨_, source, target, _⟩ =>
    let r0 ← applyR0 ctx source target
    let r3 ← applyR3 ctx source target
    let next := if r0 || r3 then next.insert e else next
    let g := (← get).network
    if (g.nodeD source).isObserver then
      let others := (g.inEdges target).filterMap fun i => if i.1 = source then none else some i.1
      others.foldlM (fun next other => do
        noteIf (← applyR3 ctx other target) other target next) next
    else return next

/-- The rules that combine an edge with those before and after it. -/
def combineEdge (ctx : RuleContext) (next : Worklist) (e : EdgeId) : Propagation Worklist := do
  match (← get).network.slot? e with
  | none => return next
  | some ⟨_, a, b, _⟩ =>
    let successors := ((← get).network.outEdges b).map Prod.fst
    let ends := if ctx.onlyToZ then successors.filter fun w => w == ctx.z else successors
    let next ← ends.foldlM (fun next w => do
      noteIf (← applyLabelPropagation ctx a b w) a w next) next
    let predecessors := ((← get).network.inEdges a).map Prod.fst
    let predecessors := if !ctx.onlyToZ ∨ b = ctx.z then predecessors else []
    let next ← predecessors.foldlM (fun next x => do
      noteIf (← applyLabelPropagation ctx x a b) x b next) next
    if ctx.links.isEmpty then return next
    let crossed := (((← get).network.edge? e).bind LabeledEdge.lower).isSome
    let next ← (if crossed then successors else []).foldlM (fun next w => do
      noteIf (← applyCrossLowerCase ctx a b w) a w next) next
    let next ← match ctx.linkOf? a with
      | some link => noteIf (← applyCrossLowerCase ctx link.activation a b) link.activation b next
      | none => pure next
    let removed ← applyLetterRemoval ctx a b
    return if removed then next.insert e else next

/-- One pass over the worklist; returns the next one. -/
def pass (ctx : RuleContext) (stops : Polls) (edges : List EdgeId) : Propagation Worklist := do
  let next ← edges.foldlM (observeEdge ctx) .empty
  edges.foldlM (fun next e => do
    poll stops
    combineEdge ctx next e) next

/-- Passes until the worklist is empty, at most `remaining` of them. -/
def passes (ctx : RuleContext) (stops : Polls) :
    (remaining : Nat) → List EdgeId → Propagation Unit
  | _, [] => return
  | 0, _ :: _ => do
    modify fun s => { s with cycles := s.cycles + 1 }
    throw .cycleBoundExceeded
  | remaining + 1, e :: es => do
    modify fun s => { s with cycles := s.cycles + 1 }
    poll stops
    let next ← pass ctx stops (e :: es)
    passes ctx stops remaining next.toList

/-- Applies the rules to all edges until nothing changes. -/
def toFixpoint (ctx : RuleContext) (stops : Polls) (cycleBound : Nat) : Propagation Unit := do
  passes ctx stops cycleBound (← get).network.edgeIds

end Propagation

end TemporalNetwork
