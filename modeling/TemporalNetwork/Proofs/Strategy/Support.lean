import TemporalNetwork.Proofs.Conditional.EveryValue
import TemporalNetwork.Proofs.Strategy.Justification

/-!
Networks whose ordinary values a strategy justifies. The rules of the consistency check only derive
further justified values and no negative loop.
-/

namespace TemporalNetwork

/-- Whether the value may stand on the edge from `u` to `v`: only towards Z labels may have unknown
literals. -/
def Timing.Supports (T : Timing) (observed : NodeId → Option Proposition) (z u v : NodeId)
    (l : Label) (w : Value) : Prop :=
  (v ≠ z → l.hasUnknown = false) ∧ T.Justifies observed u v l w

/-- Self-loops are read by no rule and may hold anything. -/
structure LabeledEdge.Supported (T : Timing) (observed : NodeId → Option Proposition)
    (z u v : NodeId) (e : LabeledEdge) : Prop where
  lettered : ∀ c m, (c, m) ∈ e.upper.groups → c.isEmpty = false
  supports : u ≠ v → ∀ l w, (l, w) ∈ e.values.entries → T.Supports observed z u v l w

structure Network.Supported (T : Timing) (observed : NodeId → Option Proposition) (n : Nat)
    (z : NodeId) (g : LabeledNetwork) : Prop where
  nodeCount : g.nodeCount = n
  observes : ∀ m, (g.nodeD m).observed = observed m
  edge : ∀ u v e, g.edgeBetween? u v = some e → e.Supported T observed z u v

def Derivation.Supported (T : Timing) (observed : NodeId → Option Proposition) (z u v : NodeId) :
    Derivation → Prop
  | value case l w => case.isEmpty = true → u ≠ v → T.Supports observed z u v l w
  | negativeLoop _ => False
  | sumOverflow _ _ => True

theorem CaseLabel.isEmpty_union {a b : CaseLabel} (none : (a ∪ b).isEmpty = true) :
    a.isEmpty = true ∧ b.isEmpty = true := by
  rw [isEmpty_iff] at none
  have outside : ∀ l, a.contains l = false ∧ b.contains l = false := by
    intro l
    have absent : (a ∪ b).contains l = false := by rw [none, contains_empty]
    rwa [contains_union, Bool.or_eq_false_iff] at absent
  rw [isEmpty_iff, isEmpty_iff]
  constructor
  · exact ext_contains fun l => by rw [(outside l).1, contains_empty]
  · exact ext_contains fun l => by rw [(outside l).2, contains_empty]

variable {T : Timing} {observed : NodeId → Option Proposition} {n : Nat} {z u v : NodeId}
  {l : Label} {w : Value} {case : CaseLabel} {e : LabeledEdge} {g : LabeledNetwork}

theorem ValueMap.supports_merge {m : ValueMap}
    (supports : ∀ l w, (l, w) ∈ m.entries → T.Supports observed z u v l w)
    (new : T.Supports observed z u v l w) :
    ∀ l' w', (l', w') ∈ (m.merge l w).1.entries → T.Supports observed z u v l' w' := by
  refine mergeWithin_induct (P := fun m => ∀ l w, (l, w) ∈ m.entries →
    T.Supports observed z u v l w) (Q := T.Supports observed z u v) ?_ ?_ _ m l w supports new
  · intro m label value holds allowed _ l' w' mem
    rcases mem_of_mem_insertEntry _ mem with same | kept
    · cases same
      exact allowed
    · exact holds l' w' (mem_dropDominated.mp kept).1
  · intro m label value twin twinValue holds allowed mem found
    refine ⟨fun apart => Label.hasUnknown_erase (allowed.1 apart) _, ?_⟩
    exact allowed.2.join mem (holds _ _ (mem_of_get? found)).2

namespace LabeledEdge

theorem supported_ofKind (kind : ConstraintKind) : (ofKind kind).Supported T observed z u v where
  lettered _ _ mem := by cases mem
  supports _ _ _ mem := by cases mem

theorem Supported.merge (supported : e.Supported T observed z u v)
    (new : case.isEmpty = true → u ≠ v → T.Supports observed z u v l w) :
    (e.merge case l w).1.Supported T observed z u v := by
  refine ⟨lettered_merge supported.lettered case l w, ?_⟩
  by_cases ordinary : case.isEmpty = true
  · rw [LabeledEdge.merge, if_pos ordinary]
    have values := fun apart => ValueMap.supports_merge (supported.supports apart)
      (new ordinary apart)
    unfold mergeOrdinary
    split
    · rename_i m merged
      rw [merged] at values
      exact values
    · exact supported.supports
  · rw [LabeledEdge.merge, if_neg ordinary]
    split
    · exact supported.supports
    · exact supported.supports

theorem Supported.mem_values (supported : e.Supported T observed z u v)
    (mem : (case, l, w) ∈ e.allValues) (ordinary : case.isEmpty = true) :
    (l, w) ∈ e.values.entries := by
  rcases List.mem_append.mp mem with plain | upper
  · obtain ⟨x, stored, same⟩ := List.mem_map.mp plain
    cases same
    exact stored
  · obtain ⟨group, stored, here⟩ := List.mem_flatMap.mp upper
    obtain ⟨_, _, same⟩ := List.mem_map.mp here
    cases same
    rw [supported.lettered _ _ stored] at ordinary
    cases ordinary

end LabeledEdge

namespace Network

theorem Supported.mergeInto (supported : g.Supported T observed n z) (wf : g.WellFormed)
    (hu : u < g.nodeCount) (hv : v < g.nodeCount) (kind : ConstraintKind)
    (new : case.isEmpty = true → u ≠ v → T.Supports observed z u v l w) :
    (g.mergeInto kind u v case l w).1.Supported T observed n z := by
  obtain ⟨grows, _, _⟩ := mergeInto_spec wf hu hv kind case l w
  refine ⟨?_, ?_, ?_⟩
  · rw [grows.nodeCount]
    exact supported.nodeCount
  · intro m
    rw [grows.nodeD]
    exact supported.observes m
  · exact forall_edge_mergeInto wf hu hv supported.edge (LabeledEdge.supported_ofKind kind)
      fun _ kept => kept.merge new

end Network

theorem Propagation.apply_supported (rule : Rule) (ds : List Derivation) (p : Progress)
    (wf : p.network.WellFormed) (supported : p.network.Supported T observed n z)
    (inRange : ds ≠ [] → u < p.network.nodeCount ∧ v < p.network.nodeCount)
    (all : ∀ d ∈ ds, d.Supported T observed z u v) :
    Ends (apply rule u v ds) p (fun _ q => q.network.Supported T observed n z)
      (fun halt _ => ∀ loop, halt ≠ .negativeLoop loop) := by
  have merges : ∀ g : LabeledNetwork, g.WellFormed → u < g.nodeCount → v < g.nodeCount →
      g.Supported T observed n z → ∀ case l w,
      (case.isEmpty = true → u ≠ v → T.Supports observed z u v l w) →
      (g.mergeInto .derived u v case l w).1.Supported T observed n z :=
    fun g wf hu hv kept case l w new => kept.mergeInto wf hu hv .derived new
  refine apply_allowed (P := fun u v case l w =>
    case.isEmpty = true → u ≠ v → T.Supports observed z u v l w) merges rule ds p wf supported
    inRange fun d mem => ?_
  cases d with
  | value case l w => exact all _ mem
  | negativeLoop loop => exact all _ mem
  | sumOverflow lhs rhs => trivial

end TemporalNetwork
