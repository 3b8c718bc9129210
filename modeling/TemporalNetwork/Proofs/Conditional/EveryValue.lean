import TemporalNetwork.Proofs.Conditional.Application
import TemporalNetwork.Proofs.Conditional.Preparation
import TemporalNetwork.Proofs.Values.EveryValue

/-!
What holds of every value of a network. A property that two twins hand on to the value they are joined
to is kept by every step that only merges values which have it.
-/

namespace TemporalNetwork

/-- A property of values that stand on the edge from one node to another. -/
abbrev ValueProperty := NodeId → NodeId → CaseLabel → Label → Value → Prop

/-- Whether the property holds of every value of the network. -/
def Network.EveryValue (P : ValueProperty) (g : LabeledNetwork) : Prop :=
  ∀ u v e, g.edgeBetween? u v = some e → e.EveryValue (P u v)

namespace Network

variable {P : ValueProperty} {g h : LabeledNetwork} {u v z : NodeId} {case : CaseLabel} {label : Label}
  {value horizon : Value} {withNodeLabels : Bool}

theorem EveryValue.mono {Q : ValueProperty} (every : g.EveryValue P)
    (weaker : ∀ u v c l w, P u v c l w → Q u v c l w) : g.EveryValue Q :=
  fun u v e joined => (every u v e joined).mono (weaker u v)

theorem EveryValue.mergeInto_twins (joins : ∀ u v, JoinsTwins (P u v) (P u v))
    (every : g.EveryValue P) (wf : g.WellFormed) (hu : u < g.nodeCount) (hv : v < g.nodeCount)
    (kind : ConstraintKind) (new : P u v case label value) :
    (g.mergeInto kind u v case label value).1.EveryValue P :=
  forall_edge_mergeInto wf hu hv every (LabeledEdge.everyValue_ofKind kind)
    fun _ kept => kept.merge_twins (joins u v) new

theorem EveryValue.mergeInto (joins : ∀ u v, Joins (P u v)) (every : g.EveryValue P)
    (wf : g.WellFormed) (hu : u < g.nodeCount) (hv : v < g.nodeCount) (kind : ConstraintKind)
    (new : P u v case label value) : (g.mergeInto kind u v case label value).1.EveryValue P :=
  every.mergeInto_twins (fun u v => (joins u v).joinsTwins) wf hu hv kind new

theorem EveryValue.modifyEdge (every : g.EveryValue P) (wf : g.WellFormed) {e : EdgeId}
    (found : g.findEdge? u v = some e) {f : LabeledEdge → LabeledEdge}
    (step : ∀ edge, edge.EveryValue (P u v) → (f edge).EveryValue (P u v)) :
    (g.modifyEdge e f).EveryValue P := by
  intro a b edge joined
  rw [edgeBetween?_modifyEdge wf found] at joined
  split at joined
  · rename_i here
    obtain ⟨rfl, rfl⟩ := here
    obtain ⟨old, joined', rfl⟩ := Option.map_eq_some_iff.mp joined
    exact step old (every u v old joined')
  · exact every a b edge joined

/-- The bounds of the nodes are merged like any other value. -/
theorem addBounds_induct {I : LabeledNetwork → Prop} (wf : g.WellFormed) (hz : z < g.nodeCount)
    (merges : ∀ h : LabeledNetwork, h.WellFormed → g.Grows h → I h → ∀ n < g.nodeCount, n ≠ z →
      I (h.mergeInto .internal n z .empty (g.boundLabel withNodeLabels n) 0).1 ∧
        I (h.mergeInto .internal z n .empty (g.boundLabel withNodeLabels n) horizon).1)
    (holds : I g) : I (g.addBounds z horizon withNodeLabels) := by
  refine (List.foldlRecOn (motive := fun h : LabeledNetwork => h.WellFormed ∧ g.Grows h ∧ I h) _ _
    ⟨wf, .refl g, holds⟩ ?_).2.2
  rintro h ⟨wf', grows, holds'⟩ n mem
  have hn : n < g.nodeCount := List.mem_range.mp (List.mem_filter.mp mem).1
  have apart : n ≠ z := by simpa using (List.mem_filter.mp mem).2
  have hn' : n < h.nodeCount := grows.nodeCount ▸ hn
  have hz' : z < h.nodeCount := grows.nodeCount ▸ hz
  have label : (if withNodeLabels then (h.nodeD n).label else .empty) =
      g.boundLabel withNodeLabels n := grows.boundLabel n
  rw [label]
  obtain ⟨first, _, _⟩ := mergeInto_spec wf' hn' hz' .internal .empty
    (g.boundLabel withNodeLabels n) 0
  obtain ⟨second, _, _⟩ := mergeInto_spec first.wellFormed (first.nodeCount ▸ hz')
    (first.nodeCount ▸ hn') .internal .empty (g.boundLabel withNodeLabels n) horizon
  have between := (merges h wf' grows holds' n hn apart).1
  refine ⟨second.wellFormed, grows.trans (first.toGrows.trans second.toGrows), ?_⟩
  exact (merges _ first.wellFormed (grows.trans first.toGrows) between n hn apart).2

end Network

/-- Whether the derivation may be merged into the edge from `u` to `v`, and is no negative loop. -/
def Derivation.Allowed (P : ValueProperty) (u v : NodeId) : Derivation → Prop
  | value case label w => P u v case label w
  | negativeLoop _ => False
  | sumOverflow _ _ => True

section Applying

variable {P : ValueProperty} {I : LabeledNetwork → Prop} {u v : NodeId}

/-- Adding derivations to an edge keeps what merges of their values keep. -/
theorem Propagation.apply_values
    (merges : ∀ g : LabeledNetwork, g.WellFormed → u < g.nodeCount → v < g.nodeCount → I g →
      ∀ case label w, P u v case label w → I (g.mergeInto .derived u v case label w).1)
    (rule : Rule) (ds : List Derivation) (p : Progress) (wf : p.network.WellFormed)
    (holds : I p.network) (inRange : ds ≠ [] → u < p.network.nodeCount ∧ v < p.network.nodeCount)
    (values : ∀ case label w, .value case label w ∈ ds → P u v case label w) :
    Ends (apply rule u v ds) p (fun _ q => I q.network)
      (fun halt _ => ∃ d ∈ ds, d.halt? = some halt) := by
  induction ds generalizing p with
  | nil => exact holds
  | cons d rest ih =>
    obtain ⟨hu, hv⟩ := inRange (List.cons_ne_nil d rest)
    cases d with
    | value case label w =>
      have new := values case label w List.mem_cons_self
      obtain ⟨grows, _, _⟩ := Progress.merge_spec rule wf hu hv case label w
      rw [apply, ends_bind, ends_modifyGet, ends_bind]
      refine (ih _ grows.wellFormed ?_ ?_ ?_).mono (fun _ _ holds => holds) ?_
      · obtain ⟨g, applied, cycles, polls⟩ := p
        rw [Progress.merge]
        split
        · exact holds
        · exact merges g wf hu hv holds case label w new
      · intro _
        exact grows.nodeCount ▸ ⟨hu, hv⟩
      · intro case label w mem
        exact values case label w (List.mem_cons_of_mem _ mem)
      · rintro halt _ ⟨d, mem, stops⟩
        exact ⟨d, List.mem_cons_of_mem _ mem, stops⟩
    | negativeLoop loop => exact ⟨_, List.mem_cons_self, rfl⟩
    | sumOverflow lhs rhs => exact ⟨_, List.mem_cons_self, rfl⟩

/-- Allowed derivations do not end the propagation with a negative loop. -/
theorem Propagation.apply_allowed
    (merges : ∀ g : LabeledNetwork, g.WellFormed → u < g.nodeCount → v < g.nodeCount → I g →
      ∀ case label w, P u v case label w → I (g.mergeInto .derived u v case label w).1)
    (rule : Rule) (ds : List Derivation) (p : Progress) (wf : p.network.WellFormed)
    (holds : I p.network) (inRange : ds ≠ [] → u < p.network.nodeCount ∧ v < p.network.nodeCount)
    (all : ∀ d ∈ ds, d.Allowed P u v) :
    Ends (apply rule u v ds) p (fun _ q => I q.network)
      (fun halt _ => ∀ loop, halt ≠ .negativeLoop loop) := by
  refine (apply_values merges rule ds p wf holds inRange fun _ _ _ mem => all _ mem).mono
    (fun _ _ => id) ?_
  rintro halt _ ⟨d, mem, stops⟩ loop rfl
  cases d with
  | value => cases stops
  | negativeLoop => exact all _ mem
  | sumOverflow => cases stops

end Applying

/-- Whether the property holds of every lower-case value of the network. -/
def Network.EveryLower (P : NodeId → NodeId → LowerCaseValue → Prop) (g : LabeledNetwork) : Prop :=
  ∀ u v e low, g.edgeBetween? u v = some e → e.lower = some low → P u v low

theorem Network.EveryLower.mergeInto {P : NodeId → NodeId → LowerCaseValue → Prop}
    {g : LabeledNetwork} {u v : NodeId} (every : g.EveryLower P) (wf : g.WellFormed)
    (hu : u < g.nodeCount) (hv : v < g.nodeCount) (kind : ConstraintKind) (case : CaseLabel)
    (label : Label) (value : Value) :
    (g.mergeInto kind u v case label value).1.EveryLower P := by
  intro a b e low joined stored
  refine forall_edge_mergeInto (P := fun a b e => ∀ low, e.lower = some low → P a b low) wf hu hv
    (fun a b e between low => every a b e low between) nofun (fun e kept low stored => ?_)
    a b e joined low stored
  rw [(LabeledEdge.growsTo_merge e case label value).lower] at stored
  exact kept low stored

theorem Network.EveryLower.modifyEdge {P : NodeId → NodeId → LowerCaseValue → Prop}
    {g : LabeledNetwork} {u v : NodeId} (every : g.EveryLower P) (wf : g.WellFormed) {e : EdgeId}
    (found : g.findEdge? u v = some e) {f : LabeledEdge → LabeledEdge}
    (step : ∀ edge low, (∀ low, edge.lower = some low → P u v low) → (f edge).lower = some low →
      P u v low) : (g.modifyEdge e f).EveryLower P := by
  intro a b edge low joined stored
  rw [edgeBetween?_modifyEdge wf found] at joined
  split at joined
  · rename_i here
    obtain ⟨rfl, rfl⟩ := here
    obtain ⟨old, joined', rfl⟩ := Option.map_eq_some_iff.mp joined
    exact step old low (fun low => every u v old low joined') stored
  · exact every a b edge low joined stored

end TemporalNetwork
