import TemporalNetwork.Conditional.Horizon
import TemporalNetwork.Proofs.Network.WellFormed
import TemporalNetwork.Proofs.Values.Covering

/-!
Merging a value into a network. Only the edge between the two nodes changes, it goes on covering what
it covered, and the nodes and the numbers of the edges stay.
-/

namespace TemporalNetwork

namespace Network

variable {E : Type} {g : Network E}

theorem edgeOrInsert_of_some {u v : NodeId} {e : EdgeId} (found : g.findEdge? u v = some e)
    (payload : E) : g.edgeOrInsert u v payload = (g, e) := by
  rw [edgeOrInsert, found]

theorem edgeOrInsert_of_none {u v : NodeId} (unjoined : g.findEdge? u v = none) (payload : E) :
    g.edgeOrInsert u v payload = g.insertEdge (g.freshEdgeName u v) payload u v := by
  rw [edgeOrInsert, unjoined]

end Network

/-- Upper-case values bear letters. -/
def Network.Lettered (g : LabeledNetwork) : Prop :=
  ∀ e slot, g.slot? e = some slot → ∀ c m, (c, m) ∈ slot.payload.upper.groups → c.isEmpty = false

theorem Network.mem_slots {E : Type} {g : Network E} {e : EdgeId} {slot : EdgeSlot E}
    (stored : g.slot? e = some slot) : some slot ∈ g.slots.toList := by
  rw [Network.slot?, Option.join_eq_some_iff] at stored
  exact Array.mem_toList_iff.mpr (Array.mem_of_getElem? stored)

/-- Whether the edge from `u` to `v` holds a value which makes `(case, label, value)` redundant. -/
def Network.Covers (g : LabeledNetwork) (u v : NodeId) (case : CaseLabel) (label : Label)
    (value : Value) : Prop :=
  ∃ e, g.edgeBetween? u v = some e ∧ e.Covers case label value

/-- An edge that has been given further values. -/
structure LabeledEdge.GrowsTo (e f : LabeledEdge) : Prop where
  covers : ∀ c l x, e.Covers c l x → f.Covers c l x
  lower : f.lower = e.lower
  kind : f.kind = e.kind

theorem LabeledEdge.GrowsTo.refl (e : LabeledEdge) : e.GrowsTo e := ⟨fun _ _ _ => id, rfl, rfl⟩

theorem LabeledEdge.growsTo_merge (e : LabeledEdge) (case : CaseLabel) (label : Label)
    (value : Value) : e.GrowsTo (e.merge case label value).1 where
  covers _ _ _ := covers_merge
  lower := by
    unfold merge mergeOrdinary
    split <;> split <;> rfl
  kind := by
    unfold merge mergeOrdinary
    split <;> split <;> rfl

/-- `h` is `g` with further values and edges. -/
structure Network.Grows (g h : LabeledNetwork) : Prop where
  nodes : h.nodes = g.nodes
  found : ∀ a b e, g.findEdge? a b = some e → h.findEdge? a b = some e
  edge : ∀ a b e, g.edgeBetween? a b = some e → ∃ f, h.edgeBetween? a b = some f ∧ e.GrowsTo f

/-- `h` is `g` with further values on the edge from `u` to `v`, which may be new. -/
structure Network.GrowsAt (g h : LabeledNetwork) (u v : NodeId) : Prop extends g.Grows h where
  wellFormed : h.WellFormed
  elsewhere : ∀ a b, ¬ (u = a ∧ v = b) → h.edgeBetween? a b = g.edgeBetween? a b

namespace Network

variable {g h k : LabeledNetwork} {u v a b : NodeId}

theorem Grows.refl (g : LabeledNetwork) : g.Grows g :=
  ⟨rfl, fun _ _ _ => id, fun _ _ e he => ⟨e, he, .refl e⟩⟩

theorem Grows.trans (first : g.Grows h) (second : h.Grows k) : g.Grows k where
  nodes := second.nodes.trans first.nodes
  found a b e he := second.found a b e (first.found a b e he)
  edge a b e he := by
    obtain ⟨f, hf, ef⟩ := first.edge a b e he
    obtain ⟨d, hd, fd⟩ := second.edge a b f hf
    exact ⟨d, hd, fun c l x covered => fd.covers c l x (ef.covers c l x covered),
      fd.lower.trans ef.lower, fd.kind.trans ef.kind⟩

theorem Grows.nodeCount (grows : g.Grows h) : h.nodeCount = g.nodeCount := by
  rw [Network.nodeCount, grows.nodes, Network.nodeCount]

theorem Grows.nodeD (grows : g.Grows h) (n : NodeId) : h.nodeD n = g.nodeD n := by
  rw [Network.nodeD, node?, grows.nodes, Network.nodeD, node?]

theorem Grows.covers (grows : g.Grows h) {case : CaseLabel} {label : Label} {value : Value}
    (covered : g.Covers a b case label value) : h.Covers a b case label value := by
  obtain ⟨e, he, covers⟩ := covered
  obtain ⟨f, hf, ef⟩ := grows.edge a b e he
  exact ⟨f, hf, ef.covers _ _ _ covers⟩

theorem GrowsAt.refl (wf : g.WellFormed) (u v : NodeId) : g.GrowsAt g u v :=
  ⟨.refl g, wf, fun _ _ _ => rfl⟩

theorem GrowsAt.trans (first : g.GrowsAt h u v) (second : h.GrowsAt k u v) : g.GrowsAt k u v :=
  ⟨first.toGrows.trans second.toGrows, second.wellFormed, fun a b other =>
    (second.elsewhere a b other).trans (first.elsewhere a b other)⟩

theorem edge?_of_findEdge? (wf : g.WellFormed) {e : EdgeId} (found : g.findEdge? u v = some e) :
    ∃ payload, g.edge? e = some payload ∧ g.edgeBetween? u v = some payload := by
  obtain ⟨payload, joined⟩ := wf.edgeBetween?_of_findEdge? found
  refine ⟨payload, ?_, joined⟩
  rwa [edgeBetween?, found] at joined

theorem modifyEdge_self {e : EdgeId} {payload : LabeledEdge} (stored : g.edge? e = some payload) :
    (g.modifyEdge e fun _ => payload) = g := by
  obtain ⟨slot, hs, rfl⟩ := Option.map_eq_some_iff.mp stored
  have same : (g.slots.modify e fun s => s.map fun t => { t with payload := slot.payload }) =
      g.slots := by
    apply Array.ext_getElem?
    intro i
    rw [Array.getElem?_modify]
    split
    · rename_i here
      subst here
      rw [slot?] at hs
      rw [Option.join_eq_some_iff.mp hs]
      rfl
    · rfl
  rw [modifyEdge, same]

theorem mergeInto_of_some (wf : g.WellFormed) {e : EdgeId} {edge : LabeledEdge}
    (found : g.findEdge? u v = some e) (joined : g.edgeBetween? u v = some edge)
    (kind : ConstraintKind) (case : CaseLabel) (label : Label) (value : Value) :
    g.mergeInto kind u v case label value =
      (g.modifyEdge e fun _ => (edge.merge case label value).1,
        (edge.merge case label value).2) := by
  obtain ⟨payload, stored, joined'⟩ := edge?_of_findEdge? wf found
  rw [joined] at joined'
  cases joined'
  rw [mergeInto, edgeOrInsert_of_some found]
  simp only [stored]

theorem growsAt_modifyEdge (wf : g.WellFormed) {e : EdgeId} {edge f : LabeledEdge}
    (found : g.findEdge? u v = some e) (joined : g.edgeBetween? u v = some edge)
    (grows : edge.GrowsTo f) : g.GrowsAt (g.modifyEdge e fun _ => f) u v where
  nodes := rfl
  found _ _ _ := id
  edge a b e' he' := by
    rw [edgeBetween?_modifyEdge wf found, he']
    split
    · rename_i here
      obtain ⟨rfl, rfl⟩ := here
      rw [joined] at he'
      cases he'
      exact ⟨f, rfl, grows⟩
    · exact ⟨e', rfl, .refl e'⟩
  wellFormed := wf.modifyEdge e _
  elsewhere a b other := by rw [edgeBetween?_modifyEdge wf found, if_neg other]

theorem growsAt_insertEdge (wf : g.WellFormed) (hu : u < g.nodeCount) (hv : v < g.nodeCount)
    (unjoined : g.findEdge? u v = none) (name : String) (payload : LabeledEdge) :
    g.GrowsAt (g.insertEdge name payload u v).1 u v where
  nodes := nodes_insertEdge g name payload u v
  found a b e he := by
    have other : ¬ (u = a ∧ v = b) := by
      rintro ⟨rfl, rfl⟩
      rw [unjoined] at he
      cases he
    rw [findEdge?_insertEdge wf name payload hu hv, if_neg other, he]
  edge a b e he := by
    have other : ¬ (u = a ∧ v = b) := by
      rintro ⟨rfl, rfl⟩
      rw [edgeBetween?, unjoined] at he
      cases he
    refine ⟨e, ?_, .refl e⟩
    rw [edgeBetween?_insertEdge wf name payload hu hv, if_neg other, he]
  wellFormed := wf.insertEdge name payload hu hv unjoined
  elsewhere a b other := by rw [edgeBetween?_insertEdge wf name payload hu hv, if_neg other]

/-- The edge a value is merged into: the present one, or a new one without values. -/
def edgeD (g : LabeledNetwork) (kind : ConstraintKind) (u v : NodeId) : LabeledEdge :=
  (g.edgeBetween? u v).getD (LabeledEdge.ofKind kind)

theorem mergeInto_spec (wf : g.WellFormed) (hu : u < g.nodeCount) (hv : v < g.nodeCount)
    (kind : ConstraintKind) (case : CaseLabel) (label : Label) (value : Value) :
    g.GrowsAt (g.mergeInto kind u v case label value).1 u v ∧
      (g.mergeInto kind u v case label value).1.edgeBetween? u v =
        some ((g.edgeD kind u v).merge case label value).1 ∧
      (g.mergeInto kind u v case label value).2 =
        ((g.edgeD kind u v).merge case label value).2 := by
  cases found : g.findEdge? u v with
  | some e =>
    obtain ⟨edge, stored, joined⟩ := edge?_of_findEdge? wf found
    rw [mergeInto_of_some wf found joined, edgeD, joined]
    refine ⟨growsAt_modifyEdge wf found joined (edge.growsTo_merge case label value), ?_, rfl⟩
    rw [edgeBetween?_modifyEdge wf found, if_pos ⟨rfl, rfl⟩, joined]
    rfl
  | none =>
    -- An edge that is added holds nothing yet; the merge then finds it.
    have grown := growsAt_insertEdge wf hu hv found (g.freshEdgeName u v) (LabeledEdge.ofKind kind)
    have joined := edgeBetween?_insertEdge wf (g.freshEdgeName u v) (LabeledEdge.ofKind kind) hu hv
      u v
    have listed := findEdge?_insertEdge wf (g.freshEdgeName u v) (LabeledEdge.ofKind kind) hu hv u v
    rw [if_pos ⟨rfl, rfl⟩] at joined listed
    have merged : g.mergeInto kind u v case label value =
        (g.insertEdge (g.freshEdgeName u v) (LabeledEdge.ofKind kind) u v).1.mergeInto kind u v case
          label value := by
      rw [mergeInto, edgeOrInsert_of_none found, mergeInto, edgeOrInsert_of_some listed]
    have empty : g.edgeD kind u v = LabeledEdge.ofKind kind := by
      rw [edgeD, edgeBetween?, found]
      rfl
    rw [merged, empty, mergeInto_of_some grown.wellFormed listed joined]
    refine ⟨grown.trans (growsAt_modifyEdge grown.wellFormed listed joined
      (LabeledEdge.growsTo_merge _ case label value)), ?_, rfl⟩
    rw [edgeBetween?_modifyEdge grown.wellFormed listed, if_pos ⟨rfl, rfl⟩, joined]
    rfl

theorem mergeInto_frame (g : LabeledNetwork) (kind : ConstraintKind) (u v : NodeId)
    (case : CaseLabel) (label : Label) (value : Value) :
    (g.mergeInto kind u v case label value).1.z = g.z ∧
      (g.mergeInto kind u v case label value).1.nodes = g.nodes := by
  have inserted : (g.edgeOrInsert u v (LabeledEdge.ofKind kind)).1.z = g.z ∧
      (g.edgeOrInsert u v (LabeledEdge.ofKind kind)).1.nodes = g.nodes := by
    unfold edgeOrInsert insertEdge
    split
    · exact ⟨rfl, rfl⟩
    · split <;> exact ⟨rfl, rfl⟩
  unfold mergeInto
  dsimp only
  split
  · exact inserted
  · exact inserted

/-- A merge keeps a property of all edges that an edge without values has, and that the merge of the
value hands on. -/
theorem forall_edge_mergeInto {P : NodeId → NodeId → LabeledEdge → Prop} {case : CaseLabel}
    {label : Label} {value : Value} {kind : ConstraintKind} (wf : g.WellFormed)
    (hu : u < g.nodeCount) (hv : v < g.nodeCount)
    (every : ∀ a b e, g.edgeBetween? a b = some e → P a b e)
    (fresh : P u v (LabeledEdge.ofKind kind))
    (step : ∀ e, P u v e → P u v (e.merge case label value).1) :
    ∀ a b e, (g.mergeInto kind u v case label value).1.edgeBetween? a b = some e → P a b e := by
  obtain ⟨grows, joined, _⟩ := mergeInto_spec wf hu hv kind case label value
  intro a b e between
  by_cases here : u = a ∧ v = b
  · obtain ⟨rfl, rfl⟩ := here
    rw [joined] at between
    cases between
    refine step _ ?_
    unfold edgeD
    cases present : g.edgeBetween? u v with
    | none => exact fresh
    | some e => exact every u v e present
  · rw [grows.elsewhere a b here] at between
    exact every a b e between

end Network

end TemporalNetwork
