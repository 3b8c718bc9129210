import TemporalNetwork.Network.Adjacency.Lemmas
import TemporalNetwork.Network.Edit

/-!
Well-formed networks: the table of node pairs and the list of edge slots describe the same edges, and
the slots marked as free are empty. Every network that is built by edits is well formed. In a
well-formed network `edgeBetween?` is the view that says everything about the edges.
-/

namespace TemporalNetwork.Network

variable {E : Type} {g : Network E}

structure WellFormed (g : Network E) : Prop where
  table : g.adjacency.WellFormed
  order : g.adjacency.order = g.nodeCount
  listed : ∀ u v e, g.findEdge? u v = some e ↔
    ∃ slot, g.slot? e = some slot ∧ slot.source = u ∧ slot.target = v
  vacant : ∀ e ∈ g.free, e < g.slots.size ∧ g.slot? e = none
  distinct : g.free.Nodup

theorem slot?_lt {e : EdgeId} {slot : EdgeSlot E} (h : g.slot? e = some slot) :
    e < g.slots.size := by
  apply Classical.byContradiction
  intro beyond
  rw [slot?, Array.getElem?_eq_none (by lia)] at h
  cases h

theorem mem_edgeIds {e : EdgeId} : e ∈ g.edgeIds ↔ (g.slot? e).isSome = true := by
  simp only [edgeIds, List.mem_filter, List.mem_range, and_iff_right_iff_imp]
  intro stored
  obtain ⟨slot, h⟩ := Option.isSome_iff_exists.mp stored
  exact slot?_lt h

theorem lt_of_node? {n : NodeId} {node : Node} (present : g.node? n = some node) : n < g.nodeCount :=
  (Array.getElem?_eq_some_iff.mp present).1

theorem node_eq_ok {n : NodeId} (inside : n < g.nodeCount) : g.node n = .ok g.nodes[n] := by
  rw [node, node?, Array.getElem?_eq_getElem inside]

theorem lt_of_node_eq_ok {n : NodeId} {node : Node} (present : g.node n = .ok node) :
    n < g.nodeCount := by
  unfold Network.node at present
  split at present
  · rename_i found
    exact lt_of_node? found
  · cases present

namespace WellFormed

theorem findEdge?_of_slot (wf : g.WellFormed) {e : EdgeId} {slot : EdgeSlot E}
    (h : g.slot? e = some slot) : g.findEdge? slot.source slot.target = some e :=
  (wf.listed _ _ _).mpr ⟨slot, h, rfl, rfl⟩

theorem lt_of_findEdge? (wf : g.WellFormed) {u v : NodeId} {e : EdgeId}
    (h : g.findEdge? u v = some e) : u < g.nodeCount ∧ v < g.nodeCount := by
  rw [← wf.order]
  apply Classical.byContradiction
  intro outside
  have beyond : g.adjacency.order ≤ u ∨ g.adjacency.order ≤ v := by lia
  rw [findEdge?, Adjacency.get?_eq_none_of_le beyond] at h
  cases h

theorem ends_unique (wf : g.WellFormed) {u v a b : NodeId} {e : EdgeId}
    (h : g.findEdge? u v = some e) (k : g.findEdge? a b = some e) : u = a ∧ v = b := by
  obtain ⟨slot, stored, source, target⟩ := (wf.listed u v e).mp h
  obtain ⟨slot', stored', source', target'⟩ := (wf.listed a b e).mp k
  rw [stored] at stored'
  cases stored'
  exact ⟨source.symm.trans source', target.symm.trans target'⟩

theorem edgeBetween?_eq_some_iff (wf : g.WellFormed) {u v : NodeId} {payload : E} :
    g.edgeBetween? u v = some payload ↔
      ∃ e slot, g.slot? e = some slot ∧ slot.source = u ∧ slot.target = v ∧
        slot.payload = payload := by
  simp only [edgeBetween?, Option.bind_eq_some_iff, edge?, Option.map_eq_some_iff]
  constructor
  · rintro ⟨e, found, slot, stored, same⟩
    obtain ⟨slot', stored', source, target⟩ := (wf.listed u v e).mp found
    rw [stored] at stored'
    cases stored'
    exact ⟨e, slot, stored, source, target, same⟩
  · rintro ⟨e, slot, stored, rfl, rfl, same⟩
    exact ⟨e, wf.findEdge?_of_slot stored, slot, stored, same⟩

theorem edgeBetween?_of_findEdge? (wf : g.WellFormed) {u v : NodeId} {e : EdgeId}
    (h : g.findEdge? u v = some e) : ∃ payload, g.edgeBetween? u v = some payload := by
  obtain ⟨slot, stored, source, target⟩ := (wf.listed u v e).mp h
  exact ⟨slot.payload, wf.edgeBetween?_eq_some_iff.mpr ⟨e, slot, stored, source, target, rfl⟩⟩

theorem lt_of_edgeBetween? (wf : g.WellFormed) {u v : NodeId} {payload : E}
    (h : g.edgeBetween? u v = some payload) : u < g.nodeCount ∧ v < g.nodeCount := by
  obtain ⟨e, found, _⟩ := Option.bind_eq_some_iff.mp h
  exact wf.lt_of_findEdge? found

theorem mem_outEdges (wf : g.WellFormed) {n target : NodeId} {e : EdgeId} (hn : n < g.nodeCount) :
    (target, e) ∈ g.outEdges n ↔ g.findEdge? n target = some e :=
  Adjacency.mem_row (by rwa [wf.order])

theorem mem_inEdges (wf : g.WellFormed) {n source : NodeId} {e : EdgeId} (hn : n < g.nodeCount) :
    (source, e) ∈ g.inEdges n ↔ g.findEdge? source n = some e :=
  Adjacency.mem_column (by rwa [wf.order])

/-- The successors of a node, as the rules use them. -/
theorem mem_successors (wf : g.WellFormed) {n target : NodeId} (hn : n < g.nodeCount) :
    target ∈ (g.outEdges n).map Prod.fst ↔ (g.edgeBetween? n target).isSome = true := by
  simp only [List.mem_map, Prod.exists, exists_and_right, exists_eq_right]
  constructor
  · rintro ⟨e, mem⟩
    obtain ⟨payload, h⟩ := wf.edgeBetween?_of_findEdge? ((wf.mem_outEdges hn).mp mem)
    simp [h]
  · intro joined
    obtain ⟨payload, h⟩ := Option.isSome_iff_exists.mp joined
    obtain ⟨e, found, _⟩ := Option.bind_eq_some_iff.mp h
    exact ⟨e, (wf.mem_outEdges hn).mpr found⟩

theorem mem_predecessors (wf : g.WellFormed) {n source : NodeId} (hn : n < g.nodeCount) :
    source ∈ (g.inEdges n).map Prod.fst ↔ (g.edgeBetween? source n).isSome = true := by
  simp only [List.mem_map, Prod.exists, exists_and_right, exists_eq_right]
  constructor
  · rintro ⟨e, mem⟩
    obtain ⟨payload, h⟩ := wf.edgeBetween?_of_findEdge? ((wf.mem_inEdges hn).mp mem)
    simp [h]
  · intro joined
    obtain ⟨payload, h⟩ := Option.isSome_iff_exists.mp joined
    obtain ⟨e, found, _⟩ := Option.bind_eq_some_iff.mp h
    exact ⟨e, (wf.mem_inEdges hn).mpr found⟩

/-- Edits that change neither the ends of an edge nor which slots are in use. -/
theorem of_same_ends {F : Type} {h : Network F} (wf : g.WellFormed)
    (adjacency : h.adjacency = g.adjacency) (nodes : h.nodeCount = g.nodeCount)
    (free : h.free = g.free) (size : h.slots.size = g.slots.size)
    (ends : ∀ e, (h.slot? e).map (fun s => (s.source, s.target)) =
      (g.slot? e).map fun s => (s.source, s.target)) : h.WellFormed where
  table := adjacency ▸ wf.table
  order := by rw [adjacency, wf.order, nodes]
  listed u v e := by
    have same : h.findEdge? u v = g.findEdge? u v := by rw [findEdge?, adjacency, findEdge?]
    have slots := ends e
    rw [same, wf.listed]
    cases hs : h.slot? e <;> cases gs : g.slot? e <;> simp_all
  vacant e mem := by
    rw [free] at mem
    obtain ⟨lt, empty⟩ := wf.vacant e mem
    have slots := ends e
    rw [empty] at slots
    exact ⟨by lia, by simpa using slots⟩
  distinct := free ▸ wf.distinct

theorem modifyNode (wf : g.WellFormed) (n : NodeId) (f : Node → Node) :
    (g.modifyNode n f).WellFormed :=
  wf.of_same_ends rfl (by simp [nodeCount, Network.modifyNode]) rfl rfl fun _ => rfl

theorem setZ (wf : g.WellFormed) (z : NodeId) : (g.setZ z).WellFormed :=
  wf.of_same_ends rfl rfl rfl rfl fun _ => rfl

theorem setActivation (wf : g.WellFormed) (contingent activation : NodeId) :
    (g.setActivation contingent activation).WellFormed :=
  wf.of_same_ends rfl rfl rfl rfl fun _ => rfl

theorem modifyEdge (wf : g.WellFormed) (e : EdgeId) (f : E → E) :
    (g.modifyEdge e f).WellFormed := by
  refine wf.of_same_ends rfl rfl rfl (by simp [Network.modifyEdge]) fun d => ?_
  rw [slot?_modifyEdge]
  split
  · cases g.slot? d <;> rfl
  · rfl

end WellFormed

theorem wellFormed_empty : (empty : Network E).WellFormed where
  table := Adjacency.wellFormed_empty
  order := rfl
  listed u v e := by simp [findEdge?, empty, Adjacency.get?_empty, slot?]
  vacant e mem := by cases mem
  distinct := List.nodup_nil

theorem findEdge?_addNode (wf : g.WellFormed) {n : Node} {h : Network E} {id : NodeId}
    (added : g.addNode n = some (h, id)) (u v : NodeId) : h.findEdge? u v = g.findEdge? u v := by
  unfold addNode at added
  split at added
  · cases added
  · cases added
    exact Adjacency.get?_addNode wf.table u v

theorem WellFormed.addNode (wf : g.WellFormed) {n : Node} {h : Network E} {id : NodeId}
    (added : g.addNode n = some (h, id)) : h.WellFormed := by
  have kept := findEdge?_addNode wf added
  unfold Network.addNode at added
  split at added
  · cases added
  · cases added
    exact {
      table := wf.table.addNode
      order := by
        have order : g.adjacency.order = g.nodes.size := wf.order
        simp only [Adjacency.addNode, nodeCount, Array.size_push]
        split <;> simp [Adjacency.grow, order]
      listed := fun u v e => by
        rw [kept, wf.listed]
        rfl
      vacant := wf.vacant
      distinct := wf.distinct }

theorem slot?_insertEdge (wf : g.WellFormed) (name : String) (payload : E) (source target : NodeId) :
    g.slot? (g.insertEdge name payload source target).2 = none ∧
      ∀ d, (g.insertEdge name payload source target).1.slot? d =
        if (g.insertEdge name payload source target).2 = d then
          some ⟨name, source, target, payload⟩
        else g.slot? d := by
  unfold insertEdge
  split
  · rename_i e rest h
    obtain ⟨lt, empty⟩ := wf.vacant e (by simp [h])
    refine ⟨empty, fun d => ?_⟩
    simp only [slot?, Array.getElem?_setIfInBounds]
    split <;> simp_all
  · refine ⟨by simp [slot?], fun d => ?_⟩
    simp only [slot?, Array.getElem?_push]
    by_cases same : d = g.slots.size
    · simp [same]
    · simp [same, Ne.symm same]

theorem findEdge?_insertEdge (wf : g.WellFormed) (name : String) (payload : E)
    {source target : NodeId} (hs : source < g.nodeCount) (ht : target < g.nodeCount)
    (u v : NodeId) :
    (g.insertEdge name payload source target).1.findEdge? u v =
      if source = u ∧ target = v then some (g.insertEdge name payload source target).2
      else g.findEdge? u v := by
  have hs' : source < g.adjacency.order := by rwa [wf.order]
  have ht' : target < g.adjacency.order := by rwa [wf.order]
  unfold insertEdge
  split <;> exact Adjacency.get?_set wf.table _ hs' ht' u v

theorem nodes_insertEdge (g : Network E) (name : String) (payload : E) (source target : NodeId) :
    (g.insertEdge name payload source target).1.nodes = g.nodes := by
  unfold insertEdge
  split <;> rfl

theorem WellFormed.insertEdge (wf : g.WellFormed) (name : String) (payload : E)
    {source target : NodeId} (hs : source < g.nodeCount) (ht : target < g.nodeCount)
    (unjoined : g.findEdge? source target = none) :
    (g.insertEdge name payload source target).1.WellFormed := by
  obtain ⟨fresh, slots⟩ := slot?_insertEdge wf name payload source target
  have found := findEdge?_insertEdge wf name payload hs ht
  have listed : ∀ u v e, (g.insertEdge name payload source target).1.findEdge? u v = some e ↔
      ∃ slot, (g.insertEdge name payload source target).1.slot? e = some slot ∧
        slot.source = u ∧ slot.target = v := by
    intro u v e
    rw [found, slots]
    -- The id of the new edge was free, so no pair of nodes led to it; every other id keeps its pair.
    by_cases new : (g.insertEdge name payload source target).2 = e
    · subst new
      have elsewhere : g.findEdge? u v ≠ some (g.insertEdge name payload source target).2 := by
        intro h
        obtain ⟨slot, stored, _⟩ := (wf.listed u v _).mp h
        rw [fresh] at stored
        cases stored
      by_cases same : source = u ∧ target = v
      · simp [same]
      · simp only [same, if_false, elsewhere, if_true, Option.some.injEq, exists_eq_left']
    · rw [if_neg new, ← wf.listed]
      by_cases same : source = u ∧ target = v
      · obtain ⟨rfl, rfl⟩ := same
        simp [unjoined, new]
      · rw [if_neg same]
  have hs' : source < g.adjacency.order := by rwa [wf.order]
  have ht' : target < g.adjacency.order := by rwa [wf.order]
  refine ⟨?_, ?_, listed, ?_, ?_⟩
  · unfold Network.insertEdge
    split <;> exact wf.table.set _ hs' ht'
  · have order := wf.order
    unfold Network.insertEdge
    split <;> exact order
  -- The first vacant id is used up, and the list has no duplicates.
  · intro e mem
    unfold Network.insertEdge at mem ⊢
    split at mem
    · rename_i first rest h
      have distinct := wf.distinct
      rw [h, List.nodup_cons] at distinct
      obtain ⟨lt, empty⟩ := wf.vacant e (by simp [h, mem])
      have apart : first ≠ e := fun same => distinct.1 (same ▸ mem)
      refine ⟨by simpa using lt, ?_⟩
      simpa only [slot?, Array.getElem?_setIfInBounds, apart, if_false] using empty
    · rename_i h
      rw [h] at mem
      cases mem
  · have distinct := wf.distinct
    unfold Network.insertEdge
    split
    · rename_i first rest h
      rw [h, List.nodup_cons] at distinct
      exact distinct.2
    · exact distinct

theorem edgeBetween?_insertEdge (wf : g.WellFormed) (name : String) (payload : E)
    {source target : NodeId} (hs : source < g.nodeCount) (ht : target < g.nodeCount)
    (u v : NodeId) :
    (g.insertEdge name payload source target).1.edgeBetween? u v =
      if source = u ∧ target = v then some payload else g.edgeBetween? u v := by
  obtain ⟨fresh, slots⟩ := slot?_insertEdge wf name payload source target
  rw [edgeBetween?, findEdge?_insertEdge wf name payload hs ht]
  by_cases same : source = u ∧ target = v
  · rw [if_pos same, if_pos same, Option.bind_some, edge?, slots, if_pos rfl]
    rfl
  · rw [if_neg same, if_neg same, edgeBetween?]
    cases h : g.findEdge? u v with
    | none => rfl
    | some e =>
      obtain ⟨slot, stored, _⟩ := (wf.listed u v e).mp h
      have old : (g.insertEdge name payload source target).2 ≠ e := by
        intro new
        rw [new, stored] at fresh
        cases fresh
      simp [edge?, slots, old]

theorem findEdge?_edgeOrInsert (wf : g.WellFormed) {source target : NodeId}
    (hs : source < g.nodeCount) (ht : target < g.nodeCount) (payload : E) :
    (g.edgeOrInsert source target payload).1.findEdge? source target =
      some (g.edgeOrInsert source target payload).2 := by
  unfold edgeOrInsert
  cases found : g.findEdge? source target with
  | some e => exact found
  | none =>
    have inserted := findEdge?_insertEdge wf (g.freshEdgeName source target) payload hs ht
    exact (inserted source target).trans (if_pos ⟨rfl, rfl⟩)

theorem nodes_edgeOrInsert (g : Network E) (source target : NodeId) (payload : E) :
    (g.edgeOrInsert source target payload).1.nodes = g.nodes := by
  unfold edgeOrInsert
  split
  · rfl
  · exact nodes_insertEdge _ _ _ _ _

theorem WellFormed.edgeOrInsert (wf : g.WellFormed) {source target : NodeId}
    (hs : source < g.nodeCount) (ht : target < g.nodeCount) (payload : E) :
    (g.edgeOrInsert source target payload).1.WellFormed := by
  unfold Network.edgeOrInsert
  split
  · exact wf
  · rename_i unjoined
    exact wf.insertEdge _ _ hs ht unjoined

theorem edgeBetween?_edgeOrInsert (wf : g.WellFormed) {source target : NodeId}
    (hs : source < g.nodeCount) (ht : target < g.nodeCount) (payload : E) (u v : NodeId) :
    (g.edgeOrInsert source target payload).1.edgeBetween? u v =
      if source = u ∧ target = v then some ((g.edgeBetween? source target).getD payload)
      else g.edgeBetween? u v := by
  unfold edgeOrInsert
  split
  · rename_i e found
    obtain ⟨present, joined⟩ := wf.edgeBetween?_of_findEdge? found
    split
    · rename_i same
      rw [← same.1, ← same.2, joined, Option.getD_some]
    · rfl
  · rename_i unjoined
    have absent : g.edgeBetween? source target = none := by
      rw [edgeBetween?, unjoined, Option.bind_none]
    rw [edgeBetween?_insertEdge wf _ payload hs ht, absent, Option.getD_none]

theorem WellFormed.addEdgeBetween (wf : g.WellFormed) {name : String} {payload : E}
    {source target : NodeId} {h : Network E} {e : EdgeId}
    (added : g.addEdgeBetween name payload source target = some (h, e)) : h.WellFormed := by
  unfold Network.addEdgeBetween at added
  split at added
  · cases added
  · rename_i free
    simp only [not_or, Nat.not_le, Bool.not_eq_true, Option.isSome_eq_false_iff,
      Option.isNone_iff_eq_none] at free
    obtain ⟨hs, ht, _, unjoined⟩ := free
    have inserted := wf.insertEdge name payload hs ht unjoined
    rw [Option.some.inj added] at inserted
    exact inserted

/-- The network with the given nodes and edges; nothing if an addition is refused. -/
def build (nodes : List Node) (edges : List (String × NodeId × NodeId × E)) : Option (Network E) := do
  let g ← nodes.foldlM (fun g n => (g.addNode n).map Prod.fst) empty
  edges.foldlM (fun g (name, source, target, payload) =>
    (g.addEdgeBetween name payload source target).map Prod.fst) g

/-- What holds of the empty network and is kept by every addition holds of the network built. -/
theorem build_induct {P : Network E → Prop} {nodes : List Node}
    {edges : List (String × NodeId × NodeId × E)} (start : P empty)
    (node : ∀ n ∈ nodes, ∀ g h i, g.addNode n = some (h, i) → P g → P h)
    (edge : ∀ name source target payload, (name, source, target, payload) ∈ edges → ∀ g h i,
      g.addEdgeBetween name payload source target = some (h, i) → P g → P h)
    (built : build nodes edges = some g) : P g := by
  have each : ∀ {A : Type} (add : Network E → A → Option (Network E)) (items : List A),
      (∀ a ∈ items, ∀ g h, add g a = some h → P g → P h) → ∀ g h, items.foldlM add g = some h →
      P g → P h := by
    intro A add items kept
    induction items with
    | nil =>
      intro g h same holds
      cases same
      exact holds
    | cons a rest ih =>
      intro g h run holds
      obtain ⟨next, first, later⟩ := Option.bind_eq_some_iff.mp run
      exact ih (fun b mem => kept b (List.mem_cons_of_mem _ mem)) next h later
        (kept a List.mem_cons_self g next first holds)
  obtain ⟨k, first, later⟩ := Option.bind_eq_some_iff.mp built
  refine each _ edges ?_ k g later (each _ nodes ?_ empty k first start)
  · rintro ⟨name, source, target, payload⟩ mem g h added holds
    obtain ⟨⟨h, i⟩, result, rfl⟩ := Option.map_eq_some_iff.mp added
    exact edge name source target payload mem g h i result holds
  · rintro n mem g h added holds
    obtain ⟨⟨h, i⟩, result, rfl⟩ := Option.map_eq_some_iff.mp added
    exact node n mem g h i result holds

theorem WellFormed.build {nodes : List Node} {edges : List (String × NodeId × NodeId × E)}
    (built : build nodes edges = some g) : g.WellFormed :=
  build_induct (P := WellFormed) wellFormed_empty (fun _ _ _ _ _ added wf => wf.addNode added)
    (fun _ _ _ _ _ _ _ _ added wf => wf.addEdgeBetween added) built

theorem wellFormed_getD_build (nodes : List Node) (edges : List (String × NodeId × NodeId × E)) :
    ((build nodes edges).getD empty).WellFormed := by
  cases built : build nodes edges with
  | none => exact wellFormed_empty
  | some g => exact WellFormed.build built

theorem edgeBetween?_modifyEdge (wf : g.WellFormed) {source target : NodeId} {e : EdgeId}
    (found : g.findEdge? source target = some e) (f : E → E) (u v : NodeId) :
    (g.modifyEdge e f).edgeBetween? u v =
      if source = u ∧ target = v then (g.edgeBetween? u v).map f else g.edgeBetween? u v := by
  rw [edgeBetween?, findEdge?_modifyEdge, edgeBetween?]
  cases h : g.findEdge? u v with
  | none => simp
  | some d =>
    simp only [Option.bind_some, edge?, slot?_modifyEdge]
    by_cases same : e = d
    · subst same
      have ends := wf.ends_unique found h
      simp only [ends, and_self, if_true]
      cases g.slot? e <;> rfl
    · have apart : ¬ (source = u ∧ target = v) := by
        rintro ⟨rfl, rfl⟩
        rw [found] at h
        exact same (Option.some.inj h)
      simp only [same, apart, if_false]

end TemporalNetwork.Network
