import TemporalNetwork.Proofs.Network.WellFormed

/-!
Networks that differ only in what their edges carry. Whether an addition is refused does not depend on
that, so the same nodes and edges build such networks for different kinds of edges.
-/

namespace TemporalNetwork.Network

variable {E F : Type} {f : E → F} {g h : Network E} {nodes : List Node}
  {edges : List (String × NodeId × NodeId × E)}

def mapEdge (f : E → F) (slot : EdgeSlot E) : EdgeSlot F :=
  ⟨slot.name, slot.source, slot.target, f slot.payload⟩

/-- The network with other data on its edges. -/
def mapEdges (f : E → F) (g : Network E) : Network F :=
  { g with slots := g.slots.map (Option.map (mapEdge f)) }

theorem slot?_mapEdges (e : EdgeId) : (g.mapEdges f).slot? e = (g.slot? e).map (mapEdge f) := by
  simp only [slot?, mapEdges, Array.getElem?_map]
  cases g.slots[e]? <;> rfl

theorem slot?_mapEdges_of_some {e : EdgeId} {slot : EdgeSlot E} (stored : g.slot? e = some slot) :
    (g.mapEdges f).slot? e = some (mapEdge f slot) := by
  rw [slot?_mapEdges, stored, Option.map_some]

theorem WellFormed.mapEdges (wf : g.WellFormed) : (g.mapEdges f).WellFormed := by
  refine wf.of_same_ends rfl rfl rfl (by simp [Network.mapEdges]) fun e => ?_
  rw [slot?_mapEdges]
  cases g.slot? e <;> rfl

theorem edgeBetween?_mapEdges (u v : NodeId) :
    (g.mapEdges f).edgeBetween? u v = (g.edgeBetween? u v).map f := by
  change (g.findEdge? u v).bind (g.mapEdges f).edge? = ((g.findEdge? u v).bind g.edge?).map f
  cases g.findEdge? u v with
  | none => rfl
  | some e =>
    rw [Option.bind_some, Option.bind_some, edge?, slot?_mapEdges, edge?]
    cases g.slot? e <;> rfl

theorem addNode_mapEdges (n : Node) :
    (g.mapEdges f).addNode n = (g.addNode n).map fun result => (result.1.mapEdges f, result.2) := by
  change (if (g.findNode? n.name).isSome then none else some _) = _
  unfold addNode
  split <;> rfl

theorem insertEdge_mapEdges (name : String) (payload : E) (source target : NodeId) :
    (g.mapEdges f).insertEdge name (f payload) source target =
      ((g.insertEdge name payload source target).1.mapEdges f,
        (g.insertEdge name payload source target).2) := by
  unfold insertEdge mapEdges
  cases g.free with
  | nil => simp [mapEdge]
  | cons e free => simp [mapEdge]

theorem findEdgeByName?_mapEdges (name : String) :
    (g.mapEdges f).findEdgeByName? name = g.findEdgeByName? name := by
  unfold findEdgeByName? mapEdges
  rw [Array.findIdx?_map]
  congr 1
  funext s
  cases s <;> rfl

theorem addEdgeBetween_mapEdges (name : String) (payload : E) (source target : NodeId) :
    (g.mapEdges f).addEdgeBetween name (f payload) source target =
      (g.addEdgeBetween name payload source target).map fun result =>
        (result.1.mapEdges f, result.2) := by
  unfold addEdgeBetween
  rw [findEdgeByName?_mapEdges, insertEdge_mapEdges]
  rw [apply_ite (Option.map _)]
  rfl

theorem foldlM_map_network {A : Type} (add : Network E → A → Option (Network E))
    (add' : Network F → A → Option (Network F))
    (step : ∀ g a, add' (g.mapEdges f) a = (add g a).map (mapEdges f)) (items : List A) (g : Network E) :
    items.foldlM add' (g.mapEdges f) = (items.foldlM add g).map (mapEdges f) := by
  induction items generalizing g with
  | nil => rfl
  | cons a rest ih =>
    rw [List.foldlM_cons, List.foldlM_cons, step]
    cases add g a with
    | none => rfl
    | some next => exact ih next

/-- The same nodes and edges build networks that only differ in what the edges carry. -/
theorem build_map (f : E → F) (nodes : List Node) (edges : List (String × NodeId × NodeId × E)) :
    build nodes (edges.map fun (name, source, target, payload) => (name, source, target, f payload)) =
      (build nodes edges).map (mapEdges f) := by
  have first := foldlM_map_network (f := f) (fun g n => (g.addNode n).map Prod.fst)
    (fun g n => (g.addNode n).map Prod.fst) (fun g n => by
      rw [addNode_mapEdges, Option.map_map, Option.map_map]
      rfl) nodes empty
  have later := fun g : Network E => foldlM_map_network (f := f)
    (fun g (name, source, target, payload) =>
      (g.addEdgeBetween name payload source target).map Prod.fst)
    (fun g (name, source, target, payload) =>
      (g.addEdgeBetween name (f payload) source target).map Prod.fst)
    (fun g (name, source, target, payload) => by
      dsimp only
      rw [addEdgeBetween_mapEdges, Option.map_map, Option.map_map]
      rfl) edges g
  have nothing : (empty : Network E).mapEdges f = empty := by simp [mapEdges, empty]
  rw [nothing] at first
  unfold build
  rw [first]
  cases nodes.foldlM (fun g n => (g.addNode n).map Prod.fst) (empty : Network E) with
  | none => rfl
  | some g =>
    change List.foldlM _ (g.mapEdges f) _ = _
    rw [List.foldlM_map]
    exact later g

theorem eq_insertEdge {name : String} {payload : E} {source target : NodeId} {i : EdgeId}
    (added : g.addEdgeBetween name payload source target = some (h, i)) :
    h = (g.insertEdge name payload source target).1 := by
  unfold addEdgeBetween at added
  split at added
  · cases added
  · rw [Option.some.inj added]

theorem mem_of_build (built : build nodes edges = some g) : ∀ n ∈ g.nodes, n ∈ nodes := by
  refine build_induct (P := fun g => ∀ n ∈ g.nodes, n ∈ nodes) (fun n mem => ?_)
    (fun n mem g h i added kept m mem' => ?_) (fun name source target payload _ g h i added kept => ?_)
    built
  · simp [empty] at mem
  · unfold addNode at added
    split at added
    · cases added
    · cases added
      rcases Array.mem_push.mp mem' with before | rfl
      · exact kept m before
      · exact mem
  · rw [eq_insertEdge added, nodes_insertEdge]
    exact kept

theorem mem_of_slot?_build (built : build nodes edges = some g) {e : EdgeId} {slot : EdgeSlot E}
    (stored : g.slot? e = some slot) :
    (slot.name, slot.source, slot.target, slot.payload) ∈ edges := by
  refine (build_induct (P := fun g => g.WellFormed ∧ ∀ e slot, g.slot? e = some slot →
    (slot.name, slot.source, slot.target, slot.payload) ∈ edges) ⟨wellFormed_empty, ?_⟩ ?_ ?_
    built).2 e slot stored
  · intro e slot stored
    simp [empty, slot?] at stored
  · rintro n _ g h i added ⟨wf, kept⟩
    refine ⟨wf.addNode added, ?_⟩
    unfold addNode at added
    split at added
    · cases added
    · cases added
      exact kept
  · rintro name source target payload mem g h i added ⟨wf, kept⟩
    refine ⟨wf.addEdgeBetween added, fun e slot stored => ?_⟩
    rw [eq_insertEdge added, (slot?_insertEdge wf name payload source target).2] at stored
    split at stored
    · cases stored
      exact mem
    · exact kept e slot stored

end TemporalNetwork.Network
