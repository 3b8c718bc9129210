import Mathlib.Logic.Basic
import TemporalNetwork.Proofs.Network.WellFormed

/-!
What renaming, removing and reversing do to the view of a network. They keep it well formed; removing a
node takes its edges away and gives its number to the last node.
-/

namespace TemporalNetwork.Network

variable {E : Type} {g : Network E} {n : NodeId}

/-- Every slot without an edge waits to be used again. -/
def Vacated (g : Network E) : Prop := ∀ e < g.slots.size, g.slot? e = none → e ∈ g.free

theorem Vacated.of_same_slots {h : Network E} (vacated : g.Vacated) (free : h.free = g.free)
    (size : h.slots.size = g.slots.size) (empty : ∀ e, h.slot? e = none → g.slot? e = none) :
    h.Vacated := by
  intro e inside gone
  rw [free]
  exact vacated e (size ▸ inside) (empty e gone)

theorem Vacated.insertEdge (vacated : g.Vacated) (name : String) (payload : E)
    (source target : NodeId) : (g.insertEdge name payload source target).1.Vacated := by
  intro e inside empty
  unfold Network.insertEdge at inside empty ⊢
  split at empty <;> rename_i free
  · simp only [free, slot?, Array.getElem?_setIfInBounds, Array.size_setIfInBounds] at inside empty ⊢
    split at empty
    · rename_i same
      subst same
      simp [inside] at empty
    · rename_i apart
      have mem := vacated e inside empty
      rw [free] at mem
      exact (List.mem_cons.mp mem).resolve_left (Ne.symm apart)
  · simp only [free, slot?, Array.getElem?_push, Array.size_push] at inside empty ⊢
    split at empty
    · cases empty
    · exact free ▸ vacated e (by lia) empty

/-- Only edges differ. -/
structure SameNodes (g h : Network E) : Prop where
  nodes : h.nodes = g.nodes
  z : h.z = g.z
  activations : h.activations = g.activations

theorem SameNodes.refl (g : Network E) : g.SameNodes g := ⟨rfl, rfl, rfl⟩

theorem SameNodes.trans {h k : Network E} (first : g.SameNodes h) (second : h.SameNodes k) :
    g.SameNodes k :=
  ⟨second.nodes.trans first.nodes, second.z.trans first.z,
    second.activations.trans first.activations⟩

theorem sameNodes_insertEdge (g : Network E) (name : String) (payload : E) (source target : NodeId) :
    g.SameNodes (g.insertEdge name payload source target).1 := by
  unfold insertEdge
  split <;> exact ⟨rfl, rfl, rfl⟩

theorem sameNodes_renameEdge (g : Network E) (e : EdgeId) (name : String) :
    g.SameNodes (g.renameEdge e name).1 := by
  unfold renameEdge
  split
  · exact .refl g
  · split <;> exact ⟨rfl, rfl, rfl⟩

theorem sameNodes_removeEdge (g : Network E) (e : EdgeId) : g.SameNodes (g.removeEdge e).1 := by
  unfold removeEdge
  split <;> exact ⟨rfl, rfl, rfl⟩

theorem slot?_map {F : Type} (slots : Array (Option (EdgeSlot E))) (f : EdgeSlot E → EdgeSlot F)
    (e : EdgeId) : ((slots.map (Option.map f))[e]?).join = (slots[e]?).join.map f := by
  rw [Array.getElem?_map]
  cases slots[e]? <;> rfl

theorem ends_of_findEdge? (wf : g.WellFormed) {e : EdgeId} {a b : NodeId} {slot : EdgeSlot E}
    (found : g.findEdge? a b = some e) (stored : g.slot? e = some slot) :
    slot.source = a ∧ slot.target = b := by
  obtain ⟨slot', stored', source, target⟩ := (wf.listed a b e).mp found
  rw [stored] at stored'
  cases stored'
  exact ⟨source, target⟩

theorem slot?_renameEdge {e : EdgeId} {name : String} (free : g.findEdgeByName? name = none)
    (d : EdgeId) : (g.renameEdge e name).1.slot? d =
      if e = d then (g.slot? d).map fun slot => { slot with name := name } else g.slot? d := by
  simp only [renameEdge, free]
  split
  · rename_i absent
    split
    · rename_i same
      rw [← same, absent]
      rfl
    · rfl
  · simp only [slot?, Array.getElem?_modify]
    split
    · cases g.slots[d]? <;> rfl
    · rfl

theorem renameEdge_frame (g : Network E) (e : EdgeId) (name : String) :
    (g.renameEdge e name).1.adjacency = g.adjacency ∧ (g.renameEdge e name).1.free = g.free ∧
      (g.renameEdge e name).1.slots.size = g.slots.size := by
  unfold renameEdge
  split
  · exact ⟨rfl, rfl, rfl⟩
  · split
    · exact ⟨rfl, rfl, rfl⟩
    · exact ⟨rfl, rfl, Array.size_modify ..⟩

theorem WellFormed.renameEdge (wf : g.WellFormed) {e : EdgeId} {name : String}
    (free : g.findEdgeByName? name = none) : (g.renameEdge e name).1.WellFormed := by
  obtain ⟨adjacency, free', size⟩ := renameEdge_frame g e name
  have nodes := (sameNodes_renameEdge g e name).nodes
  refine wf.of_same_ends adjacency (congrArg Array.size nodes) free' size fun d => ?_
  rw [slot?_renameEdge free]
  split
  · cases g.slot? d <;> rfl
  · rfl

theorem Vacated.renameEdge (vacated : g.Vacated) {e : EdgeId} {name : String}
    (unused : g.findEdgeByName? name = none) : (g.renameEdge e name).1.Vacated := by
  obtain ⟨_, free, size⟩ := renameEdge_frame g e name
  refine vacated.of_same_slots free size fun d gone => ?_
  rw [slot?_renameEdge unused] at gone
  split at gone
  · exact Option.map_eq_none_iff.mp gone
  · exact gone

theorem slot?_removeEdge (g : Network E) (e d : EdgeId) :
    (g.removeEdge e).1.slot? d = if e = d then none else g.slot? d := by
  unfold removeEdge
  split
  · rename_i absent
    split
    · rename_i same
      rw [← same, absent]
    · rfl
  · simp only [slot?, Array.getElem?_setIfInBounds]
    split
    · split <;> rfl
    · rfl

theorem findEdge?_removeEdge (wf : g.WellFormed) (e : EdgeId) (u v : NodeId) :
    (g.removeEdge e).1.findEdge? u v = if g.findEdge? u v = some e then none else g.findEdge? u v := by
  cases stored : g.slot? e with
  | none =>
    have elsewhere : g.findEdge? u v ≠ some e := by
      intro found
      obtain ⟨slot, present, _⟩ := (wf.listed u v e).mp found
      rw [stored] at present
      cases present
    rw [removeEdge, stored, if_neg elsewhere]
  | some slot =>
    have found := wf.findEdge?_of_slot stored
    have ⟨hs, ht⟩ := wf.lt_of_findEdge? found
    have cleared := Adjacency.get?_set wf.table none (wf.order ▸ hs) (wf.order ▸ ht) u v
    rw [removeEdge, stored]
    refine cleared.trans ?_
    by_cases here : slot.source = u ∧ slot.target = v
    · obtain ⟨rfl, rfl⟩ := here
      rw [if_pos ⟨rfl, rfl⟩, if_pos found]
    · rw [if_neg here, if_neg fun same => here (ends_of_findEdge? wf same stored)]
      rfl

theorem WellFormed.removeEdge (wf : g.WellFormed) (e : EdgeId) : (g.removeEdge e).1.WellFormed := by
  have found := findEdge?_removeEdge wf e
  have slots := slot?_removeEdge g e
  cases stored : g.slot? e with
  | none => simpa only [Network.removeEdge, stored] using wf
  | some slot =>
    have ⟨hs, ht⟩ := wf.lt_of_findEdge? (wf.findEdge?_of_slot stored)
    refine ⟨?_, ?_, fun u v d => ?_, fun d mem => ?_, ?_⟩
    · rw [Network.removeEdge, stored]
      exact wf.table.set none (wf.order ▸ hs) (wf.order ▸ ht)
    · rw [nodeCount, (sameNodes_removeEdge g e).nodes, Network.removeEdge, stored]
      exact wf.order
    · rw [found, slots]
      by_cases same : e = d
      · subst same
        simp
      · rw [if_neg same, ← wf.listed]
        split
        · rename_i here
          simp [here, same]
        · rfl
    · rw [slots]
      rw [Network.removeEdge, stored] at mem ⊢
      rcases List.mem_cons.mp mem with rfl | mem
      · exact ⟨by simpa using slot?_lt stored, if_pos rfl⟩
      -- An id that was vacant before stays so; it cannot be the removed one, which was stored.
      · obtain ⟨inside, empty⟩ := wf.vacant d mem
        refine ⟨by simpa using inside, ?_⟩
        rw [empty]
        split <;> rfl
    · rw [Network.removeEdge, stored]
      refine List.nodup_cons.mpr ⟨fun mem => ?_, wf.distinct⟩
      rw [(wf.vacant e mem).2] at stored
      cases stored

theorem Vacated.removeEdge (vacated : g.Vacated) (e : EdgeId) : (g.removeEdge e).1.Vacated := by
  intro d inside empty
  rw [slot?_removeEdge] at empty
  cases stored : g.slot? e with
  | none =>
    rw [Network.removeEdge, stored] at inside ⊢
    refine vacated d inside ?_
    split at empty
    · rename_i same
      rw [← same, stored]
    · exact empty
  | some slot =>
    rw [Network.removeEdge, stored] at inside ⊢
    rw [Array.size_setIfInBounds] at inside
    by_cases same : e = d
    · exact same ▸ List.mem_cons_self
    · rw [if_neg same] at empty
      exact List.mem_cons_of_mem e (vacated d inside empty)

/-- Removing edges one after the other. -/
def removeEdges (g : Network E) (es : List EdgeId) : Network E :=
  es.foldl (fun g e => (g.removeEdge e).1) g

theorem slot?_removeEdges (es : List EdgeId) (g : Network E) (d : EdgeId) :
    (g.removeEdges es).slot? d = if d ∈ es then none else g.slot? d := by
  induction es generalizing g with
  | nil => simp [removeEdges]
  | cons e rest ih =>
    refine (ih (g.removeEdge e).1).trans ?_
    rw [slot?_removeEdge]
    by_cases same : e = d
    · simp [same]
    · simp [same, Ne.symm same]

/-- The edges that leave or enter a node; a self-loop comes twice. -/
def incident (g : Network E) (n : NodeId) : List EdgeId :=
  (g.outEdges n ++ g.inEdges n).map Prod.snd

def Isolated (g : Network E) (n : NodeId) : Prop :=
  ∀ e slot, g.slot? e = some slot → slot.source ≠ n ∧ slot.target ≠ n

theorem WellFormed.removeEdges (wf : g.WellFormed) (es : List EdgeId) :
    (g.removeEdges es).WellFormed := by
  induction es generalizing g with
  | nil => exact wf
  | cons e rest ih => exact ih (wf.removeEdge e)

theorem sameNodes_removeEdges (es : List EdgeId) (g : Network E) :
    g.SameNodes (g.removeEdges es) := by
  induction es generalizing g with
  | nil => exact .refl g
  | cons e rest ih => exact (sameNodes_removeEdge g e).trans (ih (g.removeEdge e).1)

theorem WellFormed.mem_incident (wf : g.WellFormed) {n : NodeId} (hn : n < g.nodeCount)
    {e : EdgeId} : e ∈ g.incident n ↔
      ∃ slot, g.slot? e = some slot ∧ (slot.source = n ∨ slot.target = n) := by
  simp only [incident, List.mem_map, List.mem_append, Prod.exists, exists_eq_right]
  constructor
  · rintro ⟨v, leaves | enters⟩
    · obtain ⟨slot, stored, source, _⟩ := (wf.listed n v e).mp ((wf.mem_outEdges hn).mp leaves)
      exact ⟨slot, stored, Or.inl source⟩
    · obtain ⟨slot, stored, _, target⟩ := (wf.listed v n e).mp ((wf.mem_inEdges hn).mp enters)
      exact ⟨slot, stored, Or.inr target⟩
  · rintro ⟨slot, stored, rfl | rfl⟩
    · exact ⟨slot.target, Or.inl ((wf.mem_outEdges hn).mpr (wf.findEdge?_of_slot stored))⟩
    · exact ⟨slot.source, Or.inr ((wf.mem_inEdges hn).mpr (wf.findEdge?_of_slot stored))⟩

theorem WellFormed.isolated (wf : g.WellFormed) {n : NodeId} (hn : n < g.nodeCount) :
    (g.removeEdges (g.incident n)).Isolated n := by
  intro e slot stored
  rw [slot?_removeEdges] at stored
  split at stored
  · cases stored
  · rename_i apart
    exact not_or.mp fun ends => apart ((wf.mem_incident hn).mpr ⟨slot, stored, ends⟩)

theorem Isolated.incident_eq_nil (isolated : g.Isolated n) (wf : g.WellFormed)
    (hn : n < g.nodeCount) : g.incident n = [] := by
  refine List.eq_nil_iff_forall_not_mem.mpr fun e mem => ?_
  obtain ⟨slot, stored, ends⟩ := (wf.mem_incident hn).mp mem
  exact not_or.mpr (isolated e slot stored) ends

theorem slot?_reverse (g : Network E) (e : EdgeId) :
    g.reverse.slot? e = (g.slot? e).map fun slot =>
      { slot with source := slot.target, target := slot.source } :=
  slot?_map g.slots _ e

theorem WellFormed.reverse (wf : g.WellFormed) : g.reverse.WellFormed where
  table := wf.table.transpose
  order := wf.order
  listed u v e := by
    have turned : g.reverse.findEdge? u v = g.findEdge? v u := Adjacency.get?_transpose wf.table u v
    rw [turned, wf.listed]
    simp only [slot?_reverse, Option.map_eq_some_iff, exists_exists_and_eq_and]
    exact exists_congr fun slot => and_congr_right fun _ => and_comm
  vacant e mem := by
    obtain ⟨inside, empty⟩ := wf.vacant e mem
    exact ⟨by simpa [Network.reverse] using inside, by rw [slot?_reverse, empty]; rfl⟩
  distinct := wf.distinct

theorem Vacated.reverse (vacated : g.Vacated) : g.reverse.Vacated := by
  refine vacated.of_same_slots rfl (Array.size_map ..) fun e gone => ?_
  rwa [slot?_reverse, Option.map_eq_none_iff] at gone

/-- The number of a node once the last node has taken the number `n`. -/
def movedTo (g : Network E) (n k : NodeId) : NodeId := if k = g.nodeCount - 1 then n else k

theorem movedTo_eq_iff (hn : n < g.nodeCount) {k u : NodeId} (hk : k < g.nodeCount) (apart : k ≠ n) :
    g.movedTo n k = u ↔ u < g.nodeCount - 1 ∧ k = if u = n then g.nodeCount - 1 else u := by
  unfold movedTo
  split <;> split <;> lia

variable [EdgePayload E]

/-- Takes an isolated node away; the last node takes its number. -/
def dropNode (g : Network E) (n : NodeId) : Network E :=
  { g with
    nodes := (g.nodes.setIfInBounds n (g.nodeD (g.nodeCount - 1))).pop
    adjacency := g.adjacency.removeNode n
    slots := if n = g.nodeCount - 1 then g.slots else g.slots.map (Option.map fun slot =>
      { slot with
        source := g.movedTo n slot.source
        target := g.movedTo n slot.target
        payload := EdgePayload.moveNode (g.nodeCount - 1) n slot.payload })
    z := (g.z.filter fun z => z != n).map (g.movedTo n)
    activations := (g.activations.filter fun a => a.1 != n && a.2 != n).map fun a =>
      (g.movedTo n a.1, g.movedTo n a.2) }

theorem removeNode_eq (g : Network E) (n : NodeId) :
    g.removeNode n = (g.node? n).map fun removed =>
      ((g.removeEdges (g.incident n)).dropNode n, removed) := by
  unfold removeNode
  cases g.node? n <;> rfl

theorem nodeCount_dropNode (g : Network E) (n : NodeId) :
    (g.dropNode n).nodeCount = g.nodeCount - 1 := by
  simp [nodeCount, dropNode]

theorem node?_dropNode (hn : n < g.nodeCount) (k : NodeId) :
    (g.dropNode n).node? k = if k < g.nodeCount - 1 then
      g.node? (if k = n then g.nodeCount - 1 else k) else none := by
  have last : g.nodeCount - 1 < g.nodes.size := by
    rw [nodeCount] at hn ⊢
    lia
  have present : g.nodeD (g.nodeCount - 1) = g.nodes[g.nodeCount - 1] := by
    rw [nodeD, node?, Array.getElem?_eq_getElem last, Option.getD_some]
  simp only [node?, dropNode, Array.getElem?_pop, Array.size_setIfInBounds,
    Array.getElem?_setIfInBounds, present]
  rw [show g.nodes.size = g.nodeCount from rfl]
  split
  · by_cases same : n = k
    · subst same
      simp [Array.getElem?_eq_getElem last]
    · simp [same, Ne.symm same]
  · rfl

theorem slot?_dropNode (g : Network E) (n : NodeId) (e : EdgeId) :
    (g.dropNode n).slot? e = (g.slot? e).map fun slot =>
      { slot with
        source := g.movedTo n slot.source
        target := g.movedTo n slot.target
        payload := if n = g.nodeCount - 1 then slot.payload
          else EdgePayload.moveNode (g.nodeCount - 1) n slot.payload } := by
  unfold dropNode slot?
  by_cases last : n = g.nodeCount - 1
  · have stays : ∀ k, g.movedTo n k = k := by
      intro k
      unfold movedTo
      split
      · rename_i same
        rw [last, same]
      · rfl
    simp only [if_pos last, stays]
    exact Option.map_id'.symm
  · simp only [if_neg last]
    exact slot?_map g.slots _ e

theorem findEdge?_dropNode (wf : g.WellFormed) (n u v : NodeId) :
    (g.dropNode n).findEdge? u v =
      if u < g.nodeCount - 1 ∧ v < g.nodeCount - 1 then
        g.findEdge? (if u = n then g.nodeCount - 1 else u) (if v = n then g.nodeCount - 1 else v)
      else none := by
  have removed := Adjacency.get?_removeNode wf.table n u v
  simp only [Adjacency.origin, wf.order] at removed
  exact removed

theorem WellFormed.dropNode (wf : g.WellFormed) (isolated : g.Isolated n) (hn : n < g.nodeCount) :
    (g.dropNode n).WellFormed where
  table := wf.table.removeNode n
  order := by
    rw [nodeCount_dropNode, ← wf.order]
    rfl
  listed u v e := by
    rw [findEdge?_dropNode wf]
    -- Away from `n` the renumbering is injective, and the edges that are left are away from `n`.
    simp only [slot?_dropNode, Option.map_eq_some_iff, exists_exists_and_eq_and]
    constructor
    · intro found
      split at found
      · rename_i inside
        obtain ⟨slot, stored, source, target⟩ := (wf.listed _ _ e).mp found
        obtain ⟨hs, ht⟩ := wf.lt_of_findEdge? (wf.findEdge?_of_slot stored)
        obtain ⟨apart, apart'⟩ := isolated e slot stored
        exact ⟨slot, stored, (movedTo_eq_iff hn hs apart).mpr ⟨inside.1, source⟩,
          (movedTo_eq_iff hn ht apart').mpr ⟨inside.2, target⟩⟩
      · cases found
    · rintro ⟨slot, stored, source, target⟩
      obtain ⟨hs, ht⟩ := wf.lt_of_findEdge? (wf.findEdge?_of_slot stored)
      obtain ⟨apart, apart'⟩ := isolated e slot stored
      obtain ⟨hu, source⟩ := (movedTo_eq_iff hn hs apart).mp source
      obtain ⟨hv, target⟩ := (movedTo_eq_iff hn ht apart').mp target
      rw [if_pos ⟨hu, hv⟩]
      exact (wf.listed _ _ e).mpr ⟨slot, stored, source, target⟩
  vacant e mem := by
    obtain ⟨inside, empty⟩ := wf.vacant e mem
    refine ⟨?_, by rw [slot?_dropNode, empty]; rfl⟩
    unfold Network.dropNode
    dsimp only
    split
    · exact inside
    · rwa [Array.size_map]
  distinct := wf.distinct

theorem Vacated.dropNode (vacated : g.Vacated) (n : NodeId) : (g.dropNode n).Vacated := by
  intro e inside empty
  rw [slot?_dropNode, Option.map_eq_none_iff] at empty
  refine vacated e ?_ empty
  unfold Network.dropNode at inside
  dsimp only at inside
  split at inside
  · exact inside
  · rwa [Array.size_map] at inside

end TemporalNetwork.Network
