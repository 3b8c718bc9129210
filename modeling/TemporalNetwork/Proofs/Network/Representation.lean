import TemporalNetwork.Edge.PlainEdge
import TemporalNetwork.Proofs.Network.NameIndex
import TemporalNetwork.Proofs.Network.Names

/-!
A network that keeps tables of its names is described by them. Each edit keeps the tables, the slots
and the table of node pairs in agreement, so every network that is built by edits is represented
faithfully, and it is the network that the same edits make when names are searched for.
-/

namespace TemporalNetwork

/-- A change to a network through its interface. -/
inductive Edit (E : Type) where
  | addNode (n : Node)
  | modifyNode (n : NodeId) (f : Node → Node)
  | renameNode (n : NodeId) (name : String)
  | removeNode (n : NodeId)
  | addEdge (name : String) (payload : E) (source target : String)
  | addEdgeBetween (name : String) (payload : E) (source target : NodeId)
  | edgeOrInsert (source target : NodeId) (payload : E)
  | modifyEdge (e : EdgeId) (f : E → E)
  | renameEdge (e : EdgeId) (name : String)
  | removeEdge (e : EdgeId)
  | reverse
  | setZ (z : NodeId)
  | setActivation (contingent activation : NodeId)

namespace Edit

variable {E : Type}

/-- What an edit relies on: a change to a node keeps its name, and the reference node and the ends of
a contingent link are nodes. -/
def Admissible (g : Network E) : Edit E → Prop
  | modifyNode _ f => ∀ node, (f node).name = node.name
  | setZ z => z < g.nodeCount
  | setActivation contingent activation => contingent < g.nodeCount ∧ activation < g.nodeCount
  | _ => True

variable [EdgePayload E]

/-- The network after an edit; a refused one leaves it as it is. -/
def apply (g : Network E) : Edit E → Except Fault (Network E)
  | addNode n => .ok ((g.addNode n).elim g Prod.fst)
  | modifyNode n f => .ok (g.modifyNode n f)
  | renameNode n name => (g.renameNode n name).map Prod.fst
  | removeNode n => .ok ((g.removeNode n).elim g Prod.fst)
  | addEdge name payload source target => .ok ((g.addEdge name payload source target).elim g Prod.fst)
  | addEdgeBetween name payload source target =>
    .ok ((g.addEdgeBetween name payload source target).elim g Prod.fst)
  | edgeOrInsert source target payload => do
    let _ ← g.node source
    let _ ← g.node target
    return (g.edgeOrInsert source target payload).1
  | modifyEdge e f => .ok (g.modifyEdge e f)
  | renameEdge e name => .ok (g.renameEdge e name).1
  | removeEdge e => .ok (g.removeEdge e).1
  | reverse => .ok g.reverse
  | setZ z => .ok (g.setZ z)
  | setActivation contingent activation => .ok (g.setActivation contingent activation)

/-- The same for a network that keeps tables of its names. -/
def perform (m : IndexedNetwork E) : Edit E → Except Fault (IndexedNetwork E)
  | addNode n => .ok ((m.addNode n).elim m Prod.fst)
  | modifyNode n f => .ok (m.modifyNode n f)
  | renameNode n name => (m.renameNode n name).map Prod.fst
  | removeNode n => .ok ((m.removeNode n).elim m Prod.fst)
  | addEdge name payload source target => .ok ((m.addEdge name payload source target).elim m Prod.fst)
  | addEdgeBetween name payload source target =>
    .ok ((m.addEdgeBetween name payload source target).elim m Prod.fst)
  | edgeOrInsert source target payload => (m.edgeOrInsert source target payload).map Prod.fst
  | modifyEdge e f => .ok (m.modifyEdge e f)
  | renameEdge e name => .ok (m.renameEdge e name).1
  | removeEdge e => .ok (m.removeEdge e).1
  | reverse => .ok m.reverse
  | setZ z => .ok (m.setZ z)
  | setActivation contingent activation => .ok (m.setActivation contingent activation)

end Edit

theorem of_map_eq_ok {ε α β : Type} {x : Except ε α} {f : α → β} {b : β} (h : x.map f = .ok b) :
    ∃ a, x = .ok a ∧ f a = b := by
  cases x with
  | error fault => cases h
  | ok a => exact ⟨a, rfl, Except.ok.inj h⟩

namespace IndexedNetwork

variable {E : Type} {m m' : IndexedNetwork E} {n : NodeId}

/-- Removing edges one after the other. -/
def removeEdges (m : IndexedNetwork E) (es : List EdgeId) : IndexedNetwork E :=
  es.foldl (fun m e => (m.removeEdge e).1) m

theorem removeNode_eq [EdgePayload E] (m : IndexedNetwork E) (n : NodeId) :
    m.removeNode n = ((m.removeEdges (m.network.incident n)).network.removeNode n).map
      fun (g, removed) =>
        let isolated := m.removeEdges (m.network.incident n)
        let remaining := m.nodeIndex.erase removed.name
        ({ isolated with
          network := g
          nodeIndex := if n = g.nodeCount then remaining else remaining.insert (g.nodeName n) n },
        removed) := rfl

/-- The networks that edits build from the empty one. -/
inductive Built [EdgePayload E] : List (Edit E) → IndexedNetwork E → Prop where
  | empty : Built [] .empty
  | edit {edits : List (Edit E)} {m m' : IndexedNetwork E} (edit : Edit E) (before : Built edits m)
      (admissible : edit.Admissible m.network) (performed : edit.perform m = .ok m') :
      Built (edits ++ [edit]) m'

/-- The structures that make up a network describe the same nodes and edges. -/
structure Faithful (m : IndexedNetwork E) : Prop where
  wellFormed : m.network.WellFormed
  vacated : m.network.Vacated
  nodes : m.nodeIndex.Lists m.network.nodeName?
  edges : m.edgeIndex.Lists m.network.edgeName?
  z : ∀ z, m.network.z = some z → z < m.network.nodeCount
  activations : ∀ a ∈ m.network.activations, a.1 < m.network.nodeCount ∧ a.2 < m.network.nodeCount
  keys : (m.network.activations.map Prod.fst).Nodup

namespace Faithful

theorem findNode?_eq (f : m.Faithful) (name : String) :
    m.findNode? name = m.network.findNode? name := by
  cases found : m.network.findNode? name with
  | none => exact f.nodes.find?_eq_none_iff.mpr (Network.findNode?_eq_none_iff.mp found)
  | some n => exact f.nodes.find?_eq_some_iff.mpr (Network.nodeName?_of_findNode? found)

theorem findEdgeByName?_eq (f : m.Faithful) (name : String) :
    m.findEdgeByName? name = m.network.findEdgeByName? name := by
  cases found : m.network.findEdgeByName? name with
  | none => exact f.edges.find?_eq_none_iff.mpr (Network.findEdgeByName?_eq_none_iff.mp found)
  | some e => exact f.edges.find?_eq_some_iff.mpr (Network.edgeName?_of_findEdgeByName? found)

theorem edgeCount_eq (f : m.Faithful) : m.edgeCount = m.network.edgeIds.length := by
  refine f.edges.size_eq (List.nodup_range.filter _) fun e => ?_
  rw [Network.mem_edgeIds, Network.edgeName?, Option.isSome_map]

theorem freshEdgeName_eq (f : m.Faithful) {source target : NodeId} {a b : Node}
    (ha : m.network.node? source = some a) (hb : m.network.node? target = some b) :
    m.freshEdgeName a b = m.network.freshEdgeName source target := by
  have taken : (fun name => (m.findEdgeByName? name).isSome) =
      fun name => (m.network.findEdgeByName? name).isSome :=
    funext fun name => congrArg Option.isSome (f.findEdgeByName?_eq name)
  rw [freshEdgeName, taken, f.edgeCount_eq, Network.length_edgeIds, Network.freshEdgeName,
    Network.nodeName, Network.nodeName, Network.nodeD, Network.nodeD, ha, hb]
  rfl

theorem freshEdgeName_unused (m : IndexedNetwork E) (a b : Node) :
    m.findEdgeByName? (m.freshEdgeName a b) = none := by
  have listed : ∀ name, (m.findEdgeByName? name).isSome = true →
      name ∈ m.edgeIndex.entries.map Prod.fst := by
    intro name taken
    obtain ⟨e, found⟩ := Option.isSome_iff_exists.mp taken
    obtain ⟨entry, found, _⟩ := Option.map_eq_some_iff.mp found
    have same : entry.1 = name := by simpa using List.find?_some found
    exact List.mem_map.mpr ⟨entry, List.mem_of_find?_eq_some found, same⟩
  have enough : (m.edgeIndex.entries.map Prod.fst).length < m.edgeCount + 1 := by
    simp [edgeCount, NameIndex.size]
  have free := firstUnused_free (fun _ _ => numbered_injective (a.name ++ "_" ++ b.name)) listed enough
  exact Option.isSome_eq_false_iff.mp free |> Option.isNone_iff_eq_none.mp

theorem of_sameNodes (f : m.Faithful) (same : m.network.SameNodes m'.network)
    (nodeIndex : m'.nodeIndex = m.nodeIndex) (wf : m'.network.WellFormed)
    (vacated : m'.network.Vacated) (edges : m'.edgeIndex.Lists m'.network.edgeName?) :
    m'.Faithful := by
  have count : m'.network.nodeCount = m.network.nodeCount := congrArg Array.size same.nodes
  refine ⟨wf, vacated, nodeIndex ▸ f.nodes.congr same.nodeName?, edges, ?_, ?_, ?_⟩
  · rw [same.z, count]
    exact f.z
  · rw [same.activations, count]
    exact f.activations
  · exact same.activations ▸ f.keys

theorem addNode_eq (f : m.Faithful) (n : Node) :
    m.addNode n = (m.network.addNode n).map fun (g, id) =>
      ({ m with network := g, nodeIndex := m.nodeIndex.insert n.name id }, id) := by
  unfold IndexedNetwork.addNode
  rw [f.findNode?_eq]
  split
  · rename_i taken
    rw [Network.addNode, if_pos taken]
    rfl
  · rfl

theorem addNode (f : m.Faithful) (n : Node) : ((m.addNode n).elim m Prod.fst).Faithful := by
  rw [f.addNode_eq]
  cases added : m.network.addNode n with
  | none => exact f
  | some result =>
    have wf := f.wellFormed.addNode added
    unfold Network.addNode at added
    split at added
    · cases added
    · rename_i unused
      cases added
      have unused : ∀ k, m.network.nodeName? k ≠ some n.name :=
        Network.findNode?_eq_none_iff.mp (by simpa using unused)
      have count : m.network.nodeCount < (m.network.nodes.push n).size := by
        simp [Network.nodeCount]
      refine ⟨wf, f.vacated, ?_, f.edges, fun z hz => ?_, fun a mem => ?_, f.keys⟩
      · exact (f.nodes.insert_unused (Network.nodeName?_eq_none (Nat.le_refl _)) unused).congr
          (Network.nodeName?_push n)
      · dsimp only [Option.map_some, Option.elim_some] at hz
        split at hz
        · exact Option.some.inj hz ▸ count
        · exact Nat.lt_trans (f.z z hz) count
      · obtain ⟨ha, hb⟩ := f.activations a mem
        exact ⟨Nat.lt_trans ha count, Nat.lt_trans hb count⟩

theorem modifyNode (f : m.Faithful) (n : NodeId) {change : Node → Node}
    (keeps : ∀ node, (change node).name = node.name) : (m.modifyNode n change).Faithful := by
  have count : (m.network.modifyNode n change).nodeCount = m.network.nodeCount :=
    Array.size_modify ..
  refine ⟨f.wellFormed.modifyNode n change, f.vacated, ?_, f.edges, ?_, ?_, f.keys⟩
  · exact f.nodes.congr (Network.nodeName?_modifyNode keeps n)
  · exact fun z hz => count ▸ f.z z hz
  · exact fun a mem => count ▸ f.activations a mem

theorem renameNode (f : m.Faithful) {name : String} {result : IndexedNetwork E × Bool}
    (performed : m.renameNode n name = .ok result) : result.1.Faithful := by
  unfold IndexedNetwork.renameNode at performed
  split at performed
  · cases performed
    exact f
  · rename_i unused
    split at performed
    · cases performed
    · rename_i node present
      cases performed
      have named : m.network.nodeName? n = some node.name := by
        rw [Network.nodeName?, present, Option.map_some]
      have unused := f.nodes.find?_eq_none_iff.mp unused
      have count : (m.network.modifyNode n fun node => { node with name := name }).nodeCount =
          m.network.nodeCount := Array.size_modify ..
      refine ⟨f.wellFormed.modifyNode n _, f.vacated, ?_, f.edges, ?_, ?_, f.keys⟩
      · exact (f.nodes.rename named unused).congr (Network.nodeName?_setName present name)
      · exact fun z hz => count ▸ f.z z hz
      · exact fun a mem => count ▸ f.activations a mem

theorem renameNode_network (f : m.Faithful) (n : NodeId) (name : String) :
    ((m.renameNode n name).map Prod.fst).map IndexedNetwork.network =
      (m.network.renameNode n name).map Prod.fst := by
  unfold IndexedNetwork.renameNode Network.renameNode
  rw [f.findNode?_eq]
  cases m.network.findNode? name with
  | some present => rfl
  | none => cases m.network.node? n <;> rfl

theorem insertEdge (f : m.Faithful) {name : String} (payload : E) {source target : NodeId}
    (hs : source < m.network.nodeCount) (ht : target < m.network.nodeCount)
    (unjoined : m.network.findEdge? source target = none)
    (unused : m.findEdgeByName? name = none) :
    (m.insertEdge name payload source target).1.Faithful := by
  have nameless : m.network.edgeName? (m.network.insertEdge name payload source target).2 = none := by
    rw [Network.edgeName?, (Network.slot?_insertEdge f.wellFormed name payload source target).1]
    rfl
  have unused := f.edges.find?_eq_none_iff.mp unused
  exact f.of_sameNodes (Network.sameNodes_insertEdge ..) rfl
    (f.wellFormed.insertEdge name payload hs ht unjoined)
    (f.vacated.insertEdge name payload source target)
    ((f.edges.insert_unused nameless unused).congr
      (Network.edgeName?_insertEdge f.wellFormed name payload source target))

theorem addEdgeBetween_eq (f : m.Faithful) (name : String) (payload : E) (source target : NodeId) :
    (m.addEdgeBetween name payload source target).map (fun r => (r.1.network, r.2)) =
      m.network.addEdgeBetween name payload source target := by
  rw [IndexedNetwork.addEdgeBetween, Network.addEdgeBetween, f.findEdgeByName?_eq]
  split <;> rfl

theorem addEdgeBetween (f : m.Faithful) (name : String) (payload : E) (source target : NodeId) :
    ((m.addEdgeBetween name payload source target).elim m Prod.fst).Faithful := by
  unfold IndexedNetwork.addEdgeBetween
  split
  · exact f
  · rename_i allowed
    simp only [not_or, Nat.not_le, Bool.not_eq_true, Option.isSome_eq_false_iff,
      Option.isNone_iff_eq_none] at allowed
    obtain ⟨hs, ht, unused, unjoined⟩ := allowed
    exact f.insertEdge payload hs ht unjoined unused

theorem addEdge_eq (f : m.Faithful) (name : String) (payload : E) (source target : String) :
    (m.addEdge name payload source target).map (fun r => (r.1.network, r.2)) =
      m.network.addEdge name payload source target := by
  unfold IndexedNetwork.addEdge Network.addEdge
  rw [f.findNode?_eq, f.findNode?_eq]
  cases m.network.findNode? source with
  | none => rfl
  | some a =>
    cases m.network.findNode? target with
    | none => rfl
    | some b => exact f.addEdgeBetween_eq name payload a b

theorem addEdge (f : m.Faithful) (name : String) (payload : E) (source target : String) :
    ((m.addEdge name payload source target).elim m Prod.fst).Faithful := by
  unfold IndexedNetwork.addEdge
  cases m.findNode? source with
  | none => exact f
  | some a =>
    cases m.findNode? target with
    | none => exact f
    | some b => exact f.addEdgeBetween name payload a b

theorem edgeOrInsert_network (f : m.Faithful) (source target : NodeId) (payload : E) :
    (m.edgeOrInsert source target payload).map (fun r => r.1.network) = do
      let _ ← m.network.node source
      let _ ← m.network.node target
      return (m.network.edgeOrInsert source target payload).1 := by
  unfold IndexedNetwork.edgeOrInsert Network.edgeOrInsert Network.node
  cases found : m.network.findEdge? source target with
  | some e =>
    obtain ⟨hs, ht⟩ := f.wellFormed.lt_of_findEdge? found
    rw [Network.node?, Network.node?, Array.getElem?_eq_getElem hs, Array.getElem?_eq_getElem ht]
    rfl
  | none =>
    cases hs : m.network.node? source with
    | none => rfl
    | some a =>
      cases ht : m.network.node? target with
      | none => rfl
      | some b =>
        dsimp only [bind, Except.bind]
        rw [f.freshEdgeName_eq hs ht]
        rfl

theorem edgeOrInsert (f : m.Faithful) {source target : NodeId} {payload : E}
    {result : IndexedNetwork E × EdgeId}
    (performed : m.edgeOrInsert source target payload = .ok result) : result.1.Faithful := by
  unfold IndexedNetwork.edgeOrInsert at performed
  split at performed
  · cases performed
    exact f
  · rename_i unjoined
    cases hs : m.network.node? source with
    | none => simp [Network.node, hs, bind, Except.bind] at performed
    | some a =>
      cases ht : m.network.node? target with
      | none => simp [Network.node, hs, ht, bind, Except.bind] at performed
      | some b =>
        simp [Network.node, hs, ht, bind, Except.bind, pure, Except.pure] at performed
        subst performed
        exact f.insertEdge payload (Array.getElem?_eq_some_iff.mp hs).1
          (Array.getElem?_eq_some_iff.mp ht).1 unjoined (freshEdgeName_unused m a b)

theorem modifyEdge (f : m.Faithful) (e : EdgeId) (change : E → E) :
    (m.modifyEdge e change).Faithful := by
  refine f.of_sameNodes ⟨rfl, rfl, rfl⟩ rfl (f.wellFormed.modifyEdge e change) ?_
    (f.edges.congr fun d => Network.edgeName?_modifyEdge e d change)
  refine f.vacated.of_same_slots rfl (Array.size_modify ..) fun d gone => ?_
  rw [IndexedNetwork.modifyEdge, Network.slot?_modifyEdge] at gone
  split at gone
  · exact Option.map_eq_none_iff.mp gone
  · exact gone

theorem renameEdge_network (f : m.Faithful) (e : EdgeId) (name : String) :
    (m.renameEdge e name).1.network = (m.network.renameEdge e name).1 := by
  unfold IndexedNetwork.renameEdge
  rw [f.findEdgeByName?_eq]
  split
  · rename_i taken
    rw [Network.renameEdge, taken]
  · rename_i unused
    split
    · rename_i absent
      rw [Network.renameEdge, unused, absent]
    · rfl

theorem renameEdge (f : m.Faithful) (e : EdgeId) (name : String) :
    (m.renameEdge e name).1.Faithful := by
  unfold IndexedNetwork.renameEdge
  split
  · exact f
  · rename_i unused
    split
    · exact f
    · rename_i slot stored
      have named : m.network.edgeName? e = some slot.name := by
        rw [Network.edgeName?, stored, Option.map_some]
      have free : m.network.findEdgeByName? name = none := f.findEdgeByName?_eq name ▸ unused
      have renamed := f.edges.rename named (f.edges.find?_eq_none_iff.mp unused)
      exact f.of_sameNodes (Network.sameNodes_renameEdge m.network e name) rfl
        (f.wellFormed.renameEdge free) (f.vacated.renameEdge free)
        (renamed.congr (Network.edgeName?_renameEdge free named))

theorem removeEdge_network (m : IndexedNetwork E) (e : EdgeId) :
    (m.removeEdge e).1.network = (m.network.removeEdge e).1 := by
  unfold IndexedNetwork.removeEdge
  split
  · rename_i absent
    rw [Network.removeEdge, absent]
  · rfl

theorem removeEdge (f : m.Faithful) (e : EdgeId) : (m.removeEdge e).1.Faithful := by
  unfold IndexedNetwork.removeEdge
  split
  · exact f
  · rename_i slot stored
    have named : m.network.edgeName? e = some slot.name := by
      rw [Network.edgeName?, stored, Option.map_some]
    exact f.of_sameNodes (Network.sameNodes_removeEdge m.network e) rfl (f.wellFormed.removeEdge e)
      (f.vacated.removeEdge e) ((f.edges.erase named).congr (Network.edgeName?_removeEdge e))

theorem removeEdges (f : m.Faithful) (es : List EdgeId) :
    (m.removeEdges es).Faithful ∧ (m.removeEdges es).network = m.network.removeEdges es ∧
      (m.removeEdges es).nodeIndex = m.nodeIndex := by
  induction es generalizing m with
  | nil => exact ⟨f, rfl, rfl⟩
  | cons e rest ih =>
    obtain ⟨faithful, network, nodeIndex⟩ := ih (f.removeEdge e)
    rw [removeEdge_network] at network
    refine ⟨faithful, network, nodeIndex.trans ?_⟩
    unfold IndexedNetwork.removeEdge
    split <;> rfl

/-- The table of node names after the last node has taken the number `n`. -/
theorem renumbered [EdgePayload E] (f : m.Faithful) (hn : n < m.network.nodeCount) {removed : Node}
    (present : m.network.node? n = some removed) :
    (if n = (m.network.dropNode n).nodeCount then m.nodeIndex.erase removed.name
      else (m.nodeIndex.erase removed.name).insert ((m.network.dropNode n).nodeName n) n).Lists
      (m.network.dropNode n).nodeName? := by
  have named : m.network.nodeName? n = some removed.name := by
    rw [Network.nodeName?, present, Option.map_some]
  have remaining := f.nodes.erase named
  have names := Network.nodeName?_dropNode (g := m.network) hn
  have beyond : ∀ j, ¬ j < m.network.nodeCount → m.network.nodeName? j = none :=
    fun j outside => Network.nodeName?_eq_none (Nat.not_lt.mp outside)
  rw [Network.nodeCount_dropNode]
  split
  · rename_i last
    refine remaining.congr fun j => ?_
    rw [names]
    grind
  · rename_i inner
    have moved : (m.network.dropNode n).nodeName? n = m.network.nodeName? (m.network.nodeCount - 1) := by
      rw [names, if_pos (by lia), if_pos rfl]
    have last : m.network.nodeName? (m.network.nodeCount - 1) =
        some ((m.network.dropNode n).nodeName n) := by
      have inside : n < (m.network.dropNode n).nodeCount := by
        rw [Network.nodeCount_dropNode]
        lia
      rw [← moved, Network.nodeName?, Network.nodeName, Network.nodeD, Network.node?,
        Array.getElem?_eq_getElem inside]
      rfl
    have alone : ∀ j, m.network.nodeName? j = some ((m.network.dropNode n).nodeName n) →
        j = m.network.nodeCount - 1 := fun j same => f.nodes.unique same last
    refine (remaining.insert (if_pos rfl) _).congr fun j => ?_
    rw [names]
    grind

theorem dropNode [EdgePayload E] (f : m.Faithful) (hn : n < m.network.nodeCount) {removed : Node}
    (present : m.network.node? n = some removed) (isolated : m.network.Isolated n) :
    Faithful { m with
      network := m.network.dropNode n
      nodeIndex := if n = (m.network.dropNode n).nodeCount then m.nodeIndex.erase removed.name
        else (m.nodeIndex.erase removed.name).insert ((m.network.dropNode n).nodeName n) n } where
  wellFormed := f.wellFormed.dropNode isolated hn
  vacated := f.vacated.dropNode n
  nodes := f.renumbered hn present
  edges := f.edges.congr (Network.edgeName?_dropNode n)
  z z hz := by
    obtain ⟨k, hk, rfl⟩ := Option.map_eq_some_iff.mp hz
    obtain ⟨hk, apart⟩ := Option.filter_eq_some_iff.mp hk
    have moved := (Network.movedTo_eq_iff hn (f.z k hk) (by simpa using apart)).mp rfl
    exact Network.nodeCount_dropNode m.network n ▸ moved.1
  activations a mem := by
    obtain ⟨b, kept, rfl⟩ := List.mem_map.mp mem
    obtain ⟨kept, apart⟩ := List.mem_filter.mp kept
    obtain ⟨first, second⟩ := f.activations b kept
    simp only [Bool.and_eq_true, bne_iff_ne] at apart
    have moved := (Network.movedTo_eq_iff hn first apart.1).mp rfl
    have moved' := (Network.movedTo_eq_iff hn second apart.2).mp rfl
    exact Network.nodeCount_dropNode m.network n ▸ ⟨moved.1, moved'.1⟩
  keys := by
    have distinct := List.Nodup.of_map Prod.fst f.keys
    show (((m.network.activations.filter _).map _).map Prod.fst).Nodup
    rw [List.map_map]
    -- Two activations that are left have different contingent nodes before the renumbering, which keeps
    -- them apart.
    refine List.Nodup.map_on (fun a ha b hb same => ?_) (distinct.filter _)
    obtain ⟨ha, aparta⟩ := List.mem_filter.mp ha
    obtain ⟨hb, apartb⟩ := List.mem_filter.mp hb
    simp only [Bool.and_eq_true, bne_iff_ne] at aparta apartb
    have first := (Network.movedTo_eq_iff hn (f.activations a ha).1 aparta.1).mp same
    have second := (Network.movedTo_eq_iff hn (f.activations b hb).1 apartb.1).mp rfl
    exact List.inj_on_of_nodup_map f.keys ha hb (first.2.trans second.2.symm)

theorem removeNode [EdgePayload E] (f : m.Faithful) (n : NodeId) :
    ((m.removeNode n).elim m Prod.fst).Faithful ∧
      ((m.removeNode n).elim m Prod.fst).network =
        (m.network.removeNode n).elim m.network Prod.fst := by
  obtain ⟨faithful, network, nodeIndex⟩ := f.removeEdges (m.network.incident n)
  have nodes := (Network.sameNodes_removeEdges (m.network.incident n) m.network).nodes
  have same : (m.network.removeEdges (m.network.incident n)).node? n = m.network.node? n :=
    congrArg (fun nodes : Array Node => nodes[n]?) nodes
  rw [removeNode_eq]
  generalize m.removeEdges (m.network.incident n) = isolated at faithful network nodeIndex ⊢
  rw [Network.removeNode_eq, Network.removeNode_eq, network, same, ← network]
  cases present : m.network.node? n with
  | none => exact ⟨f, rfl⟩
  | some removed =>
    have hn := Network.lt_of_node? present
    have alone : isolated.network.Isolated n := network ▸ f.wellFormed.isolated hn
    have hn' : n < isolated.network.nodeCount := by
      rw [network, Network.nodeCount, nodes]
      exact hn
    have present' : isolated.network.node? n = some removed := by rw [network, same, present]
    have dropped := faithful.dropNode hn' present' alone
    rw [alone.incident_eq_nil faithful.wellFormed hn']
    rw [nodeIndex] at dropped
    exact ⟨dropped, rfl⟩

theorem reverse (f : m.Faithful) : m.reverse.Faithful :=
  f.of_sameNodes ⟨rfl, rfl, rfl⟩ rfl f.wellFormed.reverse f.vacated.reverse
    (f.edges.congr Network.edgeName?_reverse)

theorem setZ (f : m.Faithful) {z : NodeId} (hz : z < m.network.nodeCount) : (m.setZ z).Faithful where
  wellFormed := f.wellFormed.setZ z
  vacated := f.vacated
  nodes := f.nodes
  edges := f.edges
  z k hk := by
    cases hk
    exact hz
  activations := f.activations
  keys := f.keys

theorem setActivation (f : m.Faithful) {contingent activation : NodeId}
    (hc : contingent < m.network.nodeCount) (ha : activation < m.network.nodeCount) :
    (m.setActivation contingent activation).Faithful where
  wellFormed := f.wellFormed.setActivation contingent activation
  vacated := f.vacated
  nodes := f.nodes
  edges := f.edges
  z := f.z
  activations a mem := by
    rcases List.mem_cons.mp mem with rfl | mem
    · exact ⟨hc, ha⟩
    · exact f.activations a (List.mem_of_mem_filter mem)
  keys := by
    refine List.nodup_cons.mpr ⟨?_, f.keys.sublist (List.filter_sublist.map Prod.fst)⟩
    simp

theorem perform [EdgePayload E] (f : m.Faithful) {edit : Edit E}
    (admissible : edit.Admissible m.network) (performed : edit.perform m = .ok m') :
    m'.Faithful := by
  cases edit with
  | addNode n =>
    cases performed
    exact f.addNode n
  | modifyNode n change =>
    cases performed
    exact f.modifyNode n admissible
  | renameNode n name =>
    obtain ⟨result, renamed, rfl⟩ := of_map_eq_ok performed
    exact f.renameNode renamed
  | removeNode n =>
    cases performed
    exact (f.removeNode n).1
  | addEdge name payload source target =>
    cases performed
    exact f.addEdge name payload source target
  | addEdgeBetween name payload source target =>
    cases performed
    exact f.addEdgeBetween name payload source target
  | edgeOrInsert source target payload =>
    obtain ⟨result, inserted, rfl⟩ := of_map_eq_ok performed
    exact f.edgeOrInsert inserted
  | modifyEdge e change =>
    cases performed
    exact f.modifyEdge e change
  | renameEdge e name =>
    cases performed
    exact f.renameEdge e name
  | removeEdge e =>
    cases performed
    exact f.removeEdge e
  | reverse =>
    cases performed
    exact f.reverse
  | setZ z =>
    cases performed
    exact f.setZ admissible
  | setActivation contingent activation =>
    cases performed
    exact f.setActivation admissible.1 admissible.2

/-- Looking names up in tables and searching for them make the same network. -/
theorem perform_network [EdgePayload E] (f : m.Faithful) (edit : Edit E) :
    (edit.perform m).map IndexedNetwork.network = edit.apply m.network := by
  cases edit with
  | addNode n =>
    refine congrArg Except.ok ?_
    rw [f.addNode_eq]
    cases m.network.addNode n <;> rfl
  | modifyNode n change => rfl
  | renameNode n name => exact f.renameNode_network n name
  | removeNode n => exact congrArg Except.ok (f.removeNode n).2
  | addEdge name payload source target =>
    refine congrArg Except.ok ?_
    rw [← f.addEdge_eq]
    cases m.addEdge name payload source target <;> rfl
  | addEdgeBetween name payload source target =>
    refine congrArg Except.ok ?_
    rw [← f.addEdgeBetween_eq]
    cases m.addEdgeBetween name payload source target <;> rfl
  | edgeOrInsert source target payload =>
    refine Eq.trans ?_ (f.edgeOrInsert_network source target payload)
    cases h : m.edgeOrInsert source target payload <;> simp [Edit.perform, h] <;> rfl
  | modifyEdge e change => rfl
  | renameEdge e name => exact congrArg Except.ok (f.renameEdge_network e name)
  | removeEdge e => exact congrArg Except.ok (removeEdge_network m e)
  | reverse => rfl
  | setZ z => rfl
  | setActivation contingent activation => rfl

end Faithful

theorem faithful_empty : (empty : IndexedNetwork E).Faithful where
  wellFormed := Network.wellFormed_empty
  vacated e inside _ := absurd inside (Nat.not_lt_zero e)
  nodes := NameIndex.lists_empty
  edges := NameIndex.lists_empty
  z := nofun
  activations := nofun
  keys := List.nodup_nil

/-- Whatever the edits, the structures agree, and the network is that of the same edits on a network
without tables. -/
theorem Built.faithful [EdgePayload E] {edits : List (Edit E)} (built : Built edits m) :
    m.Faithful ∧ edits.foldlM (fun g edit => edit.apply g) Network.empty = .ok m.network := by
  induction built with
  | empty => exact ⟨faithful_empty, rfl⟩
  | edit edit before admissible performed ih =>
    obtain ⟨faithful, network⟩ := ih
    refine ⟨faithful.perform admissible performed, ?_⟩
    have same := faithful.perform_network edit
    rw [performed] at same
    rw [List.foldlM_append, network]
    exact (bind_pure _).trans same.symm

/-- What the operations that read a network say about its nodes and edges. -/
structure Coherent (m : IndexedNetwork E) : Prop where
  node_names : ∀ j k a b, m.network.node? j = some a → m.network.node? k = some b →
    a.name = b.name → j = k
  findNode?_iff : ∀ name n, m.findNode? name = some n ↔
    ∃ node, m.network.node? n = some node ∧ node.name = name
  edge_names : ∀ d e a b, m.network.slot? d = some a → m.network.slot? e = some b →
    a.name = b.name → d = e
  findEdgeByName?_iff : ∀ name e, m.findEdgeByName? name = some e ↔
    ∃ slot, m.network.slot? e = some slot ∧ slot.name = name
  ends : ∀ e slot, m.network.slot? e = some slot →
    slot.source < m.network.nodeCount ∧ slot.target < m.network.nodeCount
  findEdge?_iff : ∀ u v e, m.network.findEdge? u v = some e ↔
    ∃ slot, m.network.slot? e = some slot ∧ slot.source = u ∧ slot.target = v
  mem_outEdges : ∀ u < m.network.nodeCount, ∀ v e, (v, e) ∈ m.network.outEdges u ↔
    ∃ slot, m.network.slot? e = some slot ∧ slot.source = u ∧ slot.target = v
  mem_inEdges : ∀ v < m.network.nodeCount, ∀ u e, (u, e) ∈ m.network.inEdges v ↔
    ∃ slot, m.network.slot? e = some slot ∧ slot.source = u ∧ slot.target = v
  /-- No edge is listed twice. -/
  outEdges_increasing : ∀ u, (m.network.outEdges u).Pairwise fun a b => a.1 < b.1
  inEdges_increasing : ∀ v, (m.network.inEdges v).Pairwise fun a b => a.1 < b.1
  mem_free : ∀ e, e ∈ m.network.free ↔ e < m.network.slots.size ∧ m.network.slot? e = none
  free_nodup : m.network.free.Nodup
  edgeCount : m.edgeCount = m.network.edgeIds.length
  z : ∀ z, m.network.z = some z → z < m.network.nodeCount
  activations : ∀ a ∈ m.network.activations, a.1 < m.network.nodeCount ∧ a.2 < m.network.nodeCount

theorem Faithful.toCoherent (f : m.Faithful) : m.Coherent where
  node_names j k a b ha hb same := by
    have first := Network.nodeName?_eq_some_iff.mpr ⟨a, ha, same⟩
    have second := Network.nodeName?_eq_some_iff.mpr ⟨b, hb, rfl⟩
    exact f.nodes.unique first second
  findNode?_iff name n := f.nodes.find?_eq_some_iff.trans Network.nodeName?_eq_some_iff
  edge_names d e a b ha hb same := by
    have first := Network.edgeName?_eq_some_iff.mpr ⟨a, ha, same⟩
    have second := Network.edgeName?_eq_some_iff.mpr ⟨b, hb, rfl⟩
    exact f.edges.unique first second
  findEdgeByName?_iff name e := f.edges.find?_eq_some_iff.trans Network.edgeName?_eq_some_iff
  ends e slot stored := f.wellFormed.lt_of_findEdge? (f.wellFormed.findEdge?_of_slot stored)
  findEdge?_iff := f.wellFormed.listed
  mem_outEdges u hu v e := (f.wellFormed.mem_outEdges hu).trans (f.wellFormed.listed u v e)
  mem_inEdges v hv u e := (f.wellFormed.mem_inEdges hv).trans (f.wellFormed.listed u v e)
  outEdges_increasing u := Adjacency.pairwise_row m.network.adjacency u
  inEdges_increasing v := Adjacency.pairwise_column m.network.adjacency v
  mem_free e := ⟨f.wellFormed.vacant e, fun ⟨inside, empty⟩ => f.vacated e inside empty⟩
  free_nodup := f.wellFormed.distinct
  edgeCount := f.edgeCount_eq
  z := f.z
  activations := f.activations

theorem coherent_of_built [EdgePayload E] {edits : List (Edit E)} (built : Built edits m) :
    m.Coherent ∧ edits.foldlM (fun g edit => edit.apply g) Network.empty = .ok m.network :=
  ⟨built.faithful.1.toCoherent, built.faithful.2⟩

/-- A node with a self-loop makes way for the last one, which is connected to it. -/
theorem coherent_after_removal : ∃ m : IndexedNetwork PlainEdge,
    Built [.addNode (.named "Z"), .addNode (.named "A"), .addNode (.named "B"),
      .addEdgeBetween "loop" (.ofKind .ordinary) 1 1,
      .addEdgeBetween "on" (.ofKind .ordinary) 1 2,
      .addEdgeBetween "back" (.ofKind .ordinary) 2 0, .setActivation 2 0, .removeNode 1] m ∧
    m.Coherent ∧ m.findNode? "B" = some 1 ∧ m.edgeCount = 1 ∧ m.network.free = [1, 0] := by
  have z := Built.edit (E := PlainEdge) (.addNode (.named "Z")) .empty trivial rfl
  have a := z.edit (.addNode (.named "A")) trivial rfl
  have b := a.edit (.addNode (.named "B")) trivial rfl
  have loop := b.edit (.addEdgeBetween "loop" (.ofKind .ordinary) 1 1) trivial rfl
  have onwards := loop.edit (.addEdgeBetween "on" (.ofKind .ordinary) 1 2) trivial rfl
  have back := onwards.edit (.addEdgeBetween "back" (.ofKind .ordinary) 2 0) trivial rfl
  have active := back.edit (.setActivation 2 0) ⟨by decide +kernel, by decide +kernel⟩ rfl
  have removed := active.edit (.removeNode 1) trivial rfl
  exact ⟨_, removed, (coherent_of_built removed).1, by decide +kernel, by decide +kernel, by decide +kernel⟩

end IndexedNetwork

end TemporalNetwork
