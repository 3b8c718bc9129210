import TemporalNetwork.Edge.LabeledEdge
import TemporalNetwork.Proofs.Network.Representation

/-!
Networks read by names. When a node is removed the last node takes its number, so everything that is
stored by number has to follow. Read by names, the network has lost that node, its edges and its
contingent links, and nothing else has changed.
-/

namespace TemporalNetwork

/-- The payload with the name of the contingent node in place of its number. -/
def PlainEdge.byName (name? : NodeId → Option String) (e : PlainEdge) :
    ConstraintKind × Value × Option (CaseKind × Option String × Value) :=
  (e.kind, e.weight, e.case.map fun c => (c.kind, name? c.contingent, c.value))

/-- A payload that holds letters and propositions only reads the same whatever the numbers. -/
def LabeledEdge.byName (_ : NodeId → Option String) (e : LabeledEdge) : LabeledEdge := e

namespace Network

variable {E R : Type} {g h : Network E} {n k : NodeId} {removed : Node}

/-- An edge leaves or enters a node. -/
def Touches (g : Network E) (n : NodeId) (e : EdgeId) : Prop :=
  ∃ slot, g.slot? e = some slot ∧ (slot.source = n ∨ slot.target = n)

/-- An edge with the names of its ends, its payload read with the names of the nodes. -/
def edgeByName? (read : (NodeId → Option String) → E → R) (g : Network E) (e : EdgeId) :
    Option (String × Option String × Option String × R) :=
  (g.slot? e).map fun slot =>
    (slot.name, g.nodeName? slot.source, g.nodeName? slot.target, read g.nodeName? slot.payload)

/-- The contingent links as pairs of names. -/
def linksByName (g : Network E) (links : List (NodeId × NodeId)) :
    List (Option String × Option String) :=
  links.map fun link => (g.nodeName? link.1, g.nodeName? link.2)

/-- Every case value belongs to a link that its edge is part of. -/
def CasesAtEnds (g : Network PlainEdge) : Prop :=
  ∀ e slot, g.slot? e = some slot → ∀ c, slot.payload.case = some c →
    c.contingent = slot.source ∨ c.contingent = slot.target

theorem CasesAtEnds.of_slots {g : Network PlainEdge} (slots : ∀ s ∈ g.slots.toList, ∀ slot,
    s = some slot → ∀ c, slot.payload.case = some c →
      c.contingent = slot.source ∨ c.contingent = slot.target) : g.CasesAtEnds :=
  fun _ slot stored => slots _
    (Array.mem_def.mp (Array.mem_of_getElem? (Option.join_eq_some_iff.mp stored))) slot rfl

theorem nodeCount_removeEdges (es : List EdgeId) (g : Network E) :
    (g.removeEdges es).nodeCount = g.nodeCount :=
  congrArg Array.size (sameNodes_removeEdges es g).nodes

theorem movedTo_removeEdges (es : List EdgeId) (g : Network E) :
    (g.removeEdges es).movedTo n = g.movedTo n := by
  funext k
  rw [movedTo, nodeCount_removeEdges, movedTo]

section Removed

variable [EdgePayload E]

theorem removeNode_eq_some_iff : g.removeNode n = some (h, removed) ↔
    g.node? n = some removed ∧ (g.removeEdges (g.incident n)).dropNode n = h := by
  rw [removeNode_eq]
  cases g.node? n <;> simp [and_comm]

variable (gone : g.removeNode n = some (h, removed))

include gone

theorem nodeCount_removeNode : h.nodeCount + 1 = g.nodeCount := by
  obtain ⟨present, rfl⟩ := removeNode_eq_some_iff.mp gone
  have inside := lt_of_node? present
  rw [nodeCount_dropNode, nodeCount_removeEdges]
  lia

theorem node?_movedTo (inside : k < g.nodeCount) (other : k ≠ n) :
    h.node? (g.movedTo n k) = g.node? k := by
  obtain ⟨present, rfl⟩ := removeNode_eq_some_iff.mp gone
  have hn := lt_of_node? present
  obtain ⟨lt, origin⟩ := (movedTo_eq_iff hn inside other).mp rfl
  rw [node?_dropNode (nodeCount_removeEdges _ g ▸ hn), nodeCount_removeEdges, if_pos lt, ← origin]
  exact congrArg (fun nodes : Array Node => nodes[k]?) (sameNodes_removeEdges _ g).nodes

theorem nodeName?_movedTo (inside : k < g.nodeCount) (other : k ≠ n) :
    h.nodeName? (g.movedTo n k) = g.nodeName? k :=
  congrArg (Option.map Node.name) (node?_movedTo gone inside other)

theorem exists_movedTo {j : NodeId} (inside : j < h.nodeCount) :
    ∃ k < g.nodeCount, k ≠ n ∧ g.movedTo n k = j := by
  have count := nodeCount_removeNode gone
  have hn := lt_of_node? (removeNode_eq_some_iff.mp gone).1
  by_cases here : j = n
  · refine ⟨g.nodeCount - 1, by lia, by lia, ?_⟩
    exact (movedTo_eq_iff hn (by lia) (by lia)).mpr ⟨by lia, (if_pos here).symm⟩
  · refine ⟨j, by lia, here, ?_⟩
    exact (movedTo_eq_iff hn (by lia) here).mpr ⟨by lia, (if_neg here).symm⟩

theorem slot?_removeNode (e : EdgeId) : h.slot? e =
    if e ∈ g.incident n then none else (g.slot? e).map fun slot =>
      { slot with
        source := g.movedTo n slot.source
        target := g.movedTo n slot.target
        payload := if n = g.nodeCount - 1 then slot.payload
          else EdgePayload.moveNode (g.nodeCount - 1) n slot.payload } := by
  obtain ⟨present, rfl⟩ := removeNode_eq_some_iff.mp gone
  rw [slot?_dropNode, slot?_removeEdges, movedTo_removeEdges, nodeCount_removeEdges,
    apply_ite (Option.map _), Option.map_none]

theorem size_slots_removeNode : h.slots.size = g.slots.size := by
  obtain ⟨present, rfl⟩ := removeNode_eq_some_iff.mp gone
  have same : ∀ (es : List EdgeId) (g : Network E), (g.removeEdges es).slots.size = g.slots.size := by
    intro es
    induction es with
    | nil => exact fun g => rfl
    | cons e rest ih =>
      intro g
      refine (ih (g.removeEdge e).1).trans ?_
      unfold removeEdge
      split
      · rfl
      · exact Array.size_setIfInBounds ..
  unfold dropNode
  dsimp only
  split
  · exact same _ g
  · rw [Array.size_map, same]

theorem z_removeNode : h.z = (g.z.filter fun z => z != n).map (g.movedTo n) := by
  obtain ⟨present, rfl⟩ := removeNode_eq_some_iff.mp gone
  show Option.map _ (Option.filter _ (g.removeEdges (g.incident n)).z) = _
  rw [(sameNodes_removeEdges _ g).z, movedTo_removeEdges]

theorem activations_removeNode : h.activations =
    (g.activations.filter fun a => a.1 != n && a.2 != n).map fun a =>
      (g.movedTo n a.1, g.movedTo n a.2) := by
  obtain ⟨present, rfl⟩ := removeNode_eq_some_iff.mp gone
  show List.map _ (List.filter _ (g.removeEdges (g.incident n)).activations) = _
  rw [(sameNodes_removeEdges _ g).activations, movedTo_removeEdges]

end Removed

/-- An edge that stays has the same ends by name, under whatever numbers. -/
theorem slot?_removeNode_of_other [EdgePayload E] (wf : g.WellFormed)
    (gone : g.removeNode n = some (h, removed)) {e : EdgeId} {slot : EdgeSlot E}
    (stored : g.slot? e = some slot) (other : ¬ g.Touches n e) :
    ∃ slot', h.slot? e = some slot' ∧ slot'.name = slot.name ∧
      h.nodeName? slot'.source = g.nodeName? slot.source ∧
      h.nodeName? slot'.target = g.nodeName? slot.target ∧
      slot'.payload = if n = g.nodeCount - 1 then slot.payload
        else EdgePayload.moveNode (g.nodeCount - 1) n slot.payload := by
  have hn := lt_of_node? (removeNode_eq_some_iff.mp gone).1
  obtain ⟨hs, ht⟩ := wf.lt_of_findEdge? (wf.findEdge?_of_slot stored)
  have apart : slot.source ≠ n ∧ slot.target ≠ n :=
    not_or.mp fun ends => other ⟨slot, stored, ends⟩
  have kept : e ∉ g.incident n := fun mem => other ((wf.mem_incident hn).mp mem)
  have found := slot?_removeNode gone e
  rw [if_neg kept, stored, Option.map_some] at found
  exact ⟨_, found, rfl, nodeName?_movedTo gone hs apart.1, nodeName?_movedTo gone ht apart.2, rfl⟩

theorem slot?_removeNode_of_touches [EdgePayload E] (wf : g.WellFormed)
    (gone : g.removeNode n = some (h, removed)) {e : EdgeId} (touches : g.Touches n e) :
    h.slot? e = none := by
  have hn := lt_of_node? (removeNode_eq_some_iff.mp gone).1
  rw [slot?_removeNode gone, if_pos ((wf.mem_incident hn).mpr touches)]

theorem byName_moved {h g : Network PlainEdge} (gone : g.removeNode n = some (h, removed))
    {e : PlainEdge} (inside : ∀ c, e.case = some c → c.contingent < g.nodeCount ∧ c.contingent ≠ n) :
    (if n = g.nodeCount - 1 then e else EdgePayload.moveNode (g.nodeCount - 1) n e).byName h.nodeName? =
      e.byName g.nodeName? := by
  obtain ⟨kind, weight, case⟩ := e
  cases case with
  | none => split <;> rfl
  | some c =>
    obtain ⟨lt, other⟩ := inside c rfl
    have named := nodeName?_movedTo gone lt other
    unfold movedTo at named
    by_cases last : n = g.nodeCount - 1
    · rw [if_neg (last ▸ other)] at named
      rw [if_pos last]
      simp [PlainEdge.byName, named]
    · rw [if_neg last]
      simp only [PlainEdge.byName, EdgePayload.moveNode, PlainEdge.moveNode, Option.map_some]
      split at named
      · rename_i moves
        simp [moves, named]
      · rename_i stays
        simp [stays, named]

end Network

namespace IndexedNetwork

variable {E R : Type} {m m' : IndexedNetwork E} {n : NodeId} {removed : Node}

/-- The node of a name. -/
def nodeNamed? (m : IndexedNetwork E) (name : String) : Option Node :=
  (m.findNode? name).bind m.network.node?

/-- The edge between the nodes of two names. -/
def edgeJoining? (m : IndexedNetwork E) (source target : String) : Option EdgeId :=
  (m.findNode? source).bind fun u => (m.findNode? target).bind (m.network.findEdge? u)

/-- All that `m'` says by names is what `m` says of nodes other than the removed one, which was
numbered `n`, and of the edges and contingent links between them. -/
structure Without (read : (NodeId → Option String) → E → R) (m m' : IndexedNetwork E) (n : NodeId)
    (removed : Node) : Prop where
  nodeCount : m'.network.nodeCount + 1 = m.network.nodeCount
  nodeNamed?_iff : ∀ name node, m'.nodeNamed? name = some node ↔
    m.nodeNamed? name = some node ∧ name ≠ removed.name
  edge_kept : ∀ e, ¬ m.network.Touches n e →
    m'.network.edgeByName? read e = m.network.edgeByName? read e
  edge_removed : ∀ e, m.network.Touches n e → m'.network.slot? e = none
  mem_free : ∀ e, e ∈ m'.network.free ↔ e ∈ m.network.free ∨ m.network.Touches n e
  findEdgeByName?_iff : ∀ name e, m'.findEdgeByName? name = some e ↔
    m.findEdgeByName? name = some e ∧ ¬ m.network.Touches n e
  edgeJoining?_iff : ∀ a b e, m'.edgeJoining? a b = some e ↔
    m.edgeJoining? a b = some e ∧ a ≠ removed.name ∧ b ≠ removed.name
  z : m'.network.z.map m'.network.nodeName? =
    (m.network.z.filter fun z => z != n).map m.network.nodeName?
  links : (m'.network.linksByName m'.network.contingentLinks).Perm (m.network.linksByName
    (m.network.contingentLinks.filter fun link => link.1 != n && link.2 != n))

namespace Faithful

theorem nodeNamed?_eq_some_iff (f : m.Faithful) {name : String} {node : Node} :
    m.nodeNamed? name = some node ↔ ∃ k, m.network.node? k = some node ∧ node.name = name := by
  unfold nodeNamed?
  rw [Option.bind_eq_some_iff]
  refine exists_congr fun k => ?_
  rw [findNode?, f.nodes.find?_eq_some_iff, Network.nodeName?, Option.map_eq_some_iff]
  constructor
  · rintro ⟨⟨node', present', rfl⟩, present⟩
    exact ⟨present, congrArg Node.name (Option.some.inj (present.symm.trans present'))⟩
  · rintro ⟨present, rfl⟩
    exact ⟨⟨node, present, rfl⟩, present⟩

theorem edgeJoining?_eq_some_iff (f : m.Faithful) {a b : String} {e : EdgeId} :
    m.edgeJoining? a b = some e ↔ ∃ slot, m.network.slot? e = some slot ∧
      m.network.nodeName? slot.source = some a ∧ m.network.nodeName? slot.target = some b := by
  unfold edgeJoining?
  simp only [Option.bind_eq_some_iff, findNode?, f.nodes.find?_eq_some_iff, f.wellFormed.listed]
  constructor
  · rintro ⟨u, first, v, second, slot, stored, rfl, rfl⟩
    exact ⟨slot, stored, first, second⟩
  · rintro ⟨slot, stored, first, second⟩
    exact ⟨_, first, _, second, slot, stored, rfl, rfl⟩

theorem nodeName?_ne_iff (f : m.Faithful) (present : m.network.node? n = some removed) {k : NodeId}
    {name : String} (named : m.network.nodeName? k = some name) : k ≠ n ↔ name ≠ removed.name := by
  have here : m.network.nodeName? n = some removed.name := by
    rw [Network.nodeName?, present, Option.map_some]
  refine not_congr ⟨?_, ?_⟩
  · rintro rfl
    exact Option.some.inj (named.symm.trans here)
  · rintro rfl
    exact f.nodes.unique named here

theorem touches_iff (f : m.Faithful) (present : m.network.node? n = some removed) {e : EdgeId}
    {slot : EdgeSlot E} {a b : String} (stored : m.network.slot? e = some slot)
    (first : m.network.nodeName? slot.source = some a)
    (second : m.network.nodeName? slot.target = some b) :
    ¬ m.network.Touches n e ↔ a ≠ removed.name ∧ b ≠ removed.name := by
  rw [← f.nodeName?_ne_iff present first, ← f.nodeName?_ne_iff present second, ← not_or]
  refine not_congr ⟨?_, fun ends => ⟨slot, stored, ends⟩⟩
  rintro ⟨slot', stored', ends⟩
  obtain rfl := Option.some.inj (stored.symm.trans stored')
  exact ends

variable [EdgePayload E]

theorem slot?_eq_some_of_removeNode (f : m.Faithful)
    (gone : m.network.removeNode n = some (m'.network, removed)) {e : EdgeId} {slot' : EdgeSlot E}
    (stored' : m'.network.slot? e = some slot') : ∃ slot, m.network.slot? e = some slot ∧
      ¬ m.network.Touches n e ∧ slot'.name = slot.name ∧
      m'.network.nodeName? slot'.source = m.network.nodeName? slot.source ∧
      m'.network.nodeName? slot'.target = m.network.nodeName? slot.target := by
  have other : ¬ m.network.Touches n e := by
    intro touches
    rw [Network.slot?_removeNode_of_touches f.wellFormed gone touches] at stored'
    cases stored'
  have known := Network.slot?_removeNode gone e
  rw [stored'] at known
  split at known
  · cases known
  · obtain ⟨slot, stored, _⟩ := Option.map_eq_some_iff.mp known.symm
    obtain ⟨slot₁, stored₁, name, first, second, _⟩ :=
      Network.slot?_removeNode_of_other f.wellFormed gone stored other
    obtain rfl := Option.some.inj (stored'.symm.trans stored₁)
    exact ⟨slot, stored, other, name, first, second⟩

section Removed

variable (f : m.Faithful) (f' : m'.Faithful)
  (gone : m.network.removeNode n = some (m'.network, removed))

include f gone

theorem z_removeNode : m'.network.z.map m'.network.nodeName? =
    (m.network.z.filter fun z => z != n).map m.network.nodeName? := by
  rw [Network.z_removeNode gone, Option.map_map]
  cases reference : m.network.z.filter fun z => z != n with
  | none => rfl
  | some z =>
    obtain ⟨known, other⟩ := Option.filter_eq_some_iff.mp reference
    exact congrArg some (Network.nodeName?_movedTo gone (f.z z known) (by simpa using other))

/-- The links that are left, by name; their order follows the numbers. -/
theorem links_removeNode : (m'.network.linksByName m'.network.contingentLinks).Perm
    (m.network.linksByName (m.network.contingentLinks.filter fun link => link.1 != n && link.2 != n)) := by
  have sorted : ∀ g : Network E,
      g.contingentLinks.Perm (g.activations.map fun a => (a.2, a.1)) :=
    fun g => (List.mergeSort_perm ..).map _
  refine ((sorted _).map _).trans (.trans ?_ (((sorted _).filter _).map _).symm)
  rw [Network.activations_removeNode gone, List.filter_map, List.map_map, List.map_map, List.map_map]
  have same : ∀ a : NodeId × NodeId,
      ((fun link : NodeId × NodeId => link.1 != n && link.2 != n) ∘ fun a => (a.2, a.1)) a =
        (a.1 != n && a.2 != n) := fun a => Bool.and_comm ..
  rw [funext same]
  refine .of_eq (List.map_congr_left fun a mem => ?_)
  obtain ⟨mem, apart⟩ := List.mem_filter.mp mem
  obtain ⟨first, second⟩ := f.activations a mem
  simp only [Bool.and_eq_true, bne_iff_ne] at apart
  exact Prod.ext (Network.nodeName?_movedTo gone second apart.2)
    (Network.nodeName?_movedTo gone first apart.1)

theorem exists_slot?_removeNode_iff {e : EdgeId} : (∃ slot', m'.network.slot? e = some slot') ↔
    (∃ slot, m.network.slot? e = some slot) ∧ ¬ m.network.Touches n e := by
  constructor
  · rintro ⟨slot', stored'⟩
    obtain ⟨slot, stored, other, _⟩ := f.slot?_eq_some_of_removeNode gone stored'
    exact ⟨⟨slot, stored⟩, other⟩
  · rintro ⟨⟨slot, stored⟩, other⟩
    obtain ⟨slot', stored', _⟩ := Network.slot?_removeNode_of_other f.wellFormed gone stored other
    exact ⟨slot', stored'⟩

include f'

theorem nodeNamed?_removeNode {name : String} {node : Node} : m'.nodeNamed? name = some node ↔
    m.nodeNamed? name = some node ∧ name ≠ removed.name := by
  have present := (Network.removeNode_eq_some_iff.mp gone).1
  rw [f.nodeNamed?_eq_some_iff, f'.nodeNamed?_eq_some_iff]
  constructor
  · rintro ⟨j, here, rfl⟩
    obtain ⟨k, inside, other, rfl⟩ := Network.exists_movedTo gone (Network.lt_of_node? here)
    rw [Network.node?_movedTo gone inside other] at here
    have named : m.network.nodeName? k = some node.name := by
      rw [Network.nodeName?, here, Option.map_some]
    exact ⟨⟨k, here, rfl⟩, (f.nodeName?_ne_iff present named).mp other⟩
  · rintro ⟨⟨k, here, rfl⟩, apart⟩
    have named : m.network.nodeName? k = some node.name := by
      rw [Network.nodeName?, here, Option.map_some]
    have other := (f.nodeName?_ne_iff present named).mpr apart
    exact ⟨_, (Network.node?_movedTo gone (Network.lt_of_node? here) other).trans here, rfl⟩

theorem mem_free_removeNode {e : EdgeId} : e ∈ m'.network.free ↔
    e ∈ m.network.free ∨ m.network.Touches n e := by
  have vacant : ∀ m : IndexedNetwork E, m.Faithful → (e ∈ m.network.free ↔
      e < m.network.slots.size ∧ ¬ ∃ slot, m.network.slot? e = some slot) := by
    intro m f
    rw [← Option.isSome_iff_exists, Bool.not_eq_true, Option.isSome_eq_false_iff,
      Option.isNone_iff_eq_none]
    exact ⟨f.wellFormed.vacant e, fun ⟨inside, empty⟩ => f.vacated e inside empty⟩
  rw [vacant m f, vacant m' f', Network.size_slots_removeNode gone, f.exists_slot?_removeNode_iff gone]
  constructor
  · rintro ⟨inside, absent⟩
    by_cases touches : m.network.Touches n e
    · exact Or.inr touches
    · exact Or.inl ⟨inside, fun stored => absent ⟨stored, touches⟩⟩
  · rintro (⟨inside, empty⟩ | ⟨slot, stored, ends⟩)
    · exact ⟨inside, fun left => empty left.1⟩
    · exact ⟨Network.slot?_lt stored, fun left => left.2 ⟨slot, stored, ends⟩⟩

theorem findEdgeByName?_removeNode {name : String} {e : EdgeId} :
    m'.findEdgeByName? name = some e ↔
      m.findEdgeByName? name = some e ∧ ¬ m.network.Touches n e := by
  rw [findEdgeByName?, findEdgeByName?, f.edges.find?_eq_some_iff, f'.edges.find?_eq_some_iff,
    Network.edgeName?_eq_some_iff, Network.edgeName?_eq_some_iff]
  constructor
  · rintro ⟨slot', stored', rfl⟩
    obtain ⟨slot, stored, other, name, _⟩ := f.slot?_eq_some_of_removeNode gone stored'
    exact ⟨⟨slot, stored, name.symm⟩, other⟩
  · rintro ⟨⟨slot, stored, rfl⟩, other⟩
    obtain ⟨slot', stored', name, _⟩ :=
      Network.slot?_removeNode_of_other f.wellFormed gone stored other
    exact ⟨slot', stored', name⟩

theorem edgeJoining?_removeNode {a b : String} {e : EdgeId} : m'.edgeJoining? a b = some e ↔
    m.edgeJoining? a b = some e ∧ a ≠ removed.name ∧ b ≠ removed.name := by
  have present := (Network.removeNode_eq_some_iff.mp gone).1
  rw [f.edgeJoining?_eq_some_iff, f'.edgeJoining?_eq_some_iff]
  constructor
  · rintro ⟨slot', stored', first', second'⟩
    obtain ⟨slot, stored, other, _, first, second⟩ := f.slot?_eq_some_of_removeNode gone stored'
    rw [first] at first'
    rw [second] at second'
    exact ⟨⟨slot, stored, first', second'⟩, (f.touches_iff present stored first' second').mp other⟩
  · rintro ⟨⟨slot, stored, first, second⟩, apart⟩
    have other := (f.touches_iff present stored first second).mpr apart
    obtain ⟨slot', stored', _, first', second', _⟩ :=
      Network.slot?_removeNode_of_other f.wellFormed gone stored other
    exact ⟨slot', stored', first'.trans first, second'.trans second⟩

variable {read : (NodeId → Option String) → E → R}

omit f' in
theorem edgeByName?_removeNode
    (follows : ∀ e slot, m.network.slot? e = some slot → ¬ m.network.Touches n e →
      read m'.network.nodeName? (if n = m.network.nodeCount - 1 then slot.payload
        else EdgePayload.moveNode (m.network.nodeCount - 1) n slot.payload) =
      read m.network.nodeName? slot.payload) {e : EdgeId} (other : ¬ m.network.Touches n e) :
    m'.network.edgeByName? read e = m.network.edgeByName? read e := by
  cases stored : m.network.slot? e with
  | none =>
    have empty : m'.network.slot? e = none := by
      rw [Network.slot?_removeNode gone, stored, Option.map_none, ite_self]
    rw [Network.edgeByName?, empty, Network.edgeByName?, stored, Option.map_none, Option.map_none]
  | some slot =>
    obtain ⟨slot', stored', name, first, second, payload⟩ :=
      Network.slot?_removeNode_of_other f.wellFormed gone stored other
    rw [Network.edgeByName?, stored', Network.edgeByName?, stored, Option.map_some, Option.map_some,
      name, first, second, payload, follows e slot stored other]

/-- A node is removed, whatever is read of the payloads, if that does not hang on numbers. -/
theorem without (follows : ∀ e slot, m.network.slot? e = some slot → ¬ m.network.Touches n e →
      read m'.network.nodeName? (if n = m.network.nodeCount - 1 then slot.payload
        else EdgePayload.moveNode (m.network.nodeCount - 1) n slot.payload) =
      read m.network.nodeName? slot.payload) : Without read m m' n removed where
  nodeCount := Network.nodeCount_removeNode gone
  nodeNamed?_iff _ _ := f.nodeNamed?_removeNode f' gone
  edge_kept _ other := f.edgeByName?_removeNode gone follows other
  edge_removed _ touches := Network.slot?_removeNode_of_touches f.wellFormed gone touches
  mem_free _ := f.mem_free_removeNode f' gone
  findEdgeByName?_iff _ _ := f.findEdgeByName?_removeNode f' gone
  edgeJoining?_iff _ _ _ := f.edgeJoining?_removeNode f' gone
  z := f.z_removeNode gone
  links := f.links_removeNode gone

end Removed

theorem exists_removeNode (f : m.Faithful) (inside : n < m.network.nodeCount) :
    ∃ m' removed, m.removeNode n = some (m', removed) ∧ m.network.node? n = some removed ∧
      m'.Faithful ∧ m.network.removeNode n = some (m'.network, removed) := by
  have present : m.network.node? n = some m.network.nodes[n] := Array.getElem?_eq_getElem inside
  have returned : (m.removeNode n).map Prod.snd = m.network.node? n := by
    have nodes := (Network.sameNodes_removeEdges (m.network.incident n) m.network).nodes
    rw [IndexedNetwork.removeNode_eq, Network.removeNode_eq, (f.removeEdges _).2.1, Option.map_map,
      Option.map_map, Network.node?, nodes]
    exact Option.map_id'
  obtain ⟨⟨m', removed⟩, run, rfl⟩ := Option.map_eq_some_iff.mp (returned.trans present)
  obtain ⟨faithful, network⟩ := f.removeNode n
  have gone := Network.removeNode_eq_some_iff.mpr ⟨present, rfl⟩
  rw [run] at faithful network
  rw [gone] at network
  exact ⟨m', _, run, present, faithful, gone.trans (congrArg (fun g => some (g, _)) network.symm)⟩

end Faithful

/-- Removing a node of a network that edits have built takes that node, its edges and its contingent
links away. By name all else stays as it is; with case values, if each belongs to a link that its edge
is part of. -/
theorem removeNode_removes_only :
    (∀ (edits : List (Edit PlainEdge)) (m : IndexedNetwork PlainEdge), Built edits m →
      m.network.CasesAtEnds → ∀ n < m.network.nodeCount, ∃ m' removed,
        m.removeNode n = some (m', removed) ∧ m.network.node? n = some removed ∧
          Without PlainEdge.byName m m' n removed) ∧
    ∀ (edits : List (Edit LabeledEdge)) (m : IndexedNetwork LabeledEdge), Built edits m →
      ∀ n < m.network.nodeCount, ∃ m' removed,
        m.removeNode n = some (m', removed) ∧ m.network.node? n = some removed ∧
          Without LabeledEdge.byName m m' n removed := by
  constructor
  · intro edits m built atEnds n inside
    have f := built.faithful.1
    obtain ⟨m', removed, run, present, f', gone⟩ := f.exists_removeNode inside
    refine ⟨m', removed, run, present, f.without f' gone fun e slot stored other => ?_⟩
    obtain ⟨hs, ht⟩ := f.wellFormed.lt_of_findEdge? (f.wellFormed.findEdge?_of_slot stored)
    have apart : slot.source ≠ n ∧ slot.target ≠ n :=
      not_or.mp fun ends => other ⟨slot, stored, ends⟩
    refine Network.byName_moved gone fun c here => ?_
    rcases atEnds e slot stored c here with same | same
    · exact same ▸ ⟨hs, apart.1⟩
    · exact same ▸ ⟨ht, apart.2⟩
  · intro edits m built n inside
    have f := built.faithful.1
    obtain ⟨m', removed, run, present, f', gone⟩ := f.exists_removeNode inside
    refine ⟨m', removed, run, present, f.without f' gone fun e slot _ _ => ?_⟩
    split <;> rfl

/-- The contingent node C is the last one and takes the number of A, which has a self-loop and edges to
and from C; the case value of the edge back to B follows. -/
theorem removeNode_removes_only_followed : ∃ (m m' : IndexedNetwork PlainEdge) (removed : Node),
    Built [.addNode (.named "Z"), .addNode (.named "A"), .addNode (.named "B"), .addNode (.named "C"),
      .addEdgeBetween "AA" ⟨.ordinary, 0, none⟩ 1 1, .addEdgeBetween "AC" ⟨.ordinary, 4, none⟩ 1 3,
      .addEdgeBetween "CB" ⟨.contingent, Value.posInf, some ⟨.upper, 3, -7⟩⟩ 3 2,
      .setActivation 3 2] m ∧
    m.network.CasesAtEnds ∧ m.removeNode 1 = some (m', removed) ∧ removed.name = "A" ∧
    Without PlainEdge.byName m m' 1 removed ∧
    (m'.network.edgeByName? PlainEdge.byName 2).map (fun edge => edge.2.2.2.2.2) =
      some (some (.upper, some "C", -7)) ∧
    0 ∈ m'.network.free ∧ 1 ∈ m'.network.free := by
  have z := Built.edit (E := PlainEdge) (.addNode (.named "Z")) .empty trivial rfl
  have a := z.edit (.addNode (.named "A")) trivial rfl
  have b := a.edit (.addNode (.named "B")) trivial rfl
  have c := b.edit (.addNode (.named "C")) trivial rfl
  have loop := c.edit (.addEdgeBetween "AA" ⟨.ordinary, 0, none⟩ 1 1) trivial rfl
  have ahead := loop.edit (.addEdgeBetween "AC" ⟨.ordinary, 4, none⟩ 1 3) trivial rfl
  have back := ahead.edit
    (.addEdgeBetween "CB" ⟨.contingent, Value.posInf, some ⟨.upper, 3, -7⟩⟩ 3 2) trivial rfl
  have active := back.edit (.setActivation 3 2) ⟨by decide +kernel, by decide +kernel⟩ rfl
  obtain ⟨m', removed, run, present, without⟩ :=
    removeNode_removes_only.1 _ _ active (.of_slots (by decide +kernel)) 1 (by decide +kernel)
  have touching := fun e =>
    active.faithful.1.wellFormed.mem_incident (n := 1) (by decide +kernel) (e := e)
  have name : removed.name = "A" :=
    Option.some.inj ((congrArg (Option.map Node.name) present).symm.trans (by decide +kernel))
  have kept := without.edge_kept 2 fun touches =>
    absurd ((touching 2).mpr touches) (by decide +kernel)
  exact ⟨_, m', removed, active, .of_slots (by decide +kernel), run, name, without,
    (congrArg (Option.map _) kept).trans (by decide +kernel),
    (without.mem_free 0).mpr (Or.inr ((touching 0).mp (by decide +kernel))),
    (without.mem_free 1).mpr (Or.inr ((touching 1).mp (by decide +kernel)))⟩

end IndexedNetwork

end TemporalNetwork
