import TemporalNetwork.Proofs.Network.ByName
import TemporalNetwork.Proofs.Network.Edits

/-!
The nodes that case values name. A case value may stand on any edge and stores the number of its
contingent node. When a node is removed the case values follow the last node to its new number, wherever
they stand, but only those that go with an edge of the removed node are dropped: another one that named
the removed node keeps the number and names the node that takes it. That is all that can go wrong, so
as long as no node is removed that such a case value names, each goes on naming the same node.
-/

namespace TemporalNetwork

namespace PlainEdge

/-- Whether the case value of the payload is that of a link which ends in `n`. -/
def NamesNode (e : PlainEdge) (n : NodeId) : Prop := ∃ c ∈ e.case, c.contingent = n

/-- Whether the case value, if there is one, names one of so many nodes. -/
def CaseBelow (e : PlainEdge) (count : Nat) : Prop := ∀ c ∈ e.case, c.contingent < count

instance (e : PlainEdge) (n : NodeId) : Decidable (e.NamesNode n) :=
  inferInstanceAs (Decidable (∃ c ∈ e.case, c.contingent = n))

instance (e : PlainEdge) (count : Nat) : Decidable (e.CaseBelow count) :=
  inferInstanceAs (Decidable (∀ c ∈ e.case, c.contingent < count))

end PlainEdge

namespace Network

variable {g h : Network PlainEdge} {n k : NodeId} {removed : Node}

/-- The name of the node that has the number `k` once `n` has been removed, where `k` has not followed
the last node. -/
def nameAfterRemoval? (g : Network PlainEdge) (n k : NodeId) : Option String :=
  if k ≠ n then g.nodeName? k
  else if n + 1 = g.nodeCount then none
  else g.nodeName? (g.nodeCount - 1)

/-- The number that takes the place of `k` in case values. -/
def caseMovedTo (g : Network PlainEdge) (n k : NodeId) : NodeId :=
  if n = g.nodeCount - 1 then k else if k = g.nodeCount - 1 then n else k

theorem caseMovedTo_self (g : Network PlainEdge) (n : NodeId) : g.caseMovedTo n n = n := by
  unfold caseMovedTo
  split <;> rfl

theorem caseMovedTo_of_ne (other : k ≠ n) : g.caseMovedTo n k = g.movedTo n k := by
  unfold caseMovedTo movedTo
  split
  · rename_i last
    rw [if_neg (last ▸ other)]
  · rfl

theorem nodeName?_caseMovedTo (gone : g.removeNode n = some (h, removed)) (k : NodeId) :
    h.nodeName? (g.caseMovedTo n k) = g.nameAfterRemoval? n k := by
  have hn := lt_of_node? (removeNode_eq_some_iff.mp gone).1
  have count := nodeCount_removeNode gone
  unfold nameAfterRemoval?
  split
  · rename_i other
    rw [caseMovedTo_of_ne other]
    by_cases inside : k < g.nodeCount
    · exact nodeName?_movedTo gone inside other
    · have stays : g.movedTo n k = k := if_neg (by lia)
      rw [stays, nodeName?_eq_none (by lia), nodeName?_eq_none (by lia)]
  · rename_i same
    rw [not_not.mp same, caseMovedTo_self]
    split
    · exact nodeName?_eq_none (by lia)
    · have follows := nodeName?_movedTo gone (k := g.nodeCount - 1) (by lia) (by lia)
      rwa [movedTo, if_pos rfl] at follows

theorem payload_moved (g : Network PlainEdge) (n : NodeId) (e : PlainEdge) :
    (if n = g.nodeCount - 1 then e else EdgePayload.moveNode (g.nodeCount - 1) n e) =
      { e with case := e.case.map fun c => { c with contingent := g.caseMovedTo n c.contingent } } := by
  obtain ⟨kind, weight, case⟩ := e
  unfold caseMovedTo
  cases case with
  | none => split <;> rfl
  | some c =>
    split
    · rfl
    · simp only [EdgePayload.moveNode, PlainEdge.moveNode, Option.map_some]
      split <;> rfl

/-- By name, a case value is what it was unless it named the removed node. -/
theorem byName_removeNode (gone : g.removeNode n = some (h, removed)) (e : PlainEdge) :
    (if n = g.nodeCount - 1 then e else EdgePayload.moveNode (g.nodeCount - 1) n e).byName h.nodeName? =
      e.byName (g.nameAfterRemoval? n) := by
  rw [payload_moved, PlainEdge.byName, PlainEdge.byName, Option.map_map]
  have named : ∀ c : CaseValue, h.nodeName? (g.caseMovedTo n c.contingent) =
      g.nameAfterRemoval? n c.contingent := fun c => nodeName?_caseMovedTo gone c.contingent
  simp only [Function.comp_def, named]

/-- Whether only edges of the node `n` bear case values which name it. -/
def Unreferenced (g : Network PlainEdge) (n : NodeId) : Prop :=
  ∀ e slot, g.slot? e = some slot → ¬ g.Touches n e → ¬ slot.payload.NamesNode n

theorem Unreferenced.of_slots {n : NodeId} (slots : ∀ s ∈ g.slots.toList, ∀ slot, s = some slot →
    slot.source = n ∨ slot.target = n ∨ ¬ slot.payload.NamesNode n) : g.Unreferenced n := by
  intro e slot stored other
  have mem := Array.mem_def.mp (Array.mem_of_getElem? (Option.join_eq_some_iff.mp stored))
  rcases slots _ mem slot rfl with source | target | unnamed
  · exact absurd ⟨slot, stored, Or.inl source⟩ other
  · exact absurd ⟨slot, stored, Or.inr target⟩ other
  · exact unnamed

/-- Whether each case value names a node. -/
def CasesInside (g : Network PlainEdge) : Prop :=
  ∀ e slot, g.slot? e = some slot → slot.payload.CaseBelow g.nodeCount

namespace CasesInside

theorem of_slots (inside : g.CasesInside) (count : g.nodeCount ≤ h.nodeCount)
    (slots : ∀ e slot', h.slot? e = some slot' →
      ∃ d slot, g.slot? d = some slot ∧ slot'.payload = slot.payload) : h.CasesInside := by
  intro e slot' stored' c named
  obtain ⟨d, slot, stored, same⟩ := slots e slot' stored'
  exact Nat.lt_of_lt_of_le (inside d slot stored c (same ▸ named)) count

theorem addNode (inside : g.CasesInside) {n : Node} {id : NodeId}
    (added : g.addNode n = some (h, id)) : h.CasesInside := by
  unfold Network.addNode at added
  split at added
  · cases added
  · cases added
    refine inside.of_slots ?_ fun e slot stored => ⟨e, slot, stored, rfl⟩
    show g.nodes.size ≤ (g.nodes.push n).size
    rw [Array.size_push]
    exact Nat.le_succ _

theorem modifyNode (inside : g.CasesInside) (n : NodeId) (f : Node → Node) :
    (g.modifyNode n f).CasesInside :=
  inside.of_slots (Nat.le_of_eq (Array.size_modify ..).symm) fun e slot stored => ⟨e, slot, stored, rfl⟩

theorem insertEdge (inside : g.CasesInside) (wf : g.WellFormed) (name : String) {payload : PlainEdge}
    (source target : NodeId) (below : payload.CaseBelow g.nodeCount) :
    (g.insertEdge name payload source target).1.CasesInside := by
  intro e slot' stored'
  rw [(slot?_insertEdge wf name payload source target).2] at stored'
  rw [nodeCount, nodes_insertEdge]
  split at stored'
  · cases stored'
    exact below
  · exact inside e slot' stored'

theorem modifyEdge (inside : g.CasesInside) {e : EdgeId} {f : PlainEdge → PlainEdge}
    (below : ∀ slot, g.slot? e = some slot → (f slot.payload).CaseBelow g.nodeCount) :
    (g.modifyEdge e f).CasesInside := by
  intro d slot' stored'
  rw [slot?_modifyEdge] at stored'
  split at stored'
  · rename_i same
    obtain ⟨slot, stored, rfl⟩ := Option.map_eq_some_iff.mp stored'
    exact below slot (same ▸ stored)
  · exact inside d slot' stored'

theorem renameEdge (inside : g.CasesInside) (e : EdgeId) (name : String) :
    (g.renameEdge e name).1.CasesInside := by
  cases taken : g.findEdgeByName? name with
  | some present =>
    rw [Network.renameEdge, taken]
    exact inside
  | none =>
    have nodes := (sameNodes_renameEdge g e name).nodes
    refine inside.of_slots (Nat.le_of_eq (congrArg Array.size nodes.symm)) fun d slot' stored' => ?_
    rw [slot?_renameEdge taken] at stored'
    split at stored'
    · obtain ⟨slot, stored, rfl⟩ := Option.map_eq_some_iff.mp stored'
      exact ⟨d, slot, stored, rfl⟩
    · exact ⟨d, slot', stored', rfl⟩

theorem removeEdge (inside : g.CasesInside) (e : EdgeId) : (g.removeEdge e).1.CasesInside := by
  have nodes := (sameNodes_removeEdge g e).nodes
  refine inside.of_slots (Nat.le_of_eq (congrArg Array.size nodes.symm)) fun d slot' stored' => ?_
  rw [slot?_removeEdge] at stored'
  split at stored'
  · cases stored'
  · exact ⟨d, slot', stored', rfl⟩

theorem reverse (inside : g.CasesInside) : g.reverse.CasesInside := by
  refine inside.of_slots (Nat.le_refl _) fun d slot' stored' => ?_
  rw [slot?_reverse] at stored'
  obtain ⟨slot, stored, rfl⟩ := Option.map_eq_some_iff.mp stored'
  exact ⟨d, slot, stored, rfl⟩

theorem removeNode (inside : g.CasesInside) (wf : g.WellFormed) (unreferenced : g.Unreferenced n)
    (gone : g.removeNode n = some (h, removed)) : h.CasesInside := by
  have hn := lt_of_node? (removeNode_eq_some_iff.mp gone).1
  have count := nodeCount_removeNode gone
  intro e slot' stored' c named
  rw [slot?_removeNode gone] at stored'
  split at stored'
  · cases stored'
  · rename_i kept
    obtain ⟨slot, stored, rfl⟩ := Option.map_eq_some_iff.mp stored'
    rw [payload_moved] at named
    obtain ⟨old, here, rfl⟩ := Option.map_eq_some_iff.mp named
    have apart : old.contingent ≠ n := fun same =>
      unreferenced e slot stored (fun touches => kept ((wf.mem_incident hn).mpr touches))
        ⟨old, here, same⟩
    have moved := (movedTo_eq_iff hn (inside e slot stored old here) apart).mp rfl
    rw [← caseMovedTo_of_ne apart] at moved
    have := moved.1
    show g.caseMovedTo n old.contingent < h.nodeCount
    lia

end CasesInside

end Network

/-- Whether an edit sets only case values that name nodes, and removes no node that a case value of an
edge between other nodes names. -/
def Edit.KeepsCases (g : Network PlainEdge) : Edit PlainEdge → Prop
  | modifyEdge e f => ∀ slot, g.slot? e = some slot → (f slot.payload).CaseBelow g.nodeCount
  | removeNode n => g.Unreferenced n
  | edit => ∀ payload ∈ edit.payload?, payload.CaseBelow g.nodeCount

theorem Edit.KeepsCases.caseBelow {g : Network PlainEdge} {edit : Edit PlainEdge}
    (keeps : edit.KeepsCases g) {payload : PlainEdge} (adds : edit.payload? = some payload) :
    payload.CaseBelow g.nodeCount := by
  cases edit with
  | addEdge | addEdgeBetween | edgeOrInsert => exact keeps payload adds
  | _ => cases adds

theorem Network.CasesInside.apply {g h : Network PlainEdge} (inside : g.CasesInside)
    (wf : g.WellFormed) {edit : Edit PlainEdge} (keeps : edit.KeepsCases g)
    (done : edit.apply g = .ok h) : h.CasesInside := by
  cases Edit.outcome_of_apply done with
  | refused => exact inside
  | addNode added => exact inside.addNode added
  | modifyNode n f => exact inside.modifyNode n f
  | renameNode n name => exact inside.modifyNode n _
  | removeNode gone => exact inside.removeNode wf keeps gone
  | insertEdge name adds => exact inside.insertEdge wf name _ _ (keeps.caseBelow adds)
  | modifyEdge e f => exact inside.modifyEdge keeps
  | renameEdge e name => exact inside.renameEdge e name
  | removeEdge e => exact inside.removeEdge e
  | reverse => exact inside.reverse
  | setZ z => exact inside
  | setActivation contingent activation => exact inside

/-- What the removal of the node `n` makes of edges and of the case values they bear. -/
structure Network.CasesFollow (g h : Network PlainEdge) (n : NodeId) : Prop where
  dropped : ∀ e, g.Touches n e → h.slot? e = none
  kept : ∀ e slot, g.slot? e = some slot → ¬ g.Touches n e → ∃ slot', h.slot? e = some slot' ∧
    slot'.payload.byName h.nodeName? = slot.payload.byName (g.nameAfterRemoval? n)
  same_iff : ∀ e slot slot', g.slot? e = some slot → h.slot? e = some slot' →
    (slot'.payload.byName h.nodeName? = slot.payload.byName g.nodeName? ↔ ¬ slot.payload.NamesNode n)

namespace IndexedNetwork

variable {m m' : IndexedNetwork PlainEdge} {n k : NodeId} {removed : Node}

namespace Faithful

/-- No other node has the name of the removed one, so its number never goes on naming it. -/
theorem nameAfterRemoval?_eq_iff (f : m.Faithful) (inside : n < m.network.nodeCount) :
    m.network.nameAfterRemoval? n k = m.network.nodeName? k ↔ k ≠ n := by
  refine ⟨?_, fun other => if_pos other⟩
  rintro same rfl
  obtain ⟨name, named⟩ : ∃ name, m.network.nodeName? k = some name :=
    ⟨_, congrArg (Option.map Node.name) (Array.getElem?_eq_getElem inside)⟩
  rw [Network.nameAfterRemoval?, if_neg (not_not.mpr rfl), named] at same
  split at same
  · cases same
  · have last := f.nodes.unique same named
    lia

theorem byName_eq_iff (f : m.Faithful) (inside : n < m.network.nodeCount) (e : PlainEdge) :
    e.byName (m.network.nameAfterRemoval? n) = e.byName m.network.nodeName? ↔ ¬ e.NamesNode n := by
  obtain ⟨kind, weight, case⟩ := e
  cases case with
  | none => simp [PlainEdge.byName, PlainEdge.NamesNode]
  | some c => simp [PlainEdge.byName, PlainEdge.NamesNode, f.nameAfterRemoval?_eq_iff inside]

theorem casesFollow (f : m.Faithful) (gone : m.network.removeNode n = some (m'.network, removed)) :
    m.network.CasesFollow m'.network n := by
  have inside := Network.lt_of_node? (Network.removeNode_eq_some_iff.mp gone).1
  have kept : ∀ e slot, m.network.slot? e = some slot → ¬ m.network.Touches n e →
      ∃ slot', m'.network.slot? e = some slot' ∧ slot'.payload.byName m'.network.nodeName? =
        slot.payload.byName (m.network.nameAfterRemoval? n) := by
    intro e slot stored other
    obtain ⟨slot', stored', _, _, _, payload⟩ :=
      Network.slot?_removeNode_of_other f.wellFormed gone stored other
    exact ⟨slot', stored', payload ▸ Network.byName_removeNode gone slot.payload⟩
  refine ⟨fun e => Network.slot?_removeNode_of_touches f.wellFormed gone, kept, ?_⟩
  intro e slot slot' stored stored'
  have other : ¬ m.network.Touches n e := by
    intro touches
    rw [Network.slot?_removeNode_of_touches f.wellFormed gone touches] at stored'
    cases stored'
  obtain ⟨slot₁, stored₁, reads⟩ := kept e slot stored other
  obtain rfl := Option.some.inj (stored'.symm.trans stored₁)
  rw [reads, f.byName_eq_iff inside]

theorem without_of_unreferenced (f : m.Faithful) (f' : m'.Faithful)
    (gone : m.network.removeNode n = some (m'.network, removed))
    (unreferenced : m.network.Unreferenced n) : Without PlainEdge.byName m m' n removed := by
  have inside := Network.lt_of_node? (Network.removeNode_eq_some_iff.mp gone).1
  refine f.without f' gone fun e slot stored other => ?_
  rw [Network.byName_removeNode gone]
  exact (f.byName_eq_iff inside _).mpr (unreferenced e slot stored other)

end Faithful

/-- Removing a node makes each case value that stays name what it has named, unless it has named that
node: then it names the node that takes the number, or none. So if edits set only case values that name
nodes, and remove no node that such a case value would go on naming, every case value names a node, and
by name it stays the same whatever other nodes are removed. -/
theorem case_values_follow {edits : List (Edit PlainEdge)} (built : Built edits m) :
    (∀ n < m.network.nodeCount, ∃ m' removed, m.removeNode n = some (m', removed) ∧
      m.network.node? n = some removed ∧ m.network.CasesFollow m'.network n) ∧
    (BuiltWith Edit.KeepsCases edits m → m.network.CasesInside ∧
      ∀ n < m.network.nodeCount, m.network.Unreferenced n →
        ∃ m' removed, m.removeNode n = some (m', removed) ∧
          Without PlainEdge.byName m m' n removed ∧ m'.network.CasesInside) := by
  have f := built.faithful.1
  constructor
  · intro n inside
    obtain ⟨m', removed, run, present, _, gone⟩ := f.exists_removeNode inside
    exact ⟨m', removed, run, present, f.casesFollow gone⟩
  · intro keeping
    have cases_inside : m.network.CasesInside :=
      keeping.invariant (nofun) fun g h edit wf inside keeps => inside.apply wf keeps
    refine ⟨cases_inside, fun n inside unreferenced => ?_⟩
    obtain ⟨m', removed, run, present, f', gone⟩ := f.exists_removeNode inside
    exact ⟨m', removed, run, f.without_of_unreferenced f' gone unreferenced,
      cases_inside.removeNode f.wellFormed unreferenced gone⟩

/-- The case value of the edge from Z to B belongs to C, which takes the number of A. -/
theorem case_values_follow_elsewhere : ∃ (m m' : IndexedNetwork PlainEdge) (removed : Node),
    BuiltWith Edit.KeepsCases [.addNode (.named "Z"), .addNode (.named "A"), .addNode (.named "B"),
      .addNode (.named "C"),
      .addEdgeBetween "ZB" ⟨.ordinary, 3, some ⟨.upper, 3, -5⟩⟩ 0 2] m ∧
    m.removeNode 1 = some (m', removed) ∧ m.network.CasesFollow m'.network 1 ∧
    Without PlainEdge.byName m m' 1 removed ∧ m'.network.CasesInside ∧
    (m'.network.edgeByName? PlainEdge.byName 0).map (fun edge => edge.2.2.2.2.2) =
      some (some (.upper, some "C", -5)) := by
  have start : BuiltWith Edit.KeepsCases [] .empty := .empty
  have z := start.edit (.addNode (.named "Z")) trivial nofun rfl
  have a := z.edit (.addNode (.named "A")) trivial nofun rfl
  have b := a.edit (.addNode (.named "B")) trivial nofun rfl
  have c := b.edit (.addNode (.named "C")) trivial nofun rfl
  have built := c.edit (.addEdgeBetween "ZB" ⟨.ordinary, 3, some ⟨.upper, 3, -5⟩⟩ 0 2) trivial
    (by
      rintro payload ⟨⟩
      decide +kernel) rfl
  obtain ⟨follows, keeps⟩ := case_values_follow built.built
  obtain ⟨m', removed, run, present, followed⟩ := follows 1 (by decide +kernel)
  obtain ⟨m₁, removed₁, run₁, without, inside⟩ :=
    (keeps built).2 1 (by decide +kernel) (.of_slots (by decide +kernel))
  obtain ⟨rfl, rfl⟩ := Prod.mk.inj (Option.some.inj (run.symm.trans run₁))
  have apart := fun touches =>
    (built.built.faithful.1.wellFormed.mem_incident (n := 1) (by decide +kernel) (e := 0)).mpr touches
  have kept := without.edge_kept 0 fun touches => absurd (apart touches) (by decide +kernel)
  exact ⟨_, m', removed, built, run, followed, without, inside,
    (congrArg (Option.map _) kept).trans (by decide +kernel)⟩

/-- When B itself is removed, the case value on the edge from Z to A goes over to C. -/
example :
    let edits : List (Edit PlainEdge) := [.addNode (.named "Z"), .addNode (.named "A"),
      .addNode (.named "B"), .addNode (.named "C"),
      .addEdgeBetween "ZA" ⟨.ordinary, 3, some ⟨.upper, 2, -5⟩⟩ 0 1, .removeNode 2]
    let g := (edits.foldlM (fun g (edit : Edit PlainEdge) => edit.apply g) .empty).toOption.getD .empty
    (g.edgeByName? PlainEdge.byName 0).map (fun edge => edge.2.2.2.2.2) =
      some (some (.upper, some "C", -5)) := by
  decide +kernel

end IndexedNetwork

end TemporalNetwork
