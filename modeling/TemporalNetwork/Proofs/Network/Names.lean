import Mathlib.Data.List.Nodup
import Mathlib.Data.List.Perm.Subperm
import TemporalNetwork.Proofs.Network.Removal

/-!
What the operations on a network do to the names of its nodes and edges.
-/

namespace TemporalNetwork

/-- If the name that is chosen is taken, so are all that have been tried. -/
theorem taken_of_firstUnused (taken : String → Bool) (name : Nat → String) {fuel i : Nat}
    (h : taken (firstUnused taken name fuel i) = true) :
    ∀ k, i ≤ k → k < i + fuel → taken (name k) = true := by
  induction fuel generalizing i with
  | zero => exact fun k le lt => absurd lt (Nat.not_lt.mpr le)
  | succ fuel ih =>
    rw [firstUnused] at h
    split at h
    · rename_i first
      intro k le lt
      rcases Nat.eq_or_lt_of_le le with rfl | later
      · exact first
      · exact ih h k later (by omega)
    · rename_i free
      exact absurd h free

/-- Of more different names than there are in use some is free. -/
theorem firstUnused_free {taken : String → Bool} {name : Nat → String} {used : List String}
    (apart : ∀ i j, name i = name j → i = j) (listed : ∀ s, taken s = true → s ∈ used) {fuel : Nat}
    (enough : used.length < fuel) : taken (firstUnused taken name fuel 0) = false := by
  refine Bool.eq_false_iff.mpr fun chosen => ?_
  have tried := taken_of_firstUnused taken name chosen
  have nodup : ((List.range fuel).map name).Nodup :=
    List.nodup_range.map fun i j => apart i j
  have among : (List.range fuel).map name ⊆ used := by
    intro s mem
    obtain ⟨k, hk, rfl⟩ := List.mem_map.mp mem
    exact listed _ (tried k (Nat.zero_le k) (by simpa using hk))
  have few := (List.Nodup.subperm nodup among).length_le
  rw [List.length_map, List.length_range] at few
  omega

theorem numbered_injective (base : String) {i j : Nat}
    (same : (if i = 0 then base else base ++ "_" ++ toString i) =
      if j = 0 then base else base ++ "_" ++ toString j) : i = j := by
  have longer : ∀ k : Nat, base ≠ base ++ "_" ++ toString k := by
    intro k equal
    have lengths := congrArg String.length equal
    simp only [String.length_append] at lengths
    have one : "_".length = 1 := rfl
    omega
  split at same <;> split at same
  · rename_i hi hj
    rw [hi, hj]
  · exact absurd same (longer j)
  · exact absurd same.symm (longer i)
  · have digits := (String.append_right_inj _).mp same
    rw [Nat.toString_eq_ofList_toDigits, Nat.toString_eq_ofList_toDigits] at digits
    rw [← Nat.ofDigitChars_ten_toDigits (n := i), String.ofList_inj.mp digits,
      Nat.ofDigitChars_ten_toDigits]

namespace Network

variable {E : Type} {g : Network E}

def nodeName? (g : Network E) (n : NodeId) : Option String := (g.node? n).map Node.name

def edgeName? (g : Network E) (e : EdgeId) : Option String := (g.slot? e).map EdgeSlot.name

theorem nodeName?_eq_some_iff {n : NodeId} {name : String} :
    g.nodeName? n = some name ↔ ∃ node, g.node? n = some node ∧ node.name = name :=
  Option.map_eq_some_iff

theorem edgeName?_eq_some_iff {e : EdgeId} {name : String} :
    g.edgeName? e = some name ↔ ∃ slot, g.slot? e = some slot ∧ slot.name = name :=
  Option.map_eq_some_iff

theorem nodeName?_eq_none {n : NodeId} (beyond : g.nodeCount ≤ n) : g.nodeName? n = none := by
  rw [nodeName?, node?, Array.getElem?_eq_none beyond, Option.map_none]

theorem nodeName?_of_findNode? {n : NodeId} {name : String} (found : g.findNode? name = some n) :
    g.nodeName? n = some name := by
  obtain ⟨inside, named, _⟩ := Array.findIdx?_eq_some_iff_getElem.mp found
  rw [nodeName?, node?, Array.getElem?_eq_getElem inside, Option.map_some, beq_iff_eq.mp named]

theorem findNode?_eq_none_iff {name : String} :
    g.findNode? name = none ↔ ∀ n, g.nodeName? n ≠ some name := by
  constructor
  · intro absent n named
    obtain ⟨node, present, rfl⟩ := nodeName?_eq_some_iff.mp named
    have other := Array.findIdx?_eq_none_iff.mp absent node (Array.mem_of_getElem? present)
    simp at other
  · intro unused
    cases found : g.findNode? name with
    | none => rfl
    | some n => exact absurd (nodeName?_of_findNode? found) (unused n)

theorem edgeName?_of_findEdgeByName? {e : EdgeId} {name : String}
    (found : g.findEdgeByName? name = some e) : g.edgeName? e = some name := by
  obtain ⟨inside, named, _⟩ := Array.findIdx?_eq_some_iff_getElem.mp found
  obtain ⟨slot, stored, same⟩ := (Option.any_eq_true ..).mp named
  rw [edgeName?, slot?, Array.getElem?_eq_getElem inside, Option.join_some, stored, Option.map_some,
    beq_iff_eq.mp same]

theorem findEdgeByName?_eq_none_iff {name : String} :
    g.findEdgeByName? name = none ↔ ∀ e, g.edgeName? e ≠ some name := by
  constructor
  · intro absent e named
    obtain ⟨slot, present, rfl⟩ := edgeName?_eq_some_iff.mp named
    have here := Option.join_eq_some_iff.mp present
    have other := Array.findIdx?_eq_none_iff.mp absent (some slot) (Array.mem_of_getElem? here)
    simp at other
  · intro unused
    cases found : g.findEdgeByName? name with
    | none => rfl
    | some e => exact absurd (edgeName?_of_findEdgeByName? found) (unused e)

theorem SameNodes.nodeName? {h : Network E} (same : g.SameNodes h) (n : NodeId) :
    h.nodeName? n = g.nodeName? n := by
  rw [Network.nodeName?, node?, same.nodes]
  rfl

theorem nodeName?_push (n : Node) (k : NodeId) : ((g.nodes.push n)[k]?).map Node.name =
    if k = g.nodeCount then some n.name else g.nodeName? k := by
  rw [Array.getElem?_push]
  show Option.map _ (if k = g.nodeCount then _ else _) = _
  split <;> rfl

theorem nodeName?_modifyNode {f : Node → Node} (keeps : ∀ node, (f node).name = node.name)
    (n k : NodeId) : (g.modifyNode n f).nodeName? k = g.nodeName? k := by
  rw [nodeName?, node?_modifyNode]
  split
  · rw [Option.map_map, nodeName?]
    exact congrArg (Option.map · _) (funext keeps)
  · rfl

theorem nodeName?_setName {n : NodeId} {node : Node} (present : g.node? n = some node) (name : String)
    (k : NodeId) : (g.modifyNode n fun node => { node with name := name }).nodeName? k =
      if k = n then some name else g.nodeName? k := by
  rw [nodeName?, node?_modifyNode]
  by_cases same : n = k
  · subst same
    simp [present]
  · rw [if_neg same, if_neg (Ne.symm same)]
    rfl

theorem edgeName?_insertEdge (wf : g.WellFormed) (name : String) (payload : E)
    (source target : NodeId) (e : EdgeId) :
    (g.insertEdge name payload source target).1.edgeName? e =
      if e = (g.insertEdge name payload source target).2 then some name else g.edgeName? e := by
  rw [edgeName?, (slot?_insertEdge wf name payload source target).2]
  by_cases same : (g.insertEdge name payload source target).2 = e
  · rw [if_pos same, if_pos same.symm]
    rfl
  · rw [if_neg same, if_neg (Ne.symm same)]
    rfl

theorem edgeName?_modifyEdge (e d : EdgeId) (f : E → E) :
    (g.modifyEdge e f).edgeName? d = g.edgeName? d := by
  rw [edgeName?, slot?_modifyEdge]
  split
  · rw [Option.map_map]
    rfl
  · rfl

theorem edgeName?_renameEdge {e : EdgeId} {name old : String}
    (unused : g.findEdgeByName? name = none) (named : g.edgeName? e = some old) (d : EdgeId) :
    (g.renameEdge e name).1.edgeName? d = if d = e then some name else g.edgeName? d := by
  obtain ⟨slot, stored, _⟩ := edgeName?_eq_some_iff.mp named
  rw [edgeName?, slot?_renameEdge unused]
  by_cases same : e = d
  · subst same
    simp [stored]
  · rw [if_neg same, if_neg (Ne.symm same)]
    rfl

theorem edgeName?_removeEdge (e d : EdgeId) :
    (g.removeEdge e).1.edgeName? d = if d = e then none else g.edgeName? d := by
  rw [edgeName?, slot?_removeEdge]
  by_cases same : e = d
  · rw [if_pos same, if_pos same.symm]
    rfl
  · rw [if_neg same, if_neg (Ne.symm same)]
    rfl

theorem edgeName?_reverse (e : EdgeId) : g.reverse.edgeName? e = g.edgeName? e := by
  rw [edgeName?, slot?_reverse, Option.map_map]
  rfl

theorem nodeName?_dropNode [EdgePayload E] {n : NodeId} (hn : n < g.nodeCount) (k : NodeId) :
    (g.dropNode n).nodeName? k = if k < g.nodeCount - 1 then
      g.nodeName? (if k = n then g.nodeCount - 1 else k) else none := by
  rw [nodeName?, node?_dropNode hn]
  split <;> rfl

theorem edgeName?_dropNode [EdgePayload E] (n : NodeId) (e : EdgeId) :
    (g.dropNode n).edgeName? e = g.edgeName? e := by
  rw [edgeName?, slot?_dropNode, Option.map_map]
  rfl

theorem length_edgeIds (g : Network E) : g.edgeIds.length = g.edgeCount := by
  have slots : (List.range g.slots.size).map g.slot? = g.slots.toList := by
    refine List.ext_getElem (by simp) fun e _ inside => ?_
    have inside : e < g.slots.size := by simpa using inside
    simp [slot?, inside]
  rw [edgeIds, edgeCount, ← List.countP_eq_length_filter, ← Array.countP_toList, ← slots,
    List.countP_map]
  rfl

end Network

end TemporalNetwork
