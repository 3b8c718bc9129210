import Mathlib.Order.Basic
import Mathlib.Tactic.Linarith
import TemporalNetwork.Proofs.Network.WellFormed
import TemporalNetwork.Stnu.BackPropagation

/-!
The weights between the nodes of a network without propositions: the ordinary weight, which is `+∞`
if there is none, and the lower-case weight. Tightening an edge lowers one ordinary weight and
changes nothing else.
-/

namespace TemporalNetwork

namespace PlainEdge

theorem lesser_cases {a b : Option Value} {w : Value} (h : lesser a b = some w) :
    a = some w ∨ b = some w := by
  cases a with
  | none => exact Or.inr h
  | some x =>
    cases b with
    | none => exact Or.inl h
    | some y =>
      rw [lesser, Option.some.injEq] at h
      rcases min_choice x y with least | least
      · exact Or.inl (congrArg some (least.symm.trans h))
      · exact Or.inr (congrArg some (least.symm.trans h))

theorem lesser_le_left {a b : Option Value} {x : Value} (h : a = some x) :
    ∃ w, lesser a b = some w ∧ w ≤ x := by
  subst h
  cases b with
  | none => exact ⟨x, rfl, le_refl x⟩
  | some y => exact ⟨min x y, rfl, min_le_left x y⟩

theorem lesser_le_right {a b : Option Value} {y : Value} (h : b = some y) :
    ∃ w, lesser a b = some w ∧ w ≤ y := by
  subst h
  cases a with
  | none => exact ⟨y, rfl, le_refl y⟩
  | some x => exact ⟨min x y, rfl, min_le_right x y⟩

end PlainEdge

namespace Network

variable {g : PlainNetwork}

/-- The ordinary weight from one node to another. -/
def bound (g : PlainNetwork) (source target : NodeId) : Value :=
  ((g.edgeBetween? source target).map PlainEdge.weight).getD Value.posInf

/-- The case value on the edge from one node to another. -/
def case? (g : PlainNetwork) (source target : NodeId) : Option CaseValue :=
  (g.edgeBetween? source target).bind PlainEdge.case

/-- The lower-case weight from one node to another. -/
def lowerWeight? (g : PlainNetwork) (source target : NodeId) : Option Value :=
  ((g.case? source target).filter fun c => c.kind == .lower).map CaseValue.value

/-- The ordinary weight as an optional one. -/
def ordinary? (g : PlainNetwork) (source target : NodeId) : Option Value :=
  if g.bound source target = Value.posInf then none else some (g.bound source target)

theorem bind_value? (g : PlainNetwork) (u v : NodeId) :
    (g.edgeBetween? u v).bind PlainEdge.value? = g.ordinary? u v := by
  unfold ordinary? bound
  cases g.edgeBetween? u v with
  | none => rfl
  | some edge => rfl

theorem bind_lower? (g : PlainNetwork) (u v : NodeId) :
    (g.edgeBetween? u v).bind (fun edge => edge.lower?.map CaseValue.value) =
      g.lowerWeight? u v := by
  unfold lowerWeight? case?
  cases g.edgeBetween? u v with
  | none => rfl
  | some edge => rfl

theorem ordinary?_eq_some_iff {u v : NodeId} {w : Value} :
    g.ordinary? u v = some w ↔ g.bound u v = w ∧ w ≠ Value.posInf := by
  unfold ordinary?
  split
  · rename_i absent
    simp only [reduceCtorEq, false_iff, not_and, not_not, absent]
    exact fun h => h.symm
  · rename_i present
    simp only [Option.some.injEq]
    constructor
    · intro same
      exact ⟨same, same ▸ present⟩
    · exact And.left

theorem weightBetween?_eq (g : PlainNetwork) (u v : NodeId) :
    g.weightBetween? u v = PlainEdge.lesser (g.ordinary? u v) (g.lowerWeight? u v) := by
  rw [← bind_value?, ← bind_lower?, weightBetween?]
  cases g.edgeBetween? u v with
  | none => rfl
  | some edge => rfl

/-- A potential for the ordinary and the lower-case weights. -/
def Admits (g : PlainNetwork) (p : NodeId → Int) : Prop :=
  ∀ u v w, g.weightBetween? u v = some w → p v ≤ p u + w

variable {p : NodeId → Int}

theorem Admits.le_of_ordinary (valid : g.Admits p) {u v : NodeId} {w : Value}
    (h : g.ordinary? u v = some w) : p v ≤ p u + w := by
  obtain ⟨least, weight, le⟩ := PlainEdge.lesser_le_left (b := g.lowerWeight? u v) h
  rw [← weightBetween?_eq] at weight
  have := valid u v least weight
  linarith

theorem Admits.le_of_lowerWeight (valid : g.Admits p) {u v : NodeId} {w : Value}
    (h : g.lowerWeight? u v = some w) : p v ≤ p u + w := by
  obtain ⟨least, weight, le⟩ := PlainEdge.lesser_le_right (a := g.ordinary? u v) h
  rw [← weightBetween?_eq] at weight
  have := valid u v least weight
  linarith

theorem admits_of_le (ordinary : ∀ u v w, g.ordinary? u v = some w → p v ≤ p u + w)
    (lower : ∀ u v w, g.lowerWeight? u v = some w → p v ≤ p u + w) : g.Admits p := by
  intro u v w weight
  rw [weightBetween?_eq] at weight
  rcases PlainEdge.lesser_cases weight with h | h
  · exact ordinary u v w h
  · exact lower u v w h

section tighten

variable (wf : g.WellFormed) {u v : NodeId} (hu : u < g.nodeCount) (hv : v < g.nodeCount)

include wf hu hv in
theorem tighten_edge (value : Value) :
    ∃ e edge, (g.edgeOrInsert u v (PlainEdge.ofKind .derived)).1.findEdge? u v = some e ∧
      edge = (g.edgeBetween? u v).getD (PlainEdge.ofKind .derived) ∧
      g.tighten u v value =
        ((g.edgeOrInsert u v (PlainEdge.ofKind .derived)).1.modifyEdge e
          fun _ => (edge.tighten value).1, (edge.tighten value).2) := by
  have found := findEdge?_edgeOrInsert wf hu hv (PlainEdge.ofKind .derived)
  have joined := edgeBetween?_edgeOrInsert wf hu hv (PlainEdge.ofKind .derived) u v
  rw [if_pos ⟨rfl, rfl⟩, edgeBetween?, found, Option.bind_some] at joined
  refine ⟨_, _, found, rfl, ?_⟩
  rw [tighten]
  simp only [joined]

include wf hu hv in
theorem WellFormed.tighten (value : Value) : (g.tighten u v value).1.WellFormed := by
  obtain ⟨e, edge, _, _, run⟩ := tighten_edge wf hu hv value
  rw [run]
  have inserted := wf.edgeOrInsert hu hv (PlainEdge.ofKind .derived)
  exact inserted.modifyEdge e fun _ => (edge.tighten value).1

include wf hu hv in
theorem nodes_tighten (value : Value) : (g.tighten u v value).1.nodes = g.nodes := by
  obtain ⟨e, edge, _, _, run⟩ := tighten_edge wf hu hv value
  rw [run]
  exact nodes_edgeOrInsert g u v _

include wf hu hv in
theorem edgeBetween?_tighten (value : Value) (a b : NodeId) :
    (g.tighten u v value).1.edgeBetween? a b =
      if u = a ∧ v = b then
        some (((g.edgeBetween? u v).getD (PlainEdge.ofKind .derived)).tighten value).1
      else g.edgeBetween? a b := by
  obtain ⟨e, edge, found, same, run⟩ := tighten_edge wf hu hv value
  rw [run, edgeBetween?_modifyEdge (wf.edgeOrInsert hu hv _) found,
    edgeBetween?_edgeOrInsert wf hu hv]
  split
  · rw [same, Option.map_some]
  · rfl

include wf hu hv in
theorem bound_tighten (value : Value) (a b : NodeId) :
    (g.tighten u v value).1.bound a b =
      if u = a ∧ v = b then min value (g.bound u v) else g.bound a b := by
  rw [bound, edgeBetween?_tighten wf hu hv]
  split
  · rw [Option.map_some, Option.getD_some, PlainEdge.weight_tighten, bound]
    cases g.edgeBetween? u v <;> rfl
  · rfl

include wf hu hv in
theorem case?_tighten (value : Value) (a b : NodeId) :
    (g.tighten u v value).1.case? a b = g.case? a b := by
  rw [case?, edgeBetween?_tighten wf hu hv, case?]
  split
  · rename_i same
    rw [← same.1, ← same.2]
    cases g.edgeBetween? u v <;> simp only [Option.getD_some, Option.getD_none, Option.bind_some,
      Option.bind_none, PlainEdge.tighten] <;> split <;> rfl
  · rfl

include wf hu hv in
theorem tighten_changed_iff (value : Value) :
    (g.tighten u v value).2 = true ↔ value < g.bound u v := by
  obtain ⟨e, edge, found, same, run⟩ := tighten_edge wf hu hv value
  rw [run, PlainEdge.tighten_changed_iff, same, bound]
  cases g.edgeBetween? u v <;> rfl

end tighten

/-- `h` differs from `g` in its nodes and in lower ordinary weights into some nodes. -/
structure TightenedInto (into : NodeId → Prop) (g h : PlainNetwork) : Prop where
  nodeCount : h.nodeCount = g.nodeCount
  bound : ∀ u v, h.bound u v = g.bound u v ∨
    into v ∧ h.bound u v < g.bound u v ∧ h.bound u v < Value.posInf
  case? : ∀ u v, h.case? u v = g.case? u v

namespace TightenedInto

variable {into into' : NodeId → Prop} {g h k : PlainNetwork}

theorem refl (into : NodeId → Prop) (g : PlainNetwork) : g.TightenedInto into g :=
  ⟨rfl, fun _ _ => Or.inl rfl, fun _ _ => rfl⟩

theorem mono (tightened : g.TightenedInto into h) (more : ∀ v, into v → into' v) :
    g.TightenedInto into' h :=
  ⟨tightened.nodeCount, fun u v => (tightened.bound u v).imp_right fun lower =>
    ⟨more v lower.1, lower.2⟩, tightened.case?⟩

theorem trans (first : g.TightenedInto into h) (second : h.TightenedInto into k) :
    g.TightenedInto into k := by
  refine ⟨second.nodeCount.trans first.nodeCount, fun u v => ?_,
    fun u v => (second.case? u v).trans (first.case? u v)⟩
  rcases second.bound u v with same | ⟨inside, lower, finite⟩
  · rw [same]
    exact first.bound u v
  · refine Or.inr ⟨inside, ?_, finite⟩
    rcases first.bound u v with same | ⟨_, lower', _⟩
    · rwa [← same]
    · exact lower.trans lower'

theorem bound_le (tightened : g.TightenedInto into h) (u v : NodeId) : h.bound u v ≤ g.bound u v := by
  rcases tightened.bound u v with same | ⟨_, lower, _⟩
  · exact same.le
  · exact lower.le

theorem bound_eq (tightened : g.TightenedInto into h) {v : NodeId} (elsewhere : ¬ into v)
    (u : NodeId) : h.bound u v = g.bound u v :=
  (tightened.bound u v).resolve_right fun inside => elsewhere inside.1

theorem ordinary?_le (tightened : g.TightenedInto into h) {u v : NodeId} {w : Value}
    (weight : g.ordinary? u v = some w) : ∃ w', h.ordinary? u v = some w' ∧ w' ≤ w := by
  obtain ⟨rfl, finite⟩ := ordinary?_eq_some_iff.mp weight
  rcases tightened.bound u v with same | ⟨_, lower, finite'⟩
  · exact ⟨_, ordinary?_eq_some_iff.mpr ⟨same, finite⟩, le_rfl⟩
  · exact ⟨_, ordinary?_eq_some_iff.mpr ⟨rfl, finite'.ne⟩, lower.le⟩

theorem ordinary?_eq (tightened : g.TightenedInto into h) {v : NodeId} (elsewhere : ¬ into v)
    (u : NodeId) : h.ordinary? u v = g.ordinary? u v := by
  rw [ordinary?, tightened.bound_eq elsewhere, ordinary?]

theorem lowerWeight? (tightened : g.TightenedInto into h) (u v : NodeId) :
    h.lowerWeight? u v = g.lowerWeight? u v := by
  rw [Network.lowerWeight?, tightened.case?, Network.lowerWeight?]

theorem admits (tightened : g.TightenedInto into h) {p : NodeId → Int} (valid : h.Admits p) :
    g.Admits p := by
  refine admits_of_le (fun u v w weight => ?_) fun u v w weight => ?_
  · obtain ⟨w', weight', le⟩ := tightened.ordinary?_le weight
    have := valid.le_of_ordinary weight'
    linarith
  · rw [← tightened.lowerWeight?] at weight
    exact valid.le_of_lowerWeight weight

end TightenedInto

theorem tightenedInto_tighten (wf : g.WellFormed) {u v : NodeId} (hu : u < g.nodeCount)
    (hv : v < g.nodeCount) {value : Value} (finite : value < Value.posInf) :
    g.TightenedInto (fun n => n = v) (g.tighten u v value).1 := by
  refine ⟨by rw [nodeCount, nodes_tighten wf hu hv, nodeCount], fun a b => ?_,
    case?_tighten wf hu hv value⟩
  rw [bound_tighten wf hu hv]
  split
  · rename_i same
    rw [← same.1, ← same.2]
    rcases le_or_gt (g.bound u v) value with kept | lower
    · exact Or.inl (min_eq_right kept)
    · rw [min_eq_left lower.le]
      exact Or.inr ⟨rfl, lower, finite⟩
  · exact Or.inl rfl

end Network

end TemporalNetwork
