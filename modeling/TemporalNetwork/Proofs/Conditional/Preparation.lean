import TemporalNetwork.Conditional.Controllability
import TemporalNetwork.Proofs.Check.Preparation
import TemporalNetwork.Proofs.Conditional.Merging

/-!
What the preparation of a network keeps. A preparation is a run of a few kinds of edits, so a property
of networks that each kind of edit keeps holds of the prepared network.
-/

namespace TemporalNetwork

/-- No proposition is observed by two nodes. -/
def Network.UniqueObservers (g : LabeledNetwork) : Prop :=
  ∀ m n p, (g.nodeD m).observed = some p → (g.nodeD n).observed = some p → m = n

namespace Network

/-- The reference node: the one that is set, else the node named `Z`, else one yet to be added. -/
def reference (g : LabeledNetwork) : NodeId := (g.z <|> g.findNode? "Z").getD g.nodeCount

/-- Whether ordinary values have unknown literals only where it is allowed. -/
def UnknownWithin (g : LabeledNetwork) (allowed : EdgeId → Label → Value → Prop) : Prop :=
  ∀ e edge, g.edge? e = some edge → ∀ l w, (l, w) ∈ edge.values.entries → l.hasUnknown = true →
    allowed e l w

/-- Whether no ordinary value has an unknown literal. -/
def Known (g : LabeledNetwork) : Prop := g.UnknownWithin fun _ _ _ => False

theorem UnknownWithin.mono {g : LabeledNetwork} {allowed allowed' : EdgeId → Label → Value → Prop}
    (within : g.UnknownWithin allowed) (more : ∀ e l w, allowed e l w → allowed' e l w) :
    g.UnknownWithin allowed' :=
  fun e edge stored l w mem unknown => more e l w (within e edge stored l w mem unknown)

theorem edge?_modifyEdge (g : LabeledNetwork) (e : EdgeId) (f : LabeledEdge → LabeledEdge)
    (e' : EdgeId) :
    (g.modifyEdge e f).edge? e' = if e = e' then (g.edge? e').map f else g.edge? e' := by
  rw [edge?, slot?_modifyEdge, edge?]
  split
  · cases g.slot? e' <;> rfl
  · rfl

end Network

namespace WellDefined

open Preparation

/-- Properties of networks which every edit of the preparation keeps. -/
structure Kept (withNodeLabels : Bool) (I : LabeledNetwork → Prop) : Prop where
  setZ : ∀ g z, I g → I (g.setZ z)
  addZ : ∀ g h id, I g → g.addNode (Node.named "Z") = some (h, id) → I h
  relabel : ∀ g n label, I g → I (g.modifyNode n fun node => { node with label := label })
  erase : ∀ g e case label, I g → I (g.modifyEdge e fun edge => edge.erase case label)
  replace : withNodeLabels = true → ∀ g e case label required value, I g →
    I (g.modifyEdge e fun edge => ((edge.erase case label).merge case required value).1)

variable {withNodeLabels : Bool} {I J : LabeledNetwork → Prop} {d : Draft LabeledEdge}

theorem Kept.and (first : Kept withNodeLabels I) (second : Kept withNodeLabels J) :
    Kept withNodeLabels fun g => I g ∧ J g where
  setZ g z h := ⟨first.setZ g z h.1, second.setZ g z h.2⟩
  addZ g k id h added := ⟨first.addZ g k id h.1 added, second.addZ g k id h.2 added⟩
  relabel g n label h := ⟨first.relabel g n label h.1, second.relabel g n label h.2⟩
  erase g e case label h := ⟨first.erase g e case label h.1, second.erase g e case label h.2⟩
  replace on g e case label required value h :=
    ⟨first.replace on g e case label required value h.1,
      second.replace on g e case label required value h.2⟩

theorem kept_wellFormed : Kept withNodeLabels Network.WellFormed where
  setZ _ z wf := wf.setZ z
  addZ _ _ _ wf added := wf.addNode added
  relabel _ n _ wf := wf.modifyNode n _
  erase _ e _ _ wf := wf.modifyEdge e _
  replace _ _ e _ _ _ _ wf := wf.modifyEdge e _

theorem kept_nodeCount (withNodeLabels : Bool) (n : Nat) :
    Kept withNodeLabels fun g => n < g.nodeCount where
  setZ _ _ h := h
  addZ g k id h added := by
    unfold Network.addNode at added
    split at added
    · cases added
    · cases added
      simp only [Network.nodeCount, Array.size_push] at *
      lia
  relabel _ _ _ h := by simpa [Network.nodeCount, Network.modifyNode] using h
  erase _ _ _ _ h := h
  replace _ _ _ _ _ _ _ h := h

theorem kept_nodeCount_le (withNodeLabels : Bool) (n : Nat) :
    Kept withNodeLabels fun g => g.nodeCount ≤ n ∨
      g.nodeCount = n + 1 ∧ ∃ i node, g.node? i = some node ∧ node.name = "Z" where
  setZ _ _ h := h
  addZ g k id h added := by
    unfold Network.addNode at added
    split at added
    · cases added
    · rename_i absent
      cases added
      have count : (g.nodes.push (Node.named "Z")).size = g.nodeCount + 1 := Array.size_push _
      rcases h with few | ⟨_, i, node, here, named⟩
      · rcases Nat.lt_or_eq_of_le few with fewer | same
        · exact Or.inl (count.trans_le fewer)
        · refine Or.inr ⟨count.trans (congrArg (· + 1) same), g.nodeCount, Node.named "Z", ?_, rfl⟩
          exact Array.getElem?_push_size
      · -- A node named Z is found, so no other one is added.
        have none : g.findNode? "Z" = none := by simpa [Node.named] using absent
        have other := Array.findIdx?_eq_none_iff.mp none node (Array.mem_of_getElem? here)
        simp [named] at other
  relabel g m label h := by
    have count : (g.modifyNode m fun node => { node with label := label }).nodeCount = g.nodeCount :=
      Array.size_modify ..
    rw [count]
    refine h.imp_right fun ⟨same, i, node, here, named⟩ => ⟨same, i, ?_⟩
    rw [Network.node?_modifyNode, here]
    split
    · exact ⟨_, rfl, named⟩
    · exact ⟨node, rfl, named⟩
  erase _ _ _ _ h := h
  replace _ _ _ _ _ _ _ h := h

theorem lt_of_observed {g : LabeledNetwork} {n : NodeId} {p : Proposition}
    (observes : (g.nodeD n).observed = some p) : n < g.nodeCount := by
  by_contra outside
  rw [Network.nodeD, Network.node?, Array.getElem?_eq_none (not_lt.mp outside)] at observes
  cases observes

theorem nodeD_modifyNode (g : LabeledNetwork) (n : NodeId) (f : Node → Node) (m : NodeId) :
    (g.modifyNode n f).nodeD m =
      if n = m ∧ m < g.nodeCount then f (g.nodeD m) else g.nodeD m := by
  rw [Network.nodeD, Network.node?_modifyNode, Network.nodeD]
  by_cases inside : m < g.nodeCount
  · have here : g.node? m = some g.nodes[m] := Array.getElem?_eq_getElem inside
    by_cases same : n = m <;> simp [same, inside, here]
  · have none : g.node? m = none := Array.getElem?_eq_none (not_lt.mp inside)
    simp [inside, none]

theorem observed_relabel (g : LabeledNetwork) (n : NodeId) (label : Label) (m : NodeId) :
    ((g.modifyNode n fun node => { node with label := label }).nodeD m).observed =
      (g.nodeD m).observed := by
  rw [nodeD_modifyNode]
  split <;> rfl

theorem observed_addZ {g h : LabeledNetwork} {id : NodeId}
    (added : g.addNode (Node.named "Z") = some (h, id)) (m : NodeId) :
    (h.nodeD m).observed = (g.nodeD m).observed := by
  unfold Network.addNode at added
  split at added
  · cases added
  · cases added
    simp only [Network.nodeD, Network.node?, Array.getElem?_push]
    split
    · rename_i last
      subst last
      simp [Node.named]
    · rfl

theorem kept_uniqueObservers (withNodeLabels : Bool) :
    Kept withNodeLabels Network.UniqueObservers where
  setZ _ _ h := h
  addZ g k id h added m n p := by
    rw [observed_addZ added, observed_addZ added]
    exact h m n p
  relabel g n label h m k p := by
    rw [observed_relabel, observed_relabel]
    exact h m k p
  erase _ _ _ _ h := h
  replace _ _ _ _ _ _ _ h := h

theorem uniqueObservers_of_check {g : LabeledNetwork} (passed : g.duplicateObserver? = none) :
    g.UniqueObservers := by
  have first : ∀ n p, (g.nodeD n).observed = some p → observerAmong? g.nodes p = some n := by
    intro n p observes
    have inside := lt_of_observed observes
    have here : g.nodes[n].observed = some p := by
      rw [Network.nodeD, Network.node?, Array.getElem?_eq_getElem inside] at observes
      exact observes
    have passed' := List.findSome?_eq_none_iff.mp passed n (List.mem_range.mpr inside)
    rw [observes, Option.bind_some] at passed'
    cases h : observerAmong? g.nodes p with
    | none =>
      have absent := Array.findIdx?_eq_none_iff.mp h g.nodes[n] (Array.getElem_mem inside)
      simp [here] at absent
    | some k =>
      rw [h, Option.bind_some] at passed'
      obtain ⟨hk, _, before⟩ := Array.findIdx?_eq_some_iff_getElem.mp h
      have le : ¬ k < n := by
        intro lt
        rw [if_pos lt] at passed'
        cases passed'
      have ge : ¬ n < k := by
        intro lt
        exact before n lt (beq_iff_eq.mpr here)
      have same : k = n := by lia
      rw [same]
  intro m n p hm hn
  have := first m p hm
  rw [first n p hn] at this
  exact (Option.some.inj this).symm

theorem ensureZ_ends (kept : Kept withNodeLabels I) (holds : I d.network) :
    Ends ensureZ d (fun z d' => I d'.network ∧ z = d.network.reference) (fun _ _ => True) := by
  unfold ensureZ
  rw [ends_bind, ends_network]
  split
  · rename_i z present
    refine ⟨kept.setZ _ _ holds, ?_⟩
    rw [Network.reference, present, Option.getD_some]
  · rename_i absent
    rw [ends_bind, ends_noteFix, ends_bind, ends_modifyNetwork, ends_bind, ends_modifyNetwork]
    refine ⟨kept.setZ _ _ ?_, by rw [Network.reference, absent, Option.getD_none]⟩
    cases added : d.network.addNode (Node.named "Z") with
    | none => exact holds
    | some added' =>
      obtain ⟨h, id⟩ := added'
      exact kept.addZ _ _ _ holds added

theorem clearZLabel_ends (kept : Kept withNodeLabels I) (z : NodeId) (holds : I d.network) :
    Ends (clearZLabel z) d (fun _ d' => I d'.network ∧ z < d'.network.nodeCount)
      (fun _ _ => True) := by
  unfold clearZLabel
  rw [ends_bind, ends_network]
  cases here : d.network.node? z with
  | none => exact trivial
  | some node =>
    have inside : z < d.network.nodeCount := by
      by_contra outside
      rw [Network.node?, Array.getElem?_eq_none (not_lt.mp outside)] at here
      cases here
    dsimp only
    split
    · rw [ends_bind, ends_noteFix, ends_modifyNetwork]
      exact ⟨kept.relabel _ _ _ holds, (kept_nodeCount false z).relabel _ _ _ inside⟩
    · exact ⟨holds, inside⟩

theorem failIf_ends (e : Option StructuralError) :
    Ends (failIf e) d (fun _ d' => d' = d ∧ e = none) (fun _ _ => True) := by
  cases e with
  | none => exact ⟨rfl, rfl⟩
  | some e => exact trivial

theorem closeNodeLabel_ends (kept : Kept withNodeLabels I) (n : NodeId) (holds : I d.network) :
    Ends (closeNodeLabel n) d (fun _ d' => I d'.network) (fun _ _ => True) := by
  unfold closeNodeLabel
  rw [ends_bind, ends_network]
  dsimp only
  split
  · exact trivial
  · exact trivial
  · split
    · rw [ends_bind, ends_noteFix, ends_modifyNetwork]
      exact kept.relabel _ _ _ holds
    · exact holds

theorem repairValue_ends (kept : Kept withNodeLabels I) (e : EdgeId) (case : CaseLabel)
    (label : Label) (value : Value) (holds : I d.network) :
    Ends (repairValue withNodeLabels e case label value) d (fun _ d' => I d'.network)
      (fun _ _ => True) := by
  unfold repairValue
  rw [ends_bind, ends_network]
  cases d.network.slot? e with
  | none => exact holds
  | some slot =>
    dsimp only
    split
    · exact holds
    · exact trivial
    · rw [ends_bind, ends_modifyNetwork, ends_noteFix]
      exact kept.erase _ _ _ _ holds
    · rw [ends_bind, ends_modifyNetwork, ends_noteFix]
      exact kept.erase _ _ _ _ holds
    · rename_i required relabels
      rw [ends_bind, ends_modifyNetwork, ends_noteFix]
      refine kept.replace ?_ _ _ _ _ _ _ holds
      -- Without node labels no value is given another label.
      by_contra off
      rw [Bool.not_eq_true] at off
      subst off
      unfold Network.labelRepair at relabels
      split at relabels
      · cases relabels
      · simp only [Bool.false_eq_true, if_false] at relabels
        split at relabels <;> cases relabels

theorem repairEdge_ends (kept : Kept withNodeLabels I) (e : EdgeId) (holds : I d.network) :
    Ends (repairEdge withNodeLabels e) d (fun _ d' => I d'.network) (fun _ _ => True) := by
  unfold repairEdge
  rw [ends_bind, ends_network]
  cases d.network.edge? e with
  | none => exact holds
  | some edge =>
    exact ends_forM (fun _ (d' : Draft LabeledEdge) => I d'.network)
      (fun (v : CaseLabel × Label × Value) _ _ holds => repairValue_ends kept e v.1 v.2.1 v.2.2 holds) _ _ holds

theorem repairEdges_ends (kept : Kept withNodeLabels I) (z : NodeId) (holds : I d.network) :
    Ends (do
      (← network).edgeIds.forM (repairEdge withNodeLabels)
      return z) d (fun z' d' => z' = z ∧ I d'.network) (fun _ _ => True) := by
  rw [ends_bind, ends_network]
  refine (ends_forM (fun _ (d' : Draft LabeledEdge) => I d'.network)
    (fun e _ _ holds => repairEdge_ends kept e holds) _ _ holds).bind fun _ _ holds' => ?_
  exact ⟨rfl, holds'⟩

/-- A value with unknown literals does not survive its repair. -/
theorem repairValue_unknown {allowed : EdgeId → Label → Value → Prop}
    (within : d.network.UnknownWithin allowed) (e : EdgeId) (case : CaseLabel) (label : Label)
    (value : Value) :
    Ends (repairValue false e case label value) d
      (fun _ d' => d'.network.UnknownWithin fun e' l w =>
        allowed e' l w ∧ ¬ (e' = e ∧ case.isEmpty = true ∧ l = label)) (fun _ _ => True) := by
  unfold repairValue
  rw [ends_bind, ends_network]
  have unaffected : (d.network.edge? e = none ∨ label.hasUnknown = false) →
      d.network.UnknownWithin fun e' l w =>
        allowed e' l w ∧ ¬ (e' = e ∧ case.isEmpty = true ∧ l = label) := by
    intro idle e' edge stored l w mem unknown
    refine ⟨within e' edge stored l w mem unknown, ?_⟩
    rintro ⟨rfl, _, rfl⟩
    rcases idle with absent | known
    · rw [absent] at stored
      cases stored
    · rw [known] at unknown
      cases unknown
  cases here : d.network.slot? e with
  | none =>
    refine unaffected (Or.inl ?_)
    rw [Network.edge?, here]
    rfl
  | some slot =>
    dsimp only
    cases unknown : label.hasUnknown with
    | false =>
      split
      · exact unaffected (Or.inr unknown)
      · exact trivial
      all_goals
        rename_i repairs
        unfold Network.labelRepair at repairs
        simp only [unknown, Bool.false_eq_true, if_false] at repairs
        split at repairs <;> cases repairs
    | true =>
      have drops : d.network.labelRepair false slot.source slot.target label = .dropUnknown := by
        rw [Network.labelRepair, if_pos unknown]
      rw [drops]
      dsimp only
      rw [ends_bind, ends_modifyNetwork, ends_noteFix]
      intro e' edge stored l w mem unknown'
      rw [Network.edge?_modifyEdge] at stored
      split at stored
      · rename_i same
        subst same
        obtain ⟨old, stored', rfl⟩ := Option.map_eq_some_iff.mp stored
        unfold LabeledEdge.erase at mem
        split at mem
        · obtain ⟨mem, other⟩ := ValueMap.mem_erase.mp mem
          exact ⟨within e old stored' l w mem unknown', fun erased => other erased.2.2⟩
        · rename_i upper
          exact ⟨within e old stored' l w mem unknown', fun erased => upper erased.2.1⟩
      · rename_i other
        exact ⟨within e' edge stored l w mem unknown', fun erased => other erased.1.symm⟩

theorem repairEdge_unknown {e : EdgeId} {todo : List EdgeId}
    (within : d.network.UnknownWithin fun e' _ _ => e' ∈ e :: todo) :
    Ends (repairEdge false e) d
      (fun _ d' => d'.network.UnknownWithin fun e' _ _ => e' ∈ todo) (fun _ _ => True) := by
  unfold repairEdge
  rw [ends_bind, ends_network]
  cases here : d.network.edge? e with
  | none =>
    intro e' edge stored l w mem unknown
    rcases List.mem_cons.mp (within e' edge stored l w mem unknown) with rfl | later
    · rw [here] at stored
      cases stored
    · exact later
  | some edge =>
    refine (ends_forM (fun rest (d' : Draft LabeledEdge) => d'.network.UnknownWithin
      fun e' l w => e' ∈ todo ∨ e' = e ∧ (CaseLabel.empty, l, w) ∈ rest) ?_ _ _ ?_).mono
        ?_ fun _ _ => id
    · intro v rest d' within'
      refine (repairValue_unknown within' e v.1 v.2.1 v.2.2).mono (fun _ _ repaired => ?_)
        fun _ _ => id
      refine repaired.mono ?_
      rintro e' l w ⟨later | ⟨same, mem⟩, kept⟩
      · exact Or.inl later
      · rcases List.mem_cons.mp mem with rfl | mem
        · exact absurd ⟨same, rfl, rfl⟩ kept
        · exact Or.inr ⟨same, mem⟩
    · intro e' edge' stored l w mem unknown
      rcases List.mem_cons.mp (within e' edge' stored l w mem unknown) with rfl | later
      · rw [here] at stored
        cases stored
        exact Or.inr ⟨rfl, List.mem_append_left _ (List.mem_map.mpr ⟨(l, w), mem, rfl⟩)⟩
      · exact Or.inl later
    · intro _ d' repaired
      refine repaired.mono ?_
      rintro e' l w (later | ⟨_, mem⟩)
      · exact later
      · cases mem

theorem repairEdges_known (z : NodeId) :
    Ends (do
      (← network).edgeIds.forM (repairEdge false)
      return z) d (fun _ d' => d'.network.Known) (fun _ _ => True) := by
  rw [ends_bind, ends_network]
  refine (ends_forM (fun todo (d' : Draft LabeledEdge) => d'.network.UnknownWithin
    fun e' _ _ => e' ∈ todo) (fun e todo d' within => repairEdge_unknown within) _ _ ?_).bind
      fun _ _ repaired => ?_
  · intro e edge stored l w _ _
    obtain ⟨slot, stored, _⟩ := Option.map_eq_some_iff.mp stored
    exact Network.mem_edgeIds.mpr (by simp [stored])
  · exact repaired.mono fun e l w mem => by cases mem

/-- The prepared network keeps what every edit keeps, has the reference node, and has no two
observers of one proposition; without node labels, no unknown literal is left. -/
theorem prepare_ends (kept : Kept withNodeLabels I) (holds : I d.network) :
    Ends (prepare withNodeLabels) d
      (fun z d' => I d'.network ∧ z < d'.network.nodeCount ∧ d'.network.UniqueObservers ∧
        z = d.network.reference ∧ (withNodeLabels = false → d'.network.Known))
      (fun _ _ => True) := by
  unfold prepare
  refine (ensureZ_ends kept holds).bind fun z d₁ ensured => ?_
  obtain ⟨holds₁, isReference⟩ := ensured
  refine (clearZLabel_ends kept z holds₁).bind fun _ d₂ holds₂ => ?_
  rw [ends_bind, ends_network]
  refine (failIf_ends d₂.network.duplicateObserver?).bind fun _ d₃ checked => ?_
  obtain ⟨rfl, passed⟩ := checked
  have all := kept.and ((kept_nodeCount withNodeLabels z).and (kept_uniqueObservers withNodeLabels))
  have holds₃ : I d₃.network ∧ z < d₃.network.nodeCount ∧ d₃.network.UniqueObservers :=
    ⟨holds₂.1, holds₂.2, uniqueObservers_of_check passed⟩
  cases withNodeLabels with
  | false =>
    refine ((repairEdges_ends all z holds₃).and (repairEdges_known z)).mono ?_ fun _ _ _ => trivial
    rintro _ _ ⟨⟨rfl, holds', inside, unique⟩, known⟩
    exact ⟨holds', inside, unique, isReference, fun _ => known⟩
  | true =>
    rw [if_pos rfl, ends_bind, ends_network]
    refine (ends_forM (fun _ (d' : Draft LabeledEdge) => I d'.network ∧
      z < d'.network.nodeCount ∧ d'.network.UniqueObservers)
      (fun n _ _ holds => closeNodeLabel_ends all n holds) _ _ holds₃).bind
      fun _ d₄ holds₄ => ?_
    rw [ends_bind, ends_network]
    refine (failIf_ends _).bind fun _ d₅ checked => ?_
    obtain ⟨rfl, _⟩ := checked
    refine (repairEdges_ends all z holds₄).mono ?_ fun _ _ => id
    rintro _ _ ⟨rfl, holds', inside, unique⟩
    exact ⟨holds', inside, unique, isReference, nofun⟩

end WellDefined

namespace Network

/-- The scenarios in which the bounds of a node hold. -/
def boundLabel (g : LabeledNetwork) (withNodeLabels : Bool) (n : NodeId) : Label :=
  if withNodeLabels then (g.nodeD n).label else .empty

/-- Whether the edges between `n` and `z` bound `n` to `[0, horizon]`. -/
def Bounds (g : LabeledNetwork) (withNodeLabels : Bool) (z : NodeId) (horizon : Value)
    (n : NodeId) : Prop :=
  g.Covers n z .empty (g.boundLabel withNodeLabels n) 0 ∧
    g.Covers z n .empty (g.boundLabel withNodeLabels n) horizon

variable {g h : LabeledNetwork} {withNodeLabels : Bool} {z n : NodeId} {horizon : Value}

theorem Grows.boundLabel (grows : g.Grows h) (n : NodeId) :
    h.boundLabel withNodeLabels n = g.boundLabel withNodeLabels n := by
  rw [Network.boundLabel, grows.nodeD, Network.boundLabel]

theorem Grows.bounds (grows : g.Grows h) (bounds : g.Bounds withNodeLabels z horizon n) :
    h.Bounds withNodeLabels z horizon n := by
  unfold Bounds
  rw [grows.boundLabel]
  exact ⟨grows.covers bounds.1, grows.covers bounds.2⟩

theorem boundNode_spec (withNodeLabels : Bool) (wf : g.WellFormed) (hz : z < g.nodeCount)
    (hn : n < g.nodeCount) (finite : horizon ≠ Value.posInf) :
    (g.boundNode z horizon (g.boundLabel withNodeLabels n) n).WellFormed ∧
      g.Grows (g.boundNode z horizon (g.boundLabel withNodeLabels n) n) ∧
      (g.boundNode z horizon (g.boundLabel withNodeLabels n) n).Bounds withNodeLabels z horizon
        n := by
  obtain ⟨grows, joined, _⟩ := mergeInto_spec wf hn hz .internal .empty
    (g.boundLabel withNodeLabels n) 0
  obtain ⟨grows', joined', _⟩ := mergeInto_spec grows.wellFormed (grows.nodeCount ▸ hz)
    (grows.nodeCount ▸ hn) .internal .empty (g.boundLabel withNodeLabels n) horizon
  have both := grows.toGrows.trans grows'.toGrows
  refine ⟨grows'.wellFormed, both, ?_⟩
  have label : (g.boundNode z horizon (g.boundLabel withNodeLabels n) n).boundLabel withNodeLabels
      n = g.boundLabel withNodeLabels n := both.boundLabel n
  unfold Bounds
  rw [label]
  constructor
  · exact grows'.toGrows.covers ⟨_, joined, LabeledEdge.merge_covers_self _ _ _ (by decide)⟩
  · exact ⟨_, joined', LabeledEdge.merge_covers_self _ _ _ finite⟩

theorem addBounds_spec (wf : g.WellFormed) (hz : z < g.nodeCount) (horizon : Value)
    (finite : horizon ≠ Value.posInf) (withNodeLabels : Bool) :
    (g.addBounds z horizon withNodeLabels).WellFormed ∧
      g.Grows (g.addBounds z horizon withNodeLabels) ∧
      ∀ n < g.nodeCount, n ≠ z → (g.addBounds z horizon withNodeLabels).Bounds withNodeLabels z
        horizon n := by
  have all : ∀ (ns : List NodeId) (h : LabeledNetwork), h.WellFormed → z < h.nodeCount →
      (∀ n ∈ ns, n < h.nodeCount) →
      let k := ns.foldl (fun g n => g.boundNode z horizon (g.boundLabel withNodeLabels n) n) h
      k.WellFormed ∧ h.Grows k ∧ ∀ n ∈ ns, k.Bounds withNodeLabels z horizon n := by
    intro ns
    induction ns with
    | nil => exact fun h wf _ _ => ⟨wf, .refl h, nofun⟩
    | cons n rest ih =>
      intro h wf hz inside
      obtain ⟨wf', grows, bounds⟩ := boundNode_spec withNodeLabels wf hz
        (inside n List.mem_cons_self) finite
      obtain ⟨wf'', grows', bounds'⟩ := ih _ wf' (grows.nodeCount ▸ hz)
        fun m mem => grows.nodeCount ▸ inside m (List.mem_cons_of_mem n mem)
      refine ⟨wf'', grows.trans grows', fun m mem => ?_⟩
      rcases List.mem_cons.mp mem with rfl | mem
      · exact grows'.bounds bounds
      · exact bounds' m mem
  obtain ⟨wf', grows, bounds⟩ := all (g.nodeIds.filter fun n => n != z) g wf hz
    (fun n mem => List.mem_range.mp (List.mem_filter.mp mem).1)
  refine ⟨wf', grows, fun n hn other => bounds n ?_⟩
  exact List.mem_filter.mpr ⟨List.mem_range.mpr hn, by simpa using other⟩

theorem maxWeight_nonneg (g : LabeledNetwork) : 0 ≤ g.maxWeight := by
  unfold maxWeight
  cases largest : ((g.allValues.filter fun v => v < 0 ∧ Value.IsFinite v).map fun v => -v).max? with
  | none => exact le_rfl
  | some w =>
    obtain ⟨mem, _⟩ := List.max?_eq_some_iff.mp largest
    obtain ⟨v, kept, rfl⟩ := List.mem_map.mp mem
    have negative := of_decide_eq_true (List.mem_filter.mp kept).2
    exact Int.neg_nonneg_of_nonpos (le_of_lt negative.1)

/-- The largest weight bounds every negative value, upper-case values included. -/
theorem neg_le_maxWeight_of_mem {u v : NodeId} {e : LabeledEdge} {x : CaseLabel × Label × Value}
    (joined : g.edgeBetween? u v = some e) (mem : x ∈ e.allValues) (negative : x.2.2 < 0)
    (finite : Value.IsFinite x.2.2) : -x.2.2 ≤ g.maxWeight := by
  obtain ⟨i, found, stored⟩ := Option.bind_eq_some_iff.mp joined
  obtain ⟨slot, here, rfl⟩ := Option.map_eq_some_iff.mp stored
  have listed : x.2.2 ∈ g.allValues := by
    refine List.mem_flatMap.mpr ⟨i, mem_edgeIds.mpr (by simp [here]), ?_⟩
    rw [stored]
    exact List.mem_map.mpr ⟨x, mem, rfl⟩
  have weighed : -x.2.2 ∈ (g.allValues.filter fun v => v < 0 ∧ Value.IsFinite v).map fun v => -v :=
    List.mem_map.mpr ⟨_, List.mem_filter.mpr ⟨listed, decide_eq_true ⟨negative, finite⟩⟩, rfl⟩
  unfold maxWeight
  cases largest : ((g.allValues.filter fun v => v < 0 ∧ Value.IsFinite v).map fun v => -v).max? with
  | none =>
    rw [List.max?_eq_none_iff.mp largest] at weighed
    cases weighed
  | some m => exact (List.max?_eq_some_iff.mp largest).2 _ weighed

theorem neg_le_maxWeight {u v : NodeId} {e : LabeledEdge} {l : Label} {w : Value}
    (joined : g.edgeBetween? u v = some e) (mem : (l, w) ∈ e.values.entries) (negative : w < 0)
    (finite : Value.IsFinite w) : -w ≤ g.maxWeight :=
  neg_le_maxWeight_of_mem (x := (.empty, l, w)) joined
    (List.mem_append_left _ (List.mem_map.mpr ⟨(l, w), mem, rfl⟩)) negative finite

theorem maxWeight_le {w : Int} (nonneg : 0 ≤ w) (bounds : ∀ e edge, g.edge? e = some edge →
    ∀ x ∈ edge.allValues, x.2.2 < 0 → Value.IsFinite x.2.2 → -x.2.2 ≤ w) : g.maxWeight ≤ w := by
  unfold maxWeight
  cases largest : ((g.allValues.filter fun v => v < 0 ∧ Value.IsFinite v).map fun v => -v).max? with
  | none => exact nonneg
  | some m =>
    obtain ⟨v, kept, rfl⟩ := List.mem_map.mp (List.max?_eq_some_iff.mp largest).1
    obtain ⟨listed, chosen⟩ := List.mem_filter.mp kept
    obtain ⟨negative, finite⟩ := of_decide_eq_true chosen
    obtain ⟨e, _, mem⟩ := List.mem_flatMap.mp listed
    cases stored : g.edge? e with
    | none =>
      rw [stored] at mem
      cases mem
    | some edge =>
      rw [stored] at mem
      obtain ⟨x, here, rfl⟩ := List.mem_map.mp mem
      exact bounds e edge stored x here negative finite

theorem horizon?_spec {h : Horizon} (known : g.horizon? = .ok h) :
    Value.IsFinite h.value ∧ h.maxWeight = g.maxWeight ∧
      h.value = h.maxWeight * g.nodeCount := by
  unfold horizon? at known
  dsimp only at known
  split at known
  · rename_i finite
    cases known
    exact ⟨finite, rfl, rfl⟩
  · cases known

end Network

namespace CstnChecker

variable {withNodeLabels : Bool} {I : LabeledNetwork → Prop} {d : Draft LabeledEdge}

/-- What the preparation for the consistency check ends with: the repaired network, in which the
horizon is known, with the bounds of the nodes. -/
theorem prepare_ends (kept : WellDefined.Kept withNodeLabels I) (wf : d.network.WellFormed)
    (holds : I d.network) :
    Ends (prepare withNodeLabels) d
      (fun r d' => ∃ g : LabeledNetwork, I g ∧ g.WellFormed ∧ r.1 < g.nodeCount ∧
        g.UniqueObservers ∧ r.1 = d.network.reference ∧ (withNodeLabels = false → g.Known) ∧
        g.horizon? = .ok r.2 ∧ d'.network = g.addBounds r.1 r.2.value withNodeLabels)
      (fun _ _ => True) := by
  unfold prepare
  refine (WellDefined.prepare_ends (kept.and WellDefined.kept_wellFormed) ⟨holds, wf⟩).bind
    fun z d₁ prepared => ?_
  obtain ⟨⟨holds₁, wf₁⟩, hz, unique, isReference, known⟩ := prepared
  rw [ends_bind, Preparation.ends_network]
  split
  · exact trivial
  · split
    · exact trivial
    · rename_i horizon computed
      rw [ends_bind, Preparation.ends_modifyNetwork]
      exact ⟨d₁.network, holds₁, wf₁, hz, unique, isReference, known, computed, rfl⟩

theorem prepare_of_initialise {g : LabeledNetwork} {options : CheckerOptions} {rules : RuleSet}
    {c : CstnChecker} (ready : (ofNetwork g options rules).initialise = (c, .ok ())) :
    ∃ z horizon d, (prepare options.withNodeLabels).run ⟨g, []⟩ = .ok (z, horizon) d ∧
      c = ⟨d.network, options, rules, .initialised, { CheckStatus.fresh with fixes := d.fixes },
        some z, some horizon⟩ := by
  rw [initialise, if_neg (by simp [ofNetwork])] at ready
  cases run : (prepare options.withNodeLabels).run ⟨g, []⟩ with
  | ok r d =>
    obtain ⟨z, horizon⟩ := r
    have run' : (prepare (ofNetwork g options rules).options.withNodeLabels).run
      ⟨(ofNetwork g options rules).network, (ofNetwork g options rules).status.fixes⟩ = _ := run
    rw [run'] at ready
    exact ⟨z, horizon, d, rfl, (congrArg Prod.fst ready).symm⟩
  | error e d =>
    have run' : (prepare (ofNetwork g options rules).options.withNodeLabels).run
      ⟨(ofNetwork g options rules).network, (ofNetwork g options rules).status.fixes⟩ = _ := run
    rw [run'] at ready
    cases congrArg Prod.snd ready

end CstnChecker

namespace ContingentLink

open Preparation

/-- Every link is entered in the network under its contingent node. -/
def Entered (links : List ContingentLink) (g : LabeledNetwork) : Prop :=
  ∀ link ∈ links, g.activation? link.contingent = some link.activation

/-- Properties of networks that setting up the links keeps. -/
structure Kept (I : LabeledNetwork → Prop) : Prop where
  modifyEdge : ∀ g e f, I g → I (g.modifyEdge e f)
  modifyNode : ∀ g n letter, I g → I (g.modifyNode n fun node =>
    { node with contingent := true, letter := letter })
  setActivation : ∀ g contingent activation, I g → I (g.setActivation contingent activation)

variable {I J : LabeledNetwork → Prop} {d : Draft LabeledEdge} {links : List ContingentLink}

theorem Kept.and (first : Kept I) (second : Kept J) : Kept fun g => I g ∧ J g where
  modifyEdge g e f h := ⟨first.modifyEdge g e f h.1, second.modifyEdge g e f h.2⟩
  modifyNode g n letter h := ⟨first.modifyNode g n letter h.1, second.modifyNode g n letter h.2⟩
  setActivation g contingent activation h :=
    ⟨first.setActivation g contingent activation h.1, second.setActivation g contingent activation h.2⟩

theorem kept_wellFormed : Kept Network.WellFormed where
  modifyEdge _ e f wf := wf.modifyEdge e f
  modifyNode _ n _ wf := wf.modifyNode n _
  setActivation _ contingent activation wf := wf.setActivation contingent activation

theorem kept_nodeCount (n : Nat) : Kept fun g => n < g.nodeCount where
  modifyEdge _ _ _ h := h
  modifyNode _ _ _ h := by simpa [Network.nodeCount, Network.modifyNode] using h
  setActivation _ _ _ h := h

theorem activation?_setActivation (g : LabeledNetwork) (contingent activation n : NodeId) :
    (g.setActivation contingent activation).activation? n =
      if n = contingent then some activation else g.activation? n := by
  simp only [Network.activation?, Network.setActivation, List.find?_cons]
  by_cases same : contingent = n
  · simp [same]
  · have apart : (contingent == n) = false := by simpa using same
    have others : (fun a : NodeId × NodeId =>
        decide ((a.1 != contingent) = true ∧ (a.1 == n) = true)) = fun a => a.1 == n := by
      funext a
      by_cases key : a.1 = n
      · have other : a.1 ≠ contingent := fun h => same (h.symm.trans key)
        simp [key, key ▸ other]
      · simp [key]
    rw [apart, if_neg (Ne.symm same), List.find?_filter, others]

/-- The first value of an edge. -/
def FirstValue (g : LabeledNetwork) (e : EdgeId) (v : Label × Value) : Prop :=
  ∃ edge, g.edge? e = some edge ∧ edge.values.entries.head? = some v

/-- The network with the case values of a link on its two edges. -/
def withCaseValues (g : LabeledNetwork) (forward backward : EdgeId) (letter : CaseLetter)
    (label : Label) (lower upper : Value) : LabeledNetwork :=
  (g.modifyEdge forward fun edge => { edge with lower := some ⟨letter, label, lower⟩ }).modifyEdge
    backward fun edge => (edge.merge (.ofLetter letter) label (-upper)).1

/-- The network with a link entered under its contingent node. -/
def enter (g : LabeledNetwork) (activation contingent : NodeId) (letter : CaseLetter) :
    LabeledNetwork :=
  (g.modifyNode contingent fun n => { n with contingent := true, letter := some letter }).setActivation
    contingent activation

/-- What becomes of the links, the letters in use and the network when a contingent edge is treated: the
edge gives a link, or is left to its companion. -/
inductive Treated (g : LabeledNetwork) (links : List ContingentLink) (used : CaseLabel) (e : EdgeId) :
    List ContingentLink × CaseLabel → LabeledNetwork → Prop
  | absent (unstored : g.slot? e = none) : Treated g links used e (links, used) g
  | behind {slot : EdgeSlot LabeledEdge} {companion : EdgeId} {label label' : Label}
    {value value' : Value} (stored : g.slot? e = some slot)
    (paired : companion? g slot.source slot.target = some companion)
    (first : FirstValue g e (label, value)) (second : FirstValue g companion (label', value'))
    (negative : value < 0) (positive : 0 < value') : Treated g links used e (links, used) g
  | ahead {slot : EdgeSlot LabeledEdge} {companion : EdgeId} {label label' : Label}
    {value value' : Value} {letter : CaseLetter} (stored : g.slot? e = some slot)
    (paired : companion? g slot.source slot.target = some companion)
    (first : FirstValue g e (label, value)) (second : FirstValue g companion (label', value'))
    (positive : 0 < -value') (range : -value' < value)
    (free : (g.activation? slot.target).filter (· != slot.source) = none)
    (chosen : chooseLetter links used (g.nodeD slot.target).letter = some letter)
    (agrees : ∀ edge low, g.edge? e = some edge → edge.lower = some low →
      low = ⟨letter, label, -value'⟩) :
    Treated g links used e
      (links ++ [⟨slot.source, slot.target, letter, label, -value', value⟩],
        used ∪ CaseLabel.ofLetter letter)
      (enter (withCaseValues g e companion letter label (-value') value) slot.source slot.target letter)

theorem rawValue_ends (e : EdgeId) :
    Ends (rawValue e) d (fun v d' => d' = d ∧ FirstValue d.network e v) fun _ _ => True := by
  unfold rawValue
  rw [ends_bind, ends_network]
  split
  · rename_i v read
    obtain ⟨edge, stored, first⟩ := Option.bind_eq_some_iff.mp read
    exact ⟨rfl, edge, stored, first⟩
  · exact trivial

theorem storeCaseValues_ends (forward backward : EdgeId) (letter : CaseLetter) (label : Label)
    (lower upper : Value) :
    Ends (storeCaseValues forward backward letter label lower upper) d
      (fun _ d' => d'.network = withCaseValues d.network forward backward letter label lower upper ∧
        ∀ edge low, d.network.edge? forward = some edge → edge.lower = some low →
          low = ⟨letter, label, lower⟩) fun _ _ => True := by
  unfold storeCaseValues
  rw [ends_bind, ends_network]
  refine negate_ends.bind ?_
  rintro _ _ ⟨rfl, rfl⟩
  dsimp only
  split
  · exact trivial
  · rename_i agrees
    rw [Bool.not_eq_true, Bool.or_eq_false_iff] at agrees
    rw [ends_bind, ends_modifyNetwork, ends_modifyNetwork]
    refine ⟨rfl, fun edge low stored present => ?_⟩
    rw [stored, Option.bind_some, present] at agrees
    simpa using agrees.1

theorem addLink_treated (links : List ContingentLink) (used : CaseLabel) (e : EdgeId) :
    Ends (addLink links used e) d (fun r d' => Treated d.network links used e r d'.network)
      fun _ _ => True := by
  unfold addLink
  rw [ends_bind, ends_network]
  cases stored : d.network.slot? e with
  | none => exact .absent stored
  | some slot =>
    obtain ⟨name, source, target, payload⟩ := slot
    dsimp only
    split
    · exact trivial
    rename_i companion paired
    refine (rawValue_ends e).bind ?_
    rintro ⟨label, value⟩ _ ⟨rfl, first⟩
    refine (rawValue_ends companion).bind ?_
    rintro ⟨label', value'⟩ _ ⟨rfl, second⟩
    dsimp only
    split
    · exact trivial
    rename_i nonzero
    rw [not_or] at nonzero
    split
    · rename_i negative
      split
      · exact negate_ends.bind fun _ _ _ => trivial
      · rename_i positive
        exact .behind stored paired first second negative
          (lt_of_le_of_ne (not_lt.mp positive) (Ne.symm nonzero.2))
    refine negate_ends.bind ?_
    rintro _ _ ⟨rfl, rfl⟩
    split
    · exact trivial
    rename_i valid
    rw [not_or, not_le, not_le] at valid
    split
    · exact nodeName_ends.bind fun _ _ _ => trivial
    rename_i free
    split
    · exact trivial
    rename_i letter chosen
    refine (storeCaseValues_ends e companion letter label (-value') value).bind ?_
    rintro _ d₁ ⟨same, agrees⟩
    rw [ends_bind, ends_modifyNetwork, ends_bind, ends_modifyNetwork, ends_pure]
    dsimp only
    rw [same]
    exact .ahead stored paired first second valid.1 valid.2 (by simpa using free) chosen agrees

/-- An invariant of the edges still to come, the links and the network, kept whenever an edge is treated,
holds of the links in the end. -/
theorem prepareAll_induct {I : List EdgeId → List ContingentLink → CaseLabel → LabeledNetwork → Prop}
    (step : ∀ e rest links used g r h, I (e :: rest) links used g → Treated g links used e r h →
      I rest r.1 r.2 h)
    (start : I d.network.contingentEdges [] (usedLetters d.network) d.network) :
    Ends prepareAll d (fun links d' => ∃ used, I [] links used d'.network) fun _ _ => True := by
  unfold prepareAll
  rw [ends_bind, ends_network]
  refine Ends.bind (ends_foldlM (fun todo (r : List ContingentLink × CaseLabel)
    (d' : Draft LabeledEdge) => I todo r.1 r.2 d'.network) ?_ _ _ _ start) fun r _ done => ⟨r.2, done⟩
  rintro e rest ⟨links, used⟩ d' holds
  exact (addLink_treated links used e).mono (fun r d'' treated => step _ _ _ _ _ _ _ holds treated)
    fun _ _ => id

theorem Kept.treated (kept : Kept I) {g h : LabeledNetwork} {used : CaseLabel} {e : EdgeId}
    {r : List ContingentLink × CaseLabel} (treated : Treated g links used e r h) (holds : I g) : I h := by
  cases treated with
  | absent => exact holds
  | behind => exact holds
  | ahead =>
    refine kept.setActivation _ _ _ (kept.modifyNode _ _ _ ?_)
    exact kept.modifyEdge _ _ _ (kept.modifyEdge _ _ _ holds)

/-- A new link keeps the entries of the others: its contingent node has no other activation node. -/
theorem Entered.append {g h : LabeledNetwork} (entered : Entered links g) {link : ContingentLink}
    (free : ((g.activation? link.contingent).filter (· != link.activation)) = none)
    (set : ∀ n, h.activation? n =
      if n = link.contingent then some link.activation else g.activation? n) :
    Entered (links ++ [link]) h := by
  intro other mem
  rw [set]
  split
  · rename_i same
    rcases List.mem_append.mp mem with mem | mem
    · have known := entered other mem
      rw [same] at known
      have starts := Option.filter_eq_none_iff.mp free other.activation known
      have agree : other.activation = link.activation := by simpa using starts
      exact congrArg some agree.symm
    · rw [List.mem_singleton.mp mem]
  · rename_i apart
    rcases List.mem_append.mp mem with mem | mem
    · exact entered other mem
    · exact absurd (congrArg contingent (List.mem_singleton.mp mem)) apart

/-- A contingent node with a link has its activation node already, so a second link that starts
elsewhere is refused. -/
theorem Entered.treated {g h : LabeledNetwork} {used : CaseLabel} {e : EdgeId}
    {r : List ContingentLink × CaseLabel} (treated : Treated g links used e r h)
    (entered : Entered links g) : Entered r.1 h := by
  cases treated with
  | absent => exact entered
  | behind => exact entered
  | ahead _ _ _ _ _ _ free => exact entered.append free fun n => activation?_setActivation _ _ _ n

theorem prepareAll_ends (kept : Kept I) (holds : I d.network) :
    Ends prepareAll d (fun links d' => I d'.network ∧ Entered links d'.network)
      (fun _ _ => True) := by
  refine (prepareAll_induct (I := fun _ links _ g => I g ∧ Entered links g) ?_ ⟨holds, nofun⟩).mono
    (fun _ _ ⟨_, done⟩ => done) fun _ _ => id
  rintro e rest links used g r h ⟨holds', entered⟩ treated
  exact ⟨kept.treated treated holds', entered.treated treated⟩

end ContingentLink

/-- What the preparation for the controllability check ends with: the links are set up in the
repaired network, and the nodes bounded. -/
theorem CstnuChecker.prepare_ends {withNodeLabels : Bool} {I : LabeledNetwork → Prop}
    {d : Draft LabeledEdge} (kept : WellDefined.Kept withNodeLabels I)
    (kept' : ContingentLink.Kept I) (wf : d.network.WellFormed) (holds : I d.network) :
    Ends (prepare withNodeLabels) d
      (fun r d' => ∃ g : LabeledNetwork, I g ∧ g.WellFormed ∧ r.1 < g.nodeCount ∧
        ContingentLink.Entered r.2.1 g ∧ g.horizon? = .ok r.2.2 ∧
        d'.network = g.addBounds r.1 r.2.2.value withNodeLabels)
      (fun _ _ => True) := by
  unfold prepare
  refine (WellDefined.prepare_ends (kept.and WellDefined.kept_wellFormed) ⟨holds, wf⟩).bind
    fun z d₁ prepared => ?_
  obtain ⟨⟨holds₁, wf₁⟩, hz, _⟩ := prepared
  refine (ContingentLink.prepareAll_ends ((kept'.and ContingentLink.kept_wellFormed).and
    (ContingentLink.kept_nodeCount z)) ⟨⟨holds₁, wf₁⟩, hz⟩).bind fun links d₂ linked => ?_
  obtain ⟨⟨⟨holds₂, wf₂⟩, hz₂⟩, entered⟩ := linked
  rw [ends_bind, Preparation.ends_network]
  split
  · exact trivial
  · rename_i horizon known
    rw [ends_bind, Preparation.ends_modifyNetwork]
    exact ⟨d₂.network, holds₂, wf₂, hz₂, entered, known, rfl⟩

theorem CstnuChecker.prepare_of_initialise {g : LabeledNetwork} {options : CheckerOptions}
    {c : CstnuChecker} (ready : (ofNetwork g options).initialise = (c, .ok ())) :
    ∃ z links horizon d,
      (prepare options.withNodeLabels).run ⟨g, []⟩ = .ok (z, links, horizon) d ∧
      c = ⟨d.network, options, .initialised, { CheckStatus.fresh with fixes := d.fixes },
        some z, some horizon, links⟩ := by
  rw [initialise, if_neg (by simp [ofNetwork])] at ready
  cases run : (prepare options.withNodeLabels).run ⟨g, []⟩ with
  | ok r d =>
    obtain ⟨z, links, horizon⟩ := r
    have run' : (prepare (ofNetwork g options).options.withNodeLabels).run
      ⟨(ofNetwork g options).network, (ofNetwork g options).status.fixes⟩ = _ := run
    rw [run'] at ready
    exact ⟨z, links, horizon, d, rfl, (congrArg Prod.fst ready).symm⟩
  | error e d =>
    have run' : (prepare (ofNetwork g options).options.withNodeLabels).run
      ⟨(ofNetwork g options).network, (ofNetwork g options).status.fixes⟩ = _ := run
    rw [run'] at ready
    cases congrArg Prod.snd ready

end TemporalNetwork
