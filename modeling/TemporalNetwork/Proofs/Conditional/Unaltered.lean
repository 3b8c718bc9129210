import TemporalNetwork.Proofs.Conditional.EveryValue
import TemporalNetwork.Proofs.Conditional.Projection
import TemporalNetwork.Proofs.Conditional.Screening

/-!
Preparing a network without labels. Nothing in it has to be repaired: its edges stay as they are, and at
most the reference node is added.
-/

namespace TemporalNetwork

/-- `h` has the edges and the reference node of `g`, and nodes without labels. -/
structure Network.Unaltered (withNodeLabels : Bool) (g h : LabeledNetwork) : Prop where
  slots : h.slots = g.slots
  found : ∀ u v, h.findEdge? u v = g.findEdge? u v
  nodeCount_le : g.nodeCount ≤ h.nodeCount
  unlabelled : h.Unlabelled withNodeLabels
  z : ∀ n, g.z = some n → h.z = some n

theorem Network.reference_of_z {g : LabeledNetwork} {n : NodeId} (set : g.z = some n) :
    g.reference = n := by
  rw [reference, set]
  rfl

theorem Network.reference_mergeInto (g : LabeledNetwork) (kind : ConstraintKind) (u v : NodeId)
    (case : CaseLabel) (label : Label) (value : Value) :
    (g.mergeInto kind u v case label value).1.reference = g.reference := by
  obtain ⟨z, nodes⟩ := mergeInto_frame g kind u v case label value
  unfold reference findNode? nodeCount
  rw [z, nodes]

namespace Network.Unaltered

variable {withNodeLabels : Bool} {g h k : LabeledNetwork}

theorem refl (unlabelled : g.Unlabelled withNodeLabels) : g.Unaltered withNodeLabels g :=
  ⟨rfl, fun _ _ => rfl, le_rfl, unlabelled, fun _ => id⟩

theorem trans (first : g.Unaltered withNodeLabels h) (second : h.Unaltered withNodeLabels k) :
    g.Unaltered withNodeLabels k :=
  ⟨second.slots.trans first.slots, fun u v => (second.found u v).trans (first.found u v),
    first.nodeCount_le.trans second.nodeCount_le, second.unlabelled,
    fun n present => second.z n (first.z n present)⟩

theorem slot? (unaltered : g.Unaltered withNodeLabels h) (e : EdgeId) : h.slot? e = g.slot? e := by
  rw [Network.slot?, unaltered.slots, Network.slot?]

theorem edgeBetween? (unaltered : g.Unaltered withNodeLabels h) (u v : NodeId) :
    h.edgeBetween? u v = g.edgeBetween? u v := by
  have stored : h.edge? = g.edge? := by
    funext e
    rw [Network.edge?, unaltered.slot?, Network.edge?]
  rw [Network.edgeBetween?, unaltered.found, stored, Network.edgeBetween?]

end Network.Unaltered

namespace WellDefined

open Preparation

variable {withNodeLabels : Bool} {d : Draft LabeledEdge} {g : LabeledNetwork}

theorem ensureZ_unaltered (unlabelled : d.network.Unlabelled withNodeLabels)
    (wf : d.network.WellFormed) :
    Ends ensureZ d (fun z d' => d.network.Unaltered withNodeLabels d'.network ∧ d'.network.z = some z)
      fun _ _ => True := by
  unfold ensureZ
  rw [ends_bind, ends_network]
  split
  · rename_i z present
    refine ⟨⟨rfl, fun _ _ => rfl, le_rfl, unlabelled.of_nodes rfl, fun n set => ?_⟩, rfl⟩
    rw [set] at present
    exact present.symm
  · rename_i absent
    have unset : d.network.z = none := by
      cases set : d.network.z with
      | none => rfl
      | some n =>
        rw [set] at absent
        cases absent
    rw [ends_bind, ends_noteFix, ends_bind, ends_modifyNetwork, ends_bind, ends_modifyNetwork,
      ends_pure]
    dsimp only
    refine ⟨?_, rfl⟩
    -- A new Z has no label, and no edge enters or leaves it.
    cases added : d.network.addNode (Node.named "Z") with
    | none =>
      exact ⟨rfl, fun _ _ => rfl, le_rfl, unlabelled.of_nodes rfl, fun n set => by
        rw [unset] at set
        cases set⟩
    | some result =>
      obtain ⟨h, id⟩ := result
      have found := Network.findEdge?_addNode wf added
      have labels := unlabelled.addZ added
      have parts : h.slots = d.network.slots ∧ d.network.nodeCount ≤ h.nodeCount := by
        unfold Network.addNode at added
        split at added
        · cases added
        · cases added
          exact ⟨rfl, (Nat.le_succ _).trans_eq (Array.size_push _).symm⟩
      exact ⟨parts.1, found, parts.2, labels.of_nodes rfl, fun n set => by
        rw [unset] at set
        cases set⟩

theorem clearZLabel_unaltered (unlabelled : d.network.Unlabelled withNodeLabels) (z : NodeId) :
    Ends (clearZLabel z) d (fun _ d' => d.network.Unaltered withNodeLabels d'.network)
      fun _ _ => True := by
  unfold clearZLabel
  rw [ends_bind, ends_network]
  cases d.network.node? z with
  | none => exact trivial
  | some node =>
    dsimp only
    split
    · rw [ends_bind, ends_noteFix, ends_modifyNetwork]
      have count : d.network.nodeCount =
          (d.network.modifyNode z fun node => { node with label := .empty }).nodeCount := by
        simp [Network.nodeCount, Network.modifyNode]
      exact ⟨rfl, fun _ _ => rfl, count.le, unlabelled.clear z, fun _ => id⟩
    · exact .refl unlabelled

theorem labelRepair_empty (unlabelled : g.Unlabelled withNodeLabels) (u v : NodeId) :
    g.labelRepair withNodeLabels u v .empty = .keep := by
  have absent : ∀ p, Label.empty.mentions p ≠ true := fun p => by
    rw [Label.mentions_eq, Label.state_empty]
    exact Bool.false_ne_true
  cases withNodeLabels with
  | false => exact Network.labelRepair_of_grounded ⟨rfl, fun p mentioned => (absent p mentioned).elim⟩
  | true =>
    have general : ∀ n, Label.empty.subsumes (g.nodeD n).label = true := fun n => by
      rw [unlabelled rfl n]
      rfl
    exact Network.labelRepair_eq_keep_iff.mpr
      ⟨rfl, general u, general v, fun p mentioned => (absent p mentioned).elim⟩

theorem repairEdges_idle (unlabelled : d.network.Unlabelled withNodeLabels) (z : NodeId)
    (labelless : ∀ e slot, d.network.slot? e = some slot →
      slot.payload.EveryValue fun _ l _ => l = .empty) :
    Ends (do
      (← network).edgeIds.forM (repairEdge withNodeLabels)
      return z) d (fun z' d' => z' = z ∧ d' = d) fun _ _ => True := by
  have keeps : ∀ e slot, d.network.slot? e = some slot → slot.payload.EveryValue fun _ l _ =>
      d.network.labelRepair withNodeLabels slot.source slot.target l = .keep := by
    intro e slot stored c l w mem
    rw [labelless e slot stored c l w mem]
    exact labelRepair_empty unlabelled slot.source slot.target
  rw [ends_bind, ends_network]
  exact (ends_forM (fun _ (d' : Draft LabeledEdge) => d' = d)
    (fun e _ _ same => same ▸ (repairEdge_idle keeps e).mono (fun _ _ => id) nofun) _ _ rfl).bind
    fun _ _ same => ⟨rfl, same⟩

theorem prepare_unaltered (unlabelled : d.network.Unlabelled withNodeLabels)
    (wf : d.network.WellFormed) (labelless : d.network.EveryValue fun _ _ _ l _ => l = .empty) :
    Ends (prepare withNodeLabels) d (fun z d' => d.network.Unaltered withNodeLabels d'.network ∧
      d'.network.z = some z) fun _ _ => True := by
  unfold prepare
  refine (ensureZ_unaltered unlabelled wf).bind fun z d₁ prepared => ?_
  obtain ⟨first, set⟩ := prepared
  refine (clearZLabel_unaltered first.unlabelled z).bind fun _ d₂ second => ?_
  rw [ends_bind, ends_network]
  refine (failIf_ends d₂.network.duplicateObserver?).bind fun _ d₃ checked => ?_
  obtain ⟨rfl, _⟩ := checked
  have both := first.trans second
  have known : ∀ e slot, d₃.network.slot? e = some slot →
      slot.payload.EveryValue fun _ l _ => l = .empty := by
    intro e slot stored
    rw [both.slot?] at stored
    exact labelless slot.source slot.target _
      (wf.edgeBetween?_eq_some_iff.mpr ⟨e, slot, stored, rfl, rfl, rfl⟩)
  -- Without labels there is nothing to be repaired.
  have repaired : Ends _ d₃ (fun z' d' => d.network.Unaltered withNodeLabels d'.network ∧
      d'.network.z = some z') fun _ _ => True :=
    (repairEdges_idle second.unlabelled z known).mono (fun z' d' ⟨same, same'⟩ => by
      rw [same, same']
      exact ⟨both, second.z z set⟩) fun _ _ => id
  cases withNodeLabels with
  | false => exact repaired
  | true =>
    rw [if_pos rfl, ends_bind, ends_network]
    refine (ends_forM (fun _ (d' : Draft LabeledEdge) => d' = d₃)
      (fun n _ _ same => same ▸ closeNodeLabel_of_unlabelled second.unlabelled n) _ _ rfl).bind
      fun _ d₄ same => ?_
    subst same
    rw [ends_bind, ends_network]
    refine (failIf_ends _).bind fun _ d₅ checked => ?_
    obtain ⟨rfl, _⟩ := checked
    exact repaired

end WellDefined

namespace CstnChecker

variable {withNodeLabels : Bool} {d : Draft LabeledEdge} {g : LabeledNetwork}
  {options : CheckerOptions} {rules : RuleSet} {c : CstnChecker}

/-- What the preparation for the consistency check leaves of a network without labels: the network and
the bounds of its nodes. -/
theorem prepare_unaltered (unlabelled : d.network.Unlabelled withNodeLabels)
    (wf : d.network.WellFormed) (labelless : d.network.EveryValue fun _ _ _ l _ => l = .empty) :
    Ends (prepare withNodeLabels) d
      (fun r d' => ∃ h : LabeledNetwork, d.network.Unaltered withNodeLabels h ∧ h.WellFormed ∧
        h.reference = r.1 ∧ r.1 < h.nodeCount ∧ r.1 = d.network.reference ∧
        h.horizon? = .ok r.2 ∧ d'.network = h.addBounds r.1 r.2.value withNodeLabels)
      fun _ _ => True := by
  unfold prepare
  have repaired := (WellDefined.prepare_unaltered unlabelled wf labelless).and
    (WellDefined.prepare_ends (I := Network.WellFormed) WellDefined.kept_wellFormed wf)
  refine (repaired.mono (fun _ _ => id) fun _ _ _ => trivial).bind ?_
  rintro z d₁ ⟨⟨unaltered, set⟩, wf₁, inside, _, isReference, _⟩
  rw [ends_bind, Preparation.ends_network]
  split
  · exact trivial
  · split
    · exact trivial
    · rename_i horizon known
      rw [ends_bind, Preparation.ends_modifyNetwork]
      exact ⟨d₁.network, unaltered, wf₁, Network.reference_of_z set, inside, isReference, known,
        rfl⟩

theorem initialise_unaltered (wf : g.WellFormed) (unlabelled : g.Unlabelled options.withNodeLabels)
    (labelless : g.EveryValue fun _ _ _ l _ => l = .empty)
    (ready : (ofNetwork g options rules).initialise = (c, .ok ())) :
    ∃ (h : LabeledNetwork) (horizon : Horizon), g.Unaltered options.withNodeLabels h ∧
      h.WellFormed ∧ h.reference = g.reference ∧ g.reference < h.nodeCount ∧
      h.horizon? = .ok horizon ∧
      c.z = some g.reference ∧ c.horizon = some horizon ∧ c.options = options ∧ c.rules = rules ∧
      c.network = h.addBounds g.reference horizon.value options.withNodeLabels := by
  obtain ⟨z, horizon, d, run, rfl⟩ := prepare_of_initialise ready
  obtain ⟨h, unaltered, wf', same, inside, isReference, known, bounded⟩ :=
    (prepare_unaltered (d := ⟨g, []⟩) unlabelled wf labelless).of_ok run
  dsimp only at same isReference inside bounded
  subst isReference
  exact ⟨h, horizon, unaltered, wf', same, inside, known, rfl, rfl, rfl, rfl, bounded⟩

end CstnChecker

end TemporalNetwork
