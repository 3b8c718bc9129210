import TemporalNetwork.Proofs.Conditional.EveryValue
import TemporalNetwork.Proofs.Conditional.WellDefined

/-!
Screening: the preparation of a network leaves no value whose label has an unknown literal or a
proposition that nobody observes, and brings none.
-/

namespace TemporalNetwork

/-- Whether the label has no unknown literals and mentions observed propositions only. -/
structure Network.Grounded (g : LabeledNetwork) (label : Label) : Prop where
  known : label.hasUnknown = false
  observed : ∀ p, label.mentions p = true → (g.observerLabel? p).isSome = true

/-- What is known of a network while its values are screened: its nodes are those of `base`, its values
and their letters are as in `allowed`, and a label is grounded unless its value is pending. -/
structure Network.Screened (base : LabeledNetwork) (allowed : CaseLabel → Value → Prop)
    (pending : EdgeId → CaseLabel → Label → Prop) (g : LabeledNetwork) : Prop where
  nodes : g.nodes = base.nodes
  reference : g.z = base.z
  lettered : g.Lettered
  values : ∀ e slot, g.slot? e = some slot →
    slot.payload.EveryValue fun c l w => allowed c w ∧ (base.Grounded l ∨ pending e c l)

namespace Network

variable {base g h : LabeledNetwork} {allowed : CaseLabel → Value → Prop} {u v : NodeId}
  {label : Label} {pending pending' : EdgeId → CaseLabel → Label → Prop} {e : EdgeId}

theorem Grounded.of_nodes (grounded : g.Grounded label) (same : h.nodes = g.nodes) :
    h.Grounded label :=
  ⟨grounded.known, fun p mentioned => observerLabel?_of_nodes same ▸ grounded.observed p mentioned⟩

theorem Grounded.erase (grounded : g.Grounded label) (p : Proposition) :
    g.Grounded (label.erase p) :=
  ⟨Label.hasUnknown_erase grounded.known p, fun q mentioned =>
    grounded.observed q (Label.mentions_of_subsumes (label.subsumes_erase p) mentioned)⟩

theorem Fits.grounded (fits : g.Fits u v label) : g.Grounded label := by
  refine ⟨fits.known, fun p mentioned => ?_⟩
  obtain ⟨k, observer, _⟩ := fits.closed p mentioned
  rw [observer]
  rfl

theorem grounded_of_keep {withNodeLabels : Bool}
    (keeps : g.labelRepair withNodeLabels u v label = .keep) : g.Grounded label := by
  cases withNodeLabels with
  | true => exact (labelRepair_eq_keep_iff.mp keeps).grounded
  | false =>
    unfold labelRepair at keeps
    split at keeps
    · cases keeps
    · rename_i known
      rw [if_neg Bool.false_ne_true] at keeps
      split at keeps
      · cases keeps
      · rename_i observed
        refine ⟨Bool.eq_false_iff.mpr known, fun p mentioned => ?_⟩
        have here := List.find?_eq_none.mp observed p (Label.mem_propositions.mpr mentioned)
        rwa [Bool.not_eq_true, Option.isNone_eq_false_iff] at here

theorem labelRepair_of_grounded (grounded : g.Grounded label) :
    g.labelRepair false u v label = .keep := by
  have observed : (label.propositions.toList.find? fun p => (g.observerLabel? p).isNone) = none := by
    rw [List.find?_eq_none]
    intro p mem unobserved
    rw [Option.isNone_iff_eq_none] at unobserved
    have here := grounded.observed p (Label.mem_propositions.mp mem)
    rw [unobserved] at here
    cases here
  rw [labelRepair, grounded.known, if_neg Bool.false_ne_true, if_neg Bool.false_ne_true, observed]

theorem withNodeLabels_of_relabel {withNodeLabels : Bool} {required : Label}
    (relabels : g.labelRepair withNodeLabels u v label = .relabel required) :
    withNodeLabels = true := by
  by_contra off
  rw [Bool.not_eq_true] at off
  subst off
  unfold labelRepair at relabels
  split at relabels
  · cases relabels
  · simp only [Bool.false_eq_true, if_false] at relabels
    split at relabels <;> cases relabels

theorem joinsTwins_grounded (base : LabeledNetwork) (allowed : CaseLabel → Value → Prop)
    (pending : CaseLabel → Label → Prop) :
    JoinsTwins (fun c l w => allowed c w ∧ (base.Grounded l ∨ pending c l))
      fun c l w => allowed c w ∧ base.Grounded l where
  stored _ _ _ new := ⟨new.1, Or.inl new.2⟩
  joined _ _ _ x _ new _ twin :=
    ⟨max_rec (fun _ => new.1) fun _ => twin.1, new.2.erase x.proposition⟩

theorem slot?_of_modifyEdge {f : LabeledEdge → LabeledEdge} {i : EdgeId}
    {slot : EdgeSlot LabeledEdge} (stored : (g.modifyEdge e f).slot? i = some slot) :
    ∃ old, g.slot? i = some old ∧
      slot = { old with payload := if e = i then f old.payload else old.payload } := by
  rw [slot?_modifyEdge] at stored
  split at stored
  · rename_i same
    obtain ⟨old, here, rfl⟩ := Option.map_eq_some_iff.mp stored
    exact ⟨old, here, by rw [if_pos same]⟩
  · rename_i other
    exact ⟨slot, stored, by rw [if_neg other]⟩

namespace Screened

theorem mono (screened : Screened base allowed pending g)
    (more : ∀ i slot c l w, g.slot? i = some slot → (c, l, w) ∈ slot.payload.allValues →
      pending i c l → base.Grounded l ∨ pending' i c l) : Screened base allowed pending' g :=
  { screened with
    values := fun i slot stored c l w mem => by
      obtain ⟨restricted, grounded | waiting⟩ := screened.values i slot stored c l w mem
      · exact ⟨restricted, Or.inl grounded⟩
      · exact ⟨restricted, more i slot c l w stored mem waiting⟩ }

theorem modifyEdge (screened : Screened base allowed pending g) {f : LabeledEdge → LabeledEdge}
    (letters : ∀ edge : LabeledEdge, edge.upper.Lettered → (f edge).upper.Lettered)
    (here : ∀ edge : LabeledEdge, edge.upper.Lettered →
      (edge.EveryValue fun c l w => allowed c w ∧ (base.Grounded l ∨ pending e c l)) →
      (f edge).EveryValue fun c l w => allowed c w ∧ (base.Grounded l ∨ pending' e c l))
    (elsewhere : ∀ i, i ≠ e → ∀ c l, pending i c l → pending' i c l) :
    Screened base allowed pending' (g.modifyEdge e f) where
  nodes := screened.nodes
  reference := screened.reference
  lettered i slot stored := by
    obtain ⟨old, stored', rfl⟩ := slot?_of_modifyEdge stored
    have lettered := screened.lettered i old stored'
    dsimp only
    split
    · exact letters old.payload lettered
    · exact lettered
  values i slot stored := by
    obtain ⟨old, stored', rfl⟩ := slot?_of_modifyEdge stored
    have values := screened.values i old stored'
    dsimp only
    split
    · rename_i same
      subst same
      exact here old.payload (screened.lettered e old stored') values
    · rename_i other
      exact values.mono fun c l w value =>
        ⟨value.1, value.2.imp_right (elsewhere i (Ne.symm other) c l)⟩

end Screened

end Network

namespace WellDefined

open Preparation

variable {withNodeLabels : Bool} {base : LabeledNetwork} {allowed : CaseLabel → Value → Prop}
  {pending : EdgeId → CaseLabel → Label → Prop} {d : Draft LabeledEdge}

/-- After its repair a value is grounded or gone. -/
theorem repairValue_screens (known : withNodeLabels = true → base.KnownNodes)
    (screened : Network.Screened base allowed pending d.network) (e : EdgeId) {case : CaseLabel}
    (label : Label) {value : Value} (restricted : allowed case value) :
    Ends (repairValue withNodeLabels e case label value) d
      (fun _ d' => Network.Screened base allowed
        (fun i c l => pending i c l ∧ ¬ (i = e ∧ c = case ∧ l = label)) d'.network)
      fun _ _ => True := by
  unfold repairValue
  rw [ends_bind, ends_network, Network.labelRepair_of_nodes screened.nodes]
  cases stored : d.network.slot? e with
  | none =>
    refine screened.mono fun i slot c l w here _ waiting => Or.inr ⟨waiting, ?_⟩
    rintro ⟨rfl, _⟩
    rw [stored] at here
    cases here
  | some slot =>
    dsimp only
    -- The value is removed, and a grounded one may come instead.
    have erased : ∀ edge : LabeledEdge, edge.upper.Lettered →
        (edge.EveryValue fun c l w => allowed c w ∧ (base.Grounded l ∨ pending e c l)) →
        (edge.erase case label).EveryValue fun c l w => allowed c w ∧ (base.Grounded l ∨
          pending e c l ∧ ¬ (e = e ∧ c = case ∧ l = label)) :=
      fun edge lettered every => (every.erase lettered case label).mono
        fun c l w kept => ⟨kept.1.1, kept.1.2.imp_right fun waiting =>
          ⟨waiting, fun gone => kept.2 gone.2⟩⟩
    have letters := fun (edge : LabeledEdge) (lettered : edge.upper.Lettered) =>
      LabeledEdge.lettered_erase lettered case label
    have elsewhere : ∀ i, i ≠ e → ∀ c l, pending i c l →
        pending i c l ∧ ¬ (i = e ∧ c = case ∧ l = label) :=
      fun i other c l waiting => ⟨waiting, fun gone => other gone.1⟩
    split
    · rename_i keeps
      have grounded := Network.grounded_of_keep keeps
      refine screened.mono fun i slot c l w _ _ waiting => ?_
      by_cases here : i = e ∧ c = case ∧ l = label
      · exact Or.inl (here.2.2 ▸ grounded)
      · exact Or.inr ⟨waiting, here⟩
    · exact trivial
    · rw [ends_bind, ends_modifyNetwork, ends_noteFix]
      exact screened.modifyEdge letters erased elsewhere
    · rw [ends_bind, ends_modifyNetwork, ends_noteFix]
      exact screened.modifyEdge letters erased elsewhere
    · rename_i required relabels
      rw [ends_bind, ends_modifyNetwork, ends_noteFix]
      have on := Network.withNodeLabels_of_relabel relabels
      subst on
      have grounded := (Network.fits_of_relabel (known rfl) relabels).grounded
      exact screened.modifyEdge
        (fun edge lettered => LabeledEdge.lettered_merge (letters edge lettered) case required value)
        (fun edge lettered every => (erased edge lettered every).merge_twins
          (Network.joinsTwins_grounded base allowed _) ⟨restricted, grounded⟩) elsewhere

theorem repairEdge_screens (known : withNodeLabels = true → base.KnownNodes) {e : EdgeId}
    {todo : List EdgeId}
    (screened : Network.Screened base allowed (fun i _ _ => i ∈ e :: todo) d.network) :
    Ends (repairEdge withNodeLabels e) d
      (fun _ d' => Network.Screened base allowed (fun i _ _ => i ∈ todo) d'.network)
      fun _ _ => True := by
  unfold repairEdge
  rw [ends_bind, ends_network]
  cases stored : d.network.slot? e with
  | none =>
    rw [Network.edge?, stored]
    refine screened.mono fun i slot c l w here _ listed => ?_
    rcases List.mem_cons.mp listed with rfl | later
    · rw [here] at stored
      cases stored
    · exact Or.inr later
  | some slot =>
    rw [Network.edge?, stored]
    -- Of this edge only the values that are still in the list may be ungrounded.
    refine (ends_forM (fun rest (d' : Draft LabeledEdge) =>
      (∀ x ∈ rest, x ∈ slot.payload.allValues) ∧ Network.Screened base allowed
        (fun i c l => i ∈ todo ∨ i = e ∧ ∃ w, (c, l, w) ∈ rest) d'.network)
      ?_ _ _ ⟨fun _ => id, ?_⟩).mono ?_ fun _ _ => id
    · rintro ⟨case, label, value⟩ rest d' ⟨listed, screened'⟩
      have restricted :=
        (screened.values e slot stored case label value (listed _ List.mem_cons_self)).1
      refine (repairValue_screens known screened' e label restricted).mono
        (fun _ _ repaired => ⟨fun x mem => listed x (List.mem_cons_of_mem _ mem), ?_⟩) fun _ _ => id
      refine repaired.mono fun i slot c l w _ _ => ?_
      rintro ⟨later | ⟨same, w', waiting⟩, kept⟩
      · exact Or.inr (Or.inl later)
      · rcases List.mem_cons.mp waiting with here | waiting
        · cases here
          exact absurd ⟨same, rfl, rfl⟩ kept
        · exact Or.inr (Or.inr ⟨same, w', waiting⟩)
    · refine screened.mono fun i slot' c l w here mem listed => ?_
      rcases List.mem_cons.mp listed with rfl | later
      · rw [stored] at here
        cases here
        exact Or.inr (Or.inr ⟨rfl, w, mem⟩)
      · exact Or.inr (Or.inl later)
    · rintro _ d' ⟨_, repaired⟩
      refine repaired.mono fun i slot c l w _ _ => ?_
      rintro (later | ⟨_, _, waiting⟩)
      · exact Or.inr later
      · cases waiting

/-- What a preparation leaves: no label needs to be repaired any more but for what the ends of its edge
ask. -/
structure Prepared (allowed : CaseLabel → Value → Prop) (g : LabeledNetwork) (z : NodeId) : Prop where
  reference : g.z = some z
  origin : (g.nodeD z).label = .empty
  lettered : g.Lettered
  values : ∀ e slot, g.slot? e = some slot →
    slot.payload.EveryValue fun c l w => allowed c w ∧ g.Grounded l

theorem repairEdges_screens (allowed : CaseLabel → Value → Prop) {z : NodeId}
    (known : withNodeLabels = true → d.network.KnownNodes)
    (reference : d.network.z = some z) (origin : (d.network.nodeD z).label = .empty)
    (lettered : d.network.Lettered)
    (restricted : ∀ e slot, d.network.slot? e = some slot →
      slot.payload.EveryValue fun c _ w => allowed c w) :
    Ends (do
      (← network).edgeIds.forM (repairEdge withNodeLabels)
      return z) d (fun z' d' => z' = z ∧ d'.network.nodes = d.network.nodes ∧
        Prepared allowed d'.network z) fun _ _ => True := by
  rw [ends_bind, ends_network]
  refine (ends_forM (fun todo (d' : Draft LabeledEdge) => Network.Screened d.network allowed
    (fun i _ _ => i ∈ todo) d'.network)
    (fun e todo d' screened => repairEdge_screens known screened) _ _ ?_).bind
    fun _ d' repaired => ?_
  · refine ⟨rfl, rfl, lettered, fun e slot stored c l w mem =>
      ⟨restricted e slot stored c l w mem, Or.inr ?_⟩⟩
    rw [Network.mem_edgeIds, stored]
    rfl
  · have nodes : d'.network.nodes = d.network.nodes := repaired.nodes
    refine ⟨rfl, nodes, repaired.reference.trans reference, ?_, repaired.lettered,
      fun e slot stored c l w mem => ?_⟩
    · rw [Network.nodeD, Network.node?, nodes]
      exact origin
    · obtain ⟨allowed, grounded | waiting⟩ := repaired.values e slot stored c l w mem
      · exact ⟨allowed, grounded.of_nodes nodes⟩
      · cases waiting

theorem prepare_screens (allowed : CaseLabel → Value → Prop)
    (known : withNodeLabels = true → d.network.KnownNodes)
    (lettered : d.network.Lettered)
    (restricted : ∀ e slot, d.network.slot? e = some slot →
      slot.payload.EveryValue fun c _ w => allowed c w) :
    Ends (prepare withNodeLabels) d (fun z d' => Prepared allowed d'.network z ∧
      (d.network.KnownNodes → d'.network.KnownNodes)) fun _ _ => True := by
  unfold prepare
  refine ensureZ_starts.bind fun z d₁ started => ?_
  obtain ⟨set, slots₁, known₁⟩ := started
  refine (clearZLabel_starts z).bind fun _ d₂ cleared => ?_
  obtain ⟨set₂, slots₂, known₂, origin⟩ := cleared
  rw [ends_bind, ends_network]
  refine (failIf_ends _).bind fun _ d₃ checked => ?_
  obtain ⟨rfl, _⟩ := checked
  have slots : d₃.network.slots = d.network.slots := slots₂.trans slots₁
  have set₃ : d₃.network.z = some z := set₂.trans set
  have known₃ := fun nodes => known₂ (known₁ nodes)
  -- The values are repaired last, with node labels and without.
  have repairs : ∀ d₄ : Draft LabeledEdge, d₄.network.slots = d.network.slots →
      d₄.network.z = some z → (d₄.network.nodeD z).label = .empty →
      (d.network.KnownNodes → d₄.network.KnownNodes) →
      Ends (do
        (← network).edgeIds.forM (repairEdge withNodeLabels)
        return z) d₄ (fun z' d' => Prepared allowed d'.network z' ∧
          (d.network.KnownNodes → d'.network.KnownNodes)) fun _ _ => True := by
    intro d₄ same reference origin' nodes
    refine (repairEdges_screens allowed (fun on => nodes (known on)) reference origin' ?_ ?_).mono ?_
      fun _ _ => id
    · exact fun e slot stored => lettered e slot (by rwa [Network.slot?, same] at stored)
    · exact fun e slot stored => restricted e slot (by rwa [Network.slot?, same] at stored)
    · rintro _ d' ⟨rfl, nodes', screened⟩
      refine ⟨screened, fun start n => ?_⟩
      rw [Network.nodeD, Network.node?, nodes']
      exact nodes start n
  cases withNodeLabels with
  | false => exact repairs d₃ slots set₃ origin known₃
  | true =>
    rw [if_pos rfl, ends_bind, ends_network]
    have start : Closing d₃.network z d₃.network.nodeIds d₃.network := by
      refine ⟨rfl, set₃, id, origin, fun n outside => ?_⟩
      rw [Network.label_of_outside (not_lt.mp fun inside => outside (List.mem_range.mpr inside))]
      exact Label.isClosed_empty _
    refine (ends_forM (fun todo (d' : Draft LabeledEdge) => Closing d₃.network z todo d'.network)
      (fun n rest _ closing => closeNodeLabel_closes closing) _ _ start).bind fun _ d₄ closing => ?_
    rw [ends_bind, ends_network]
    refine (failIf_ends _).bind fun _ d₅ checked => ?_
    obtain ⟨rfl, _⟩ := checked
    exact repairs d₅ (closing.slots.trans slots) closing.reference closing.origin
      fun nodes => closing.known (known₃ nodes)

theorem kept_ends (J : EdgeId → NodeId → NodeId → ConstraintKind → Prop) :
    Kept withNodeLabels fun g => ∀ e slot, g.slot? e = some slot →
      J e slot.source slot.target slot.payload.kind := by
  have erased : ∀ (edge : LabeledEdge) case label, (edge.erase case label).kind = edge.kind := by
    intro edge case label
    unfold LabeledEdge.erase
    split <;> rfl
  constructor
  · exact fun _ _ holds => holds
  · intro g h id holds added
    unfold Network.addNode at added
    split at added
    · cases added
    · cases added
      exact holds
  · exact fun _ _ _ holds => holds
  · intro g e case label holds i slot stored
    obtain ⟨old, stored', rfl⟩ := Network.slot?_of_modifyEdge stored
    have here := holds i old stored'
    dsimp only
    split
    · rwa [erased]
    · exact here
  · intro _ g e case label required value holds i slot stored
    obtain ⟨old, stored', rfl⟩ := Network.slot?_of_modifyEdge stored
    have here := holds i old stored'
    dsimp only
    split
    · rwa [(LabeledEdge.growsTo_merge _ case required value).kind, erased]
    · exact here

end WellDefined

end TemporalNetwork
