import TemporalNetwork.Proofs.Conditional.Domination
import TemporalNetwork.Proofs.Conditional.Verdict

/-!
The network that a propagation starts from. The labels of a well-defined network say consistently what
is observed once what is, and the values that fit its nodes have closed labels.
-/

namespace TemporalNetwork

namespace Network

variable {g h : LabeledNetwork} {n : NodeId} {p q : Proposition} {l : Label}

theorem observed_of_observerAmong? (first : observerAmong? g.nodes p = some n) :
    (g.nodeD n).observed = some p := by
  obtain ⟨inside, here, _⟩ := Array.findIdx?_eq_some_iff_getElem.mp first
  rw [nodeD, node?, Array.getElem?_eq_getElem inside]
  exact beq_iff_eq.mp here

theorem UniqueObservers.observerAmong?_eq_some_iff (unique : g.UniqueObservers) :
    observerAmong? g.nodes p = some n ↔ (g.nodeD n).observed = some p := by
  refine ⟨observed_of_observerAmong?, fun here => ?_⟩
  cases first : observerAmong? g.nodes p with
  | some m => rw [unique m n p (observed_of_observerAmong? first) here]
  | none =>
    have inside := WellDefined.lt_of_observed here
    have absent := Array.findIdx?_eq_none_iff.mp first g.nodes[n] (Array.getElem_mem inside)
    rw [nodeD, node?, Array.getElem?_eq_getElem inside] at here
    simp_all

theorem UniqueObservers.contains_children (unique : g.UniqueObservers)
    (own : ∀ n p, (g.nodeD n).observed = some p → (g.nodeD n).label.mentions p = false) :
    (g.observations.childrenOf p).contains q = true ↔
      ∃ n, (g.nodeD n).observed = some q ∧ (g.nodeD n).label.mentions p = true := by
  have table : g.observations.childrenOf p = childrenAmong g.nodes p := by
    simp [observations, ObservationIndex.ofNodes, ObservationIndex.childrenOf]
  rw [table, childrenAmong, PropositionSet.contains_ofList, List.mem_filter, Bool.and_eq_true,
    bne_iff_ne, Option.any_eq_true]
  constructor
  · rintro ⟨_, _, node, found, mentioned⟩
    obtain ⟨n, first, here⟩ := Option.bind_eq_some_iff.mp found
    refine ⟨n, unique.observerAmong?_eq_some_iff.mp first, ?_⟩
    rw [nodeD, node?, here]
    exact mentioned
  · rintro ⟨n, observes, mentioned⟩
    have inside := WellDefined.lt_of_observed observes
    have here : g.nodes[n]? = some (g.nodeD n) := by
      rw [nodeD, node?, Array.getElem?_eq_getElem inside]
      rfl
    refine ⟨List.mem_finRange q, ?_, g.nodeD n, ?_, mentioned⟩
    · rintro rfl
      rw [own n q observes] at mentioned
      cases mentioned
    · rw [unique.observerAmong?_eq_some_iff.mpr observes, Option.bind_some, here]

end Network

namespace RuleContext

variable {ctx : RuleContext} {g : LabeledNetwork} {z : NodeId} {l : Label}

theorem closedLabel_of_off (off : ctx.withNodeLabels = false) (l : Label) : ctx.ClosedLabel g l := by
  intro n p _ _
  rw [nodeLabel, if_neg (Bool.eq_false_iff.mp off)]
  exact Label.subsumes_empty l

/-- Without node labels nothing is observed once something else is. -/
theorem nested_of_off (off : ctx.withNodeLabels = false) (g : LabeledNetwork) : ctx.Nested g := by
  have empty : ∀ n, ctx.nodeLabel g n = .empty := fun n => if_neg (Bool.eq_false_iff.mp off)
  have absent : ∀ p, Label.empty.mentions p = false := fun p => by
    rw [Label.mentions_eq, Label.state_empty]
    rfl
  constructor
  · exact fun n => empty n ▸ rfl
  · exact fun n => closedLabel_of_off off _
  · exact fun n p _ => empty n ▸ absent p
  · intro p q
    rw [contains_children_of_off off]
    simp [empty, absent]

theorem closedLabel_of_isClosed (on : ctx.withNodeLabels = true) (unique : g.UniqueObservers)
    (closed : l.IsClosed g.observerLabel?) : ctx.ClosedLabel g l := by
  intro n p observes mentioned
  obtain ⟨k, observer, general⟩ := closed p mentioned
  rw [Network.observerLabel?, unique.observerAmong?_eq_some_iff.mpr observes, Option.map_some] at observer
  cases observer
  rwa [nodeLabel, if_pos on]

theorem nested_of_wellDefined (on : ctx.withNodeLabels = true)
    (table : ctx.observations = g.observations) (known : g.KnownNodes) (nodes : g.WellDefinedNodes z)
    (unique : g.UniqueObservers) : ctx.Nested g := by
  have label : ∀ n, ctx.nodeLabel g n = (g.nodeD n).label := fun n => if_pos on
  constructor
  · exact fun n => label n ▸ known n
  · intro n
    rw [label]
    exact closedLabel_of_isClosed on unique (nodes.closed n)
  · intro n p observes
    rw [label]
    exact nodes.own n p observes
  · intro p q
    rw [children, if_pos on, table, unique.contains_children nodes.own]
    simp only [label]

end RuleContext

/-- What the repair of a network leaves. -/
structure Network.Repaired (allowed : CaseLabel → Value → Prop) (withNodeLabels : Bool)
    (g : LabeledNetwork) (z : NodeId) : Prop where
  wellFormed : g.WellFormed
  inside : z < g.nodeCount
  unique : g.UniqueObservers
  prepared : WellDefined.Prepared allowed g z
  nodes : withNodeLabels = true → g.WellDefinedNodes z ∧ g.KnownNodes

section Preparing

variable {withNodeLabels : Bool} {allowed : CaseLabel → Value → Prop} {d : Draft LabeledEdge}

/-- A network of allowed values, in which no node label that is heeded has an unknown literal. -/
structure Network.Repairable (allowed : CaseLabel → Value → Prop) (withNodeLabels : Bool)
    (g : LabeledNetwork) : Prop where
  wellFormed : g.WellFormed
  lettered : g.Lettered
  known : withNodeLabels = true → g.KnownNodes
  values : ∀ e slot, g.slot? e = some slot → slot.payload.EveryValue fun c _ w => allowed c w

theorem Network.Repairable.of_slots {g : LabeledNetwork} (wf : g.WellFormed)
    (known : ∀ node ∈ g.nodes, node.label.hasUnknown = false)
    (slots : ∀ s ∈ g.slots.toList, ∀ slot, s = some slot → slot.payload.upper = .empty ∧
      ∀ x ∈ slot.payload.values.entries, allowed .empty x.2) :
    g.Repairable allowed withNodeLabels where
  wellFormed := wf
  lettered e slot stored c m mem := by
    rw [(slots _ (mem_slots stored) slot rfl).1] at mem
    cases mem
  known _ := knownNodes_of_forall_mem known
  values e slot stored c l w mem := by
    obtain ⟨upper, allowed⟩ := slots _ (mem_slots stored) slot rfl
    rcases LabeledEdge.mem_allValues.mp mem with ⟨rfl, ordinary⟩ | ⟨m, group, _⟩
    · exact allowed (l, w) ordinary
    · rw [upper] at group
      cases group

theorem WellDefined.prepare_leaves (start : d.network.Repairable allowed withNodeLabels) :
    Ends (prepare withNodeLabels) d (fun z d' => d'.network.Repaired allowed withNodeLabels z ∧
      (withNodeLabels = true → d.network.Unopposed d'.network → d'.network.FittingValues))
      fun _ _ => True := by
  have screens := (prepare_ends kept_wellFormed start.wellFormed).and
    (prepare_screens allowed start.known start.lettered start.values)
  cases withNodeLabels with
  | false =>
    refine screens.mono ?_ fun _ _ _ => trivial
    rintro z d' ⟨⟨wf, inside, unique, _⟩, prepared, _⟩
    exact ⟨⟨wf, inside, unique, prepared, nofun⟩, nofun⟩
  | true =>
    refine (screens.and (prepare_repairs start.lettered)).mono ?_ fun _ _ _ => trivial
    rintro z d' ⟨⟨⟨wf, inside, unique, _⟩, prepared, known⟩, _, nodes, fits⟩
    exact ⟨⟨wf, inside, unique, prepared, fun _ => ⟨nodes, known (start.known rfl)⟩⟩,
      fun _ => fits (start.known rfl)⟩

theorem CstnChecker.prepare_leaves (start : d.network.Repairable allowed withNodeLabels) :
    Ends (prepare withNodeLabels) d (fun r d' => ∃ h : LabeledNetwork,
      h.Repaired allowed withNodeLabels r.1 ∧ h.horizon? = .ok r.2 ∧
        d'.network = h.addBounds r.1 r.2.value withNodeLabels ∧
        (withNodeLabels = true → d.network.Unopposed h → h.FittingValues)) fun _ _ => True := by
  unfold prepare
  refine (WellDefined.prepare_leaves start).bind fun z d₁ ⟨repaired, fits⟩ => ?_
  rw [ends_bind, Preparation.ends_network]
  split
  · exact trivial
  · split
    · exact trivial
    · rename_i horizon computed
      rw [ends_bind, Preparation.ends_modifyNetwork]
      exact ⟨d₁.network, repaired, computed, rfl, fits⟩

end Preparing

namespace Network

variable {g h : LabeledNetwork} {z : NodeId} {horizon : Value} {ctx : RuleContext}
  {allowed : CaseLabel → Value → Prop}

theorem EveryValue.addBounds {P : ValueProperty} {withNodeLabels : Bool} (every : g.EveryValue P)
    (joins : ∀ u v, JoinsTwins (P u v) (P u v)) (wf : g.WellFormed) (hz : z < g.nodeCount)
    (early : ∀ n < g.nodeCount, n ≠ z → P n z .empty (g.boundLabel withNodeLabels n) 0)
    (late : ∀ n < g.nodeCount, n ≠ z → P z n .empty (g.boundLabel withNodeLabels n) horizon) :
    (g.addBounds z horizon withNodeLabels).EveryValue P := by
  refine addBounds_induct wf hz (fun h wf' grows kept n hn apart => ?_) every
  have hn' : n < h.nodeCount := grows.nodeCount ▸ hn
  have hz' : z < h.nodeCount := grows.nodeCount ▸ hz
  exact ⟨kept.mergeInto_twins joins wf' hn' hz' .internal (early n hn apart),
    kept.mergeInto_twins joins wf' hz' hn' .internal (late n hn apart)⟩

theorem Lettered.addBounds {withNodeLabels : Bool} (lettered : g.Lettered) (wf : g.WellFormed)
    (hz : z < g.nodeCount) {u v : NodeId} {e : LabeledEdge}
    (joined : (g.addBounds z horizon withNodeLabels).edgeBetween? u v = some e) :
    e.upper.Lettered := by
  refine addBounds_induct (I := fun h => ∀ u v e, h.edgeBetween? u v = some e → e.upper.Lettered) wf
    hz (fun h wf' grows kept n hn _ => ?_) (fun u v e joined => ?_) u v e joined
  · have hn' : n < h.nodeCount := grows.nodeCount ▸ hn
    have hz' : z < h.nodeCount := grows.nodeCount ▸ hz
    exact ⟨forall_edge_mergeInto (P := fun _ _ e => e.upper.Lettered) wf' hn' hz' kept nofun
        fun _ letters => LabeledEdge.lettered_merge letters _ _ _,
      forall_edge_mergeInto (P := fun _ _ e => e.upper.Lettered) wf' hz' hn' kept nofun
        fun _ letters => LabeledEdge.lettered_merge letters _ _ _⟩
  · obtain ⟨i, slot, stored, _, _, rfl⟩ := wf.edgeBetween?_eq_some_iff.mp joined
    exact lettered i slot stored

theorem covers_of_mem {u v : NodeId} {e : LabeledEdge} {c : CaseLabel} {l : Label} {w : Value}
    (joined : g.edgeBetween? u v = some e) (lettered : e.upper.Lettered)
    (mem : (c, l, w) ∈ e.allValues) : g.Covers u v c l w := by
  have self : ∀ m : ValueMap, (l, w) ∈ m.entries → m.dominates l w = true := fun m stored =>
    ValueMap.dominates_iff.mpr ⟨(l, w), stored, Label.subsumes_refl l, le_rfl⟩
  refine ⟨e, joined, ?_⟩
  rcases LabeledEdge.mem_allValues.mp mem with ⟨_, stored⟩ | ⟨m, group, stored⟩
  · exact Or.inl (self e.values stored)
  · exact Or.inr ⟨lettered c m group, UpperCaseMap.dominates_iff.mpr
      ⟨(c, m), group, CaseLabel.subset_refl c, self m stored⟩⟩

theorem FittingValues.everyValue (fits : g.FittingValues) (wf : g.WellFormed) :
    g.EveryValue fun u v _ l _ => g.Fits u v l := by
  intro u v e joined c l w mem
  obtain ⟨i, slot, stored, rfl, rfl, rfl⟩ := wf.edgeBetween?_eq_some_iff.mp joined
  exact fits i slot stored c l w mem

theorem unopposed_of_nodes {g' : LabeledNetwork} (same : h.nodes = g'.nodes) :
    g.Unopposed h ↔ g.Unopposed g' := by
  unfold Unopposed
  simp only [fits_of_nodes same, labelRepair_of_nodes same]

theorem Unopposed.of_slots (slots : ∀ s ∈ g.slots.toList, ∀ slot, s = some slot →
    ∀ x ∈ slot.payload.allValues,
      h.labelRepair true slot.source slot.target x.2.1 ≠ .dropContradictory) : g.Unopposed h :=
  fun _ slot stored c l w mem _ _ _ => slots _ (mem_slots stored) slot rfl (c, l, w) mem

theorem Repaired.fits_addBounds (repaired : g.Repaired allowed true z) (fits : g.FittingValues)
    (horizon : Value) : (g.addBounds z horizon true).EveryValue fun u v _ l _ => g.Fits u v l := by
  obtain ⟨nodes, known⟩ := repaired.nodes rfl
  have origin : ∀ l : Label, l.subsumes (g.nodeD z).label = true := fun l => by
    rw [nodes.origin]
    exact Label.subsumes_empty l
  have self : ∀ n, (g.nodeD n).label.subsumes (g.nodeD n).label = true := fun n =>
    Label.subsumes_refl _
  exact EveryValue.addBounds (fits.everyValue repaired.wellFormed)
    (fun _ _ => ⟨fun _ _ _ => id, fun _ _ _ _ _ new flips twin => new.join flips twin⟩)
    repaired.wellFormed repaired.inside
    (fun n _ _ => ⟨known n, self n, origin _, nodes.closed n⟩)
    fun n _ _ => ⟨known n, origin _, self n, nodes.closed n⟩

theorem Repaired.sound (repaired : g.Repaired allowed ctx.withNodeLabels z)
    (range : ∀ c w, allowed c w → w.InRange) (inRange : horizon.InRange)
    (finite : horizon ≠ Value.posInf)
    (table : ctx.observations = (g.addBounds z horizon ctx.withNodeLabels).observations)
    (fits : ctx.withNodeLabels = true → g.FittingValues) :
    ctx.Sound (g.addBounds z horizon ctx.withNodeLabels) := by
  obtain ⟨wf, grows, _⟩ := addBounds_spec repaired.wellFormed repaired.inside horizon finite
    ctx.withNodeLabels
  have unique : (g.addBounds z horizon ctx.withNodeLabels).UniqueObservers := by
    intro m n p
    rw [grows.nodeD, grows.nodeD]
    exact repaired.unique m n p
  have representable : (g.addBounds z horizon ctx.withNodeLabels).EveryValue
      fun _ _ _ _ w => w.InRange := by
    refine EveryValue.addBounds ?_ (fun _ _ => ⟨fun _ _ _ => id, fun _ _ _ _ _ new _ twin =>
      RuleContext.inRange_max new twin⟩) repaired.wellFormed repaired.inside
      (fun _ _ _ => by decide) fun _ _ _ => inRange
    intro u v e joined c l w mem
    obtain ⟨i, slot, stored, rfl, rfl, rfl⟩ :=
      repaired.wellFormed.edgeBetween?_eq_some_iff.mp joined
    exact range c w (repaired.prepared.values i slot stored c l w mem).1
  by_cases on : ctx.withNodeLabels = true
  · obtain ⟨nodes, known⟩ := repaired.nodes on
    refine ⟨wf, RuleContext.nested_of_wellDefined on table (known.of_nodes grows.nodes)
      (wellDefinedNodes_of_nodes grows.nodes nodes) unique, fun u v e joined c l w mem =>
        ⟨representable u v e joined c l w mem, RuleContext.closedLabel_of_isClosed on unique ?_⟩⟩
    rw [on] at repaired joined ⊢
    have closed := (repaired.fits_addBounds (fits on) horizon u v e joined c l w mem)
    exact ((fits_of_nodes (addBounds_spec repaired.wellFormed repaired.inside horizon finite
      true).2.1.nodes u v l).mpr closed).closed
  · rw [Bool.not_eq_true] at on
    exact ⟨wf, RuleContext.nested_of_off on _, fun u v e joined c l w mem =>
      ⟨representable u v e joined c l w mem, RuleContext.closedLabel_of_off on l⟩⟩

theorem Grows.answered (grows : g.Grows h) (sound : ctx.Sound g)
    (letters : ∀ u v e, g.edgeBetween? u v = some e → e.upper.Lettered) :
    g.EveryValue (ctx.AnsweredValue h) := by
  intro u v e joined c l w mem
  refine RuleContext.Fixpoint.answeredValue_of_covers ?_
    (grows.covers (covers_of_mem joined (letters u v e joined) mem))
  rw [RuleContext.regularValue_congr grows.nodeD]
  exact sound.regular u v e joined c l w mem

theorem horizon?_nonneg {r : Horizon} (known : g.horizon? = .ok r) : 0 ≤ r.value := by
  obtain ⟨_, largest, product⟩ := horizon?_spec known
  rw [product, largest]
  exact mul_nonneg g.maxWeight_nonneg (Int.natCast_nonneg _)

end Network

namespace CstnChecker

variable {g : LabeledNetwork} {options : CheckerOptions} {rules : RuleSet} {stops : Polls}
  {c : CstnChecker} {status : CheckStatus} {allowed : CaseLabel → Value → Prop}

/-- A checker that has been initialised holds the repaired network with the bounds of its nodes. -/
theorem initialise_leaves (start : g.Repairable allowed options.withNodeLabels)
    (unopposed : options.withNodeLabels = true →
      g.Unopposed (ofNetwork g options rules).initialise.1.network)
    (ready : (ofNetwork g options rules).initialise = (c, .ok ())) :
    ∃ (h : LabeledNetwork) (z : NodeId) (horizon : Horizon),
      h.Repaired allowed options.withNodeLabels z ∧
      (options.withNodeLabels = true → h.FittingValues) ∧ h.horizon? = .ok horizon ∧
      c.z = some z ∧ c.horizon = some horizon ∧ c.options = options ∧ c.rules = rules ∧
      c.network = h.addBounds z horizon.value options.withNodeLabels := by
  obtain ⟨z, horizon, d, run, rfl⟩ := prepare_of_initialise ready
  obtain ⟨h, repaired, known, bounded, fits⟩ :=
    (prepare_leaves (d := ⟨g, []⟩) start).of_ok run
  refine ⟨h, z, horizon, repaired, fun on => fits on ?_, known, rfl, rfl, rfl, rfl, bounded⟩
  have opposed := unopposed on
  rw [ready] at opposed
  obtain ⟨finite, _, _⟩ := Network.horizon?_spec known
  have grows := (Network.addBounds_spec repaired.wellFormed repaired.inside horizon.value
    (ne_of_lt finite.2) options.withNodeLabels).2.1
  dsimp only at opposed bounded
  rw [bounded] at opposed
  exact (Network.unopposed_of_nodes grows.nodes).mp opposed

/-- A consistent check with the full rules over all edges ends with a fixpoint that has answers to the
values it has started from. -/
theorem fixpoint_of_consistent (start : g.Repairable allowed options.withNodeLabels)
    (range : ∀ c w, allowed c w → w.InRange)
    (unopposed : options.withNodeLabels = true →
      g.Unopposed (ofNetwork g options .full).initialise.1.network)
    (everywhere : options.onlyToZ = false)
    (checked : (ofNetwork g options .full).check stops = (c, .ok status))
    (consistent : status.outcome = .consistent) :
    ∃ c₀ z horizon, (ofNetwork g options .full).initialise = (c₀, .ok ()) ∧ c₀.z = some z ∧
      c₀.horizon = some horizon ∧ (c₀.context z horizon).Sound c₀.network ∧
      (c₀.context z horizon).Fixpoint c.network ∧ c₀.network.Grows c.network ∧
      c₀.network.EveryValue ((c₀.context z horizon).AnsweredValue c.network) := by
  obtain ⟨c₀, z, horizon, ready, hz, hh, _, _, fixpoint, _⟩ := propagation_of_check checked
  obtain ⟨p, run, same⟩ := fixpoint consistent
  obtain ⟨h, _, _, repaired, fits, known, hz', hh', rfl, full, bounded⟩ :=
    initialise_leaves start unopposed ready
  obtain rfl := Option.some.inj (hz.symm.trans hz')
  obtain rfl := Option.some.inj (hh.symm.trans hh')
  obtain ⟨finite, _, _⟩ := Network.horizon?_spec known
  have letters : ∀ u v e, c₀.network.edgeBetween? u v = some e → e.upper.Lettered := by
    intro u v e joined
    rw [bounded] at joined
    exact repaired.prepared.lettered.addBounds repaired.wellFormed repaired.inside joined
  have sound : (c₀.context z horizon).Sound c₀.network := by
    have table : (c₀.context z horizon).observations = c₀.network.observations := rfl
    rw [bounded] at table ⊢
    exact repaired.sound range ⟨finite.1.le, finite.2.le⟩ (ne_of_lt finite.2) table fits
  obtain ⟨settled, grows⟩ := sound.fixpoint (p := ⟨c₀.network, .zero, 0, 0⟩) full everywhere rfl
    (Network.horizon?_nonneg known) run
  rw [same]
  exact ⟨c₀, z, horizon, ready, hz, hh, sound, settled, grows, grows.answered sound letters⟩

end CstnChecker

end TemporalNetwork
