import TemporalNetwork.Proofs.Conditional.Waits
import TemporalNetwork.Proofs.Strategy.MaximalDurations
import TemporalNetwork.Proofs.Strategy.RawLinks

/-!
Soundness of the inconsistent verdict of the controllability check, in networks without labels: if there
is a strategy that schedules the network without knowing the durations of the links in advance, the check
does not answer that the network is inconsistent.
-/

namespace TemporalNetwork

/-- A strategy for a network without labels: `σ ω n` is the time of `n` if the links take the durations
`ω`. No node is before the reference node, the values of the edges that are not contingent hold, and a node
that is not contingent has the same time for durations with which the same contingent nodes have occurred
by then, at the same times. -/
structure LinkStrategy (g : LabeledNetwork) (links : List StnuLink) (σ : (Nat → ℚ) → NodeId → ℚ) :
    Prop where
  first : ∀ ω, Admissible links ω → ∀ n < g.nodeCount, σ ω g.reference ≤ σ ω n
  constraint : ∀ ω, Admissible links ω → ∀ u v e l w, g.edgeBetween? u v = some e →
    e.kind ≠ .contingent → (l, w) ∈ e.values.entries → Value.Admits w (σ ω v - σ ω u)
  lasts : ∀ ω, Admissible links ω → ∀ (i : Nat) (link : StnuLink), links[i]? = some link →
    σ ω link.contingent = σ ω link.activation + ω i
  dynamic : ∀ ω ω', Admissible links ω → Admissible links ω' →
    ∀ n, n < g.nodeCount ∨ n = g.reference → (∀ link ∈ links, n ≠ link.contingent) →
    (∀ link ∈ links, σ ω link.contingent ≤ σ ω n ∨ σ ω' link.contingent ≤ σ ω n →
      σ ω' link.contingent = σ ω link.contingent) →
    σ ω' n = σ ω n

theorem LinkStrategy.unforeseeing {g : LabeledNetwork} {links : List StnuLink}
    {σ : (Nat → ℚ) → NodeId → ℚ} (strategy : LinkStrategy g links σ)
    (inside : ∀ link ∈ links, link.activation < g.nodeCount ∧ link.contingent < g.nodeCount) {count : Nat}
    (le : g.nodeCount ≤ count) :
    Unforeseeing (Finset.range count) links fun ω n => σ ω (g.orReference n) where
  ends link mem := ⟨Finset.mem_range.mpr ((inside link mem).1.trans_le le),
    Finset.mem_range.mpr ((inside link mem).2.trans_le le)⟩
  lasts ω admissible i link listed := by
    obtain ⟨starts, ends⟩ := inside link (List.mem_of_getElem? listed)
    rw [Network.orReference_of_lt starts, Network.orReference_of_lt ends]
    exact strategy.lasts ω admissible i link listed
  dynamic ω ω' admissible admissible' n _ _ shared := by
    have same : ∀ link ∈ links, g.orReference link.contingent = link.contingent :=
      fun link mem => Network.orReference_of_lt (inside link mem).2
    by_cases contingent : ∃ link ∈ links, g.orReference n = link.contingent
    · obtain ⟨link, mem, here⟩ := contingent
      have equal := shared link mem (Or.inl (by rw [same link mem, here]))
      rwa [same link mem, ← here] at equal
    · push Not at contingent
      refine strategy.dynamic ω ω' admissible admissible' _ (g.orReference_cases n) contingent
        fun link mem occurs => ?_
      have equal := shared link mem (by rwa [same link mem])
      rwa [same link mem] at equal

namespace Network

variable {withNodeLabels : Bool} {g k : LabeledNetwork}

theorem Raw.labelless (raw : g.Raw) : g.EveryValue fun _ _ _ l _ => l = .empty :=
  fun u v e joined _ l w mem => (raw u v e joined).labelless l w ((raw u v e joined).ordinary mem).2

theorem Unaltered.contingentValue (unaltered : g.Unaltered withNodeLabels k) {u v : NodeId} {w : Value} :
    k.ContingentValue u v w ↔ g.ContingentValue u v w := by
  simp only [ContingentValue, unaltered.edgeBetween?]

theorem Unaltered.hasLink (unaltered : g.Unaltered withNodeLabels k) {link : StnuLink} :
    k.HasLink link ↔ g.HasLink link := by
  constructor
  · rintro ⟨ahead, behind, positive, range⟩
    exact ⟨unaltered.contingentValue.mp ahead, unaltered.contingentValue.mp behind, positive, range⟩
  · rintro ⟨ahead, behind, positive, range⟩
    exact ⟨unaltered.contingentValue.mpr ahead, unaltered.contingentValue.mpr behind, positive, range⟩

theorem Raw.of_unaltered (raw : g.Raw) (unaltered : g.Unaltered withNodeLabels k) : k.Raw :=
  fun u v e joined => raw u v e (unaltered.edgeBetween? u v ▸ joined)

end Network

namespace CstnuChecker

open ContingentLink

/-- What the preparation makes of a raw network: nothing is repaired, and the links are set up. -/
structure Prepared (withNodeLabels : Bool) (g : LabeledNetwork) (links : List ContingentLink)
    (h : LabeledNetwork) : Prop where
  recorded : ∃ k, g.Unaltered withNodeLabels k ∧ Recorded k [] links h
  stored : ∀ link ∈ links, Stored h link
  letters : (links.map letter).Nodup
  unlabelled : h.Unlabelled withNodeLabels
  reference : h.reference = g.reference
  inside : g.reference < h.nodeCount
  nodeCount_le : g.nodeCount ≤ h.nodeCount

variable {withNodeLabels : Bool} {g h : LabeledNetwork} {links : List ContingentLink}
  {d : Draft LabeledEdge} {options : CheckerOptions} {c : CstnuChecker}

theorem kept_reference (z n : NodeId) :
    ContingentLink.Kept fun g => g.z = some z ∧ n ≤ g.nodeCount where
  modifyEdge _ _ _ h := h
  modifyNode g m letter h := by simpa [Network.nodeCount, Network.modifyNode] using h
  setActivation _ _ _ h := h

theorem prepare_prepared (wf : d.network.WellFormed) (raw : d.network.Raw)
    (unlabelled : d.network.Unlabelled withNodeLabels) :
    Ends (prepare withNodeLabels) d
      (fun r d' => ∃ h, Prepared withNodeLabels d.network r.2.1 h ∧ r.1 = d.network.reference ∧
        h.horizon? = .ok r.2.2 ∧ d'.network = h.addBounds r.1 r.2.2.value withNodeLabels)
      fun _ _ => True := by
  unfold prepare
  have repaired := (WellDefined.prepare_unaltered unlabelled wf raw.labelless).and
    (WellDefined.prepare_ends (I := Network.WellFormed) WellDefined.kept_wellFormed wf)
  refine (repaired.mono (fun _ _ => id) fun _ _ _ => trivial).bind ?_
  rintro z d₁ ⟨⟨unaltered, set⟩, wf₁, inside, _, rfl, _⟩
  have recorded := ((prepareAll_recorded wf₁ (raw.of_unaltered unaltered)).and (prepareAll_stored wf₁)).and
    (prepareAll_ends ((kept_reference d.network.reference d₁.network.nodeCount).and
      (kept_unlabelled withNodeLabels)) ⟨⟨set, le_rfl⟩, unaltered.unlabelled⟩)
  refine (recorded.mono (fun _ _ => id) fun _ _ _ => trivial).bind ?_
  rintro links d₂ ⟨⟨recorded, stored, letters⟩, ⟨⟨set₂, count⟩, unlabelled₂⟩, _⟩
  rw [ends_bind, Preparation.ends_network]
  split
  · exact trivial
  · rename_i horizon known
    rw [ends_bind, Preparation.ends_modifyNetwork]
    exact ⟨d₂.network, {
      recorded := ⟨d₁.network, unaltered, recorded⟩
      stored := stored
      letters := letters
      unlabelled := unlabelled₂
      reference := Network.reference_of_z set₂
      inside := inside.trans_le count
      nodeCount_le := unaltered.nodeCount_le.trans count }, rfl, known, rfl⟩

theorem initialise_prepared (wf : g.WellFormed) (raw : g.Raw)
    (unlabelled : g.Unlabelled options.withNodeLabels)
    (ready : (ofNetwork g options).initialise = (c, .ok ())) :
    ∃ (h : LabeledNetwork) (horizon : Horizon), Prepared options.withNodeLabels g c.links h ∧
      h.horizon? = .ok horizon ∧ c.z = some g.reference ∧ c.horizon = some horizon ∧
      c.network = h.addBounds g.reference horizon.value options.withNodeLabels := by
  obtain ⟨z, links, horizon, d, run, rfl⟩ := prepare_of_initialise ready
  obtain ⟨h, prepared, isReference, known, bounded⟩ :=
    (prepare_prepared (d := ⟨g, []⟩) wf raw unlabelled).of_ok run
  dsimp only at isReference bounded prepared
  subst isReference
  exact ⟨h, horizon, prepared, known, rfl, rfl, bounded⟩

namespace Prepared

variable {link : StnuLink} {u v : NodeId} {w : Value}

theorem wellFormed (prepared : Prepared withNodeLabels g links h) : h.WellFormed := by
  obtain ⟨_, _, recorded⟩ := prepared.recorded
  exact recorded.wellFormed

theorem mem_iff (prepared : Prepared withNodeLabels g links h) (raw : g.Raw) :
    link ∈ links.map plain ↔ g.HasLink link := by
  obtain ⟨k, unaltered, recorded⟩ := prepared.recorded
  exact (recorded.mem_iff (raw.of_unaltered unaltered)).trans unaltered.hasLink

theorem hasLink (prepared : Prepared withNodeLabels g links h) {link : ContingentLink}
    (mem : link ∈ links) : link.label = .empty ∧ g.HasLink link.plain := by
  obtain ⟨k, unaltered, recorded⟩ := prepared.recorded
  exact ⟨(recorded.real link mem).1, unaltered.hasLink.mp (recorded.real link mem).2⟩

theorem exists_link (prepared : Prepared withNodeLabels g links h) (given : g.ContingentValue u v w) :
    ∃ link ∈ links, (link.activation = u ∧ link.contingent = v) ∨
      (link.activation = v ∧ link.contingent = u) := by
  obtain ⟨k, unaltered, recorded⟩ := prepared.recorded
  exact recorded.exists_link (unaltered.contingentValue.mpr given)

theorem values (prepared : Prepared withNodeLabels g links h) : h.EveryValue (Lettered g links) := by
  obtain ⟨k, unaltered, recorded⟩ := prepared.recorded
  refine recorded.upper.mono fun u v case l w ⟨labelless, holds⟩ => ⟨labelless, ?_⟩
  rwa [unaltered.edgeBetween?] at holds

theorem lower (prepared : Prepared withNodeLabels g links h) :
    h.EveryLower fun u v low => ∃ link ∈ links, link.activation = u ∧ link.contingent = v ∧
      low = ⟨link.letter, .empty, link.lower⟩ := by
  obtain ⟨_, _, recorded⟩ := prepared.recorded
  exact recorded.lower

theorem lt_of_edgeBetween? (prepared : Prepared withNodeLabels g links h) (wf : g.WellFormed)
    {e : LabeledEdge} (joined : h.edgeBetween? u v = some e) : u < g.nodeCount ∧ v < g.nodeCount := by
  obtain ⟨k, unaltered, recorded⟩ := prepared.recorded
  obtain ⟨i, found, _⟩ := Option.bind_eq_some_iff.mp joined
  rw [recorded.found, unaltered.found] at found
  exact wf.lt_of_findEdge? found

theorem contingentValue_cases (prepared : Prepared withNodeLabels g links h) (raw : g.Raw)
    (given : g.ContingentValue u v w) : ∃ link ∈ links,
      (link.activation = u ∧ link.contingent = v ∧ w = link.upper) ∨
        (link.contingent = u ∧ link.activation = v ∧ w = -link.lower) := by
  obtain ⟨link, mem, ⟨rfl, rfl⟩ | ⟨rfl, rfl⟩⟩ := prepared.exists_link given
  · exact ⟨link, mem, Or.inl ⟨rfl, rfl, raw.contingentValue_eq given (prepared.hasLink mem).2.ahead⟩⟩
  · exact ⟨link, mem, Or.inr ⟨rfl, rfl, raw.contingentValue_eq given (prepared.hasLink mem).2.behind⟩⟩

theorem upper_inRange (prepared : Prepared withNodeLabels g links h) (raw : g.Raw)
    {link : ContingentLink} (mem : link ∈ links) : link.upper ≤ Value.posInf := by
  obtain ⟨e, joined, _, stored⟩ := (prepared.hasLink mem).2.ahead
  exact ((raw _ _ e joined).inRange _ _ stored).2

/-- No link takes longer than the largest weight. -/
theorem upper_le_maxWeight (prepared : Prepared withNodeLabels g links h) (raw : g.Raw)
    {link : ContingentLink} (mem : link ∈ links) : link.upper ≤ h.maxWeight := by
  have stored := prepared.stored link mem
  have negative : -link.upper < 0 := by
    have := stored.positive
    have := stored.range
    lia
  obtain ⟨w, le, case, _, constrains⟩ := stored.upper.constrains (Ne.symm stored.apart)
    (negative.trans (by decide)) (show Label.empty.subsumes link.label = true by
      rw [(prepared.hasLink mem).1]
      exact Label.subsumes_refl _)
  obtain ⟨e, l, joined, mem', _⟩ := constrains.holds
  -- What stands for the longest duration is itself the longest duration of a link.
  obtain ⟨other, mem'', rfl⟩ : ∃ other ∈ links, w = -other.upper := by
    obtain ⟨_, ⟨_, e', joined', stored'⟩ | ⟨other, listed, _, _, _, same⟩⟩ :=
      prepared.values _ _ e joined case l w mem'
    · obtain ⟨e'', joined'', _, short⟩ := (prepared.hasLink mem).2.behind
      obtain rfl : e'' = e' := Option.some.inj (joined''.symm.trans joined')
      have same : w = -link.lower := (raw _ _ _ joined').eq_of_mem stored' short
      have := stored.range
      lia
    · exact ⟨other, listed, same⟩
  have finite : Value.IsFinite (-other.upper) := by
    have := prepared.upper_inRange raw mem''
    have bound : (Value.posInf : Int) = 2147483647 := rfl
    constructor
    · change (-2147483648 : Int) < -other.upper
      lia
    · change -other.upper < (2147483647 : Int)
      lia
  have := Network.neg_le_maxWeight_of_mem (x := (case, l, -other.upper)) joined mem' (by dsimp only; lia)
    finite
  dsimp only at this
  lia

theorem contingents_nodup (prepared : Prepared withNodeLabels g links h)
    (functional : ∀ link ∈ links, ∀ other ∈ links, link.contingent = other.contingent →
      link.activation = other.activation) : (links.map contingent).Nodup := by
  refine List.Nodup.map_on (fun link mem other mem' same => ?_) (List.Nodup.of_map _ prepared.letters)
  refine List.inj_on_of_nodup_map prepared.letters mem mem' ?_
  obtain ⟨e, joined, lower⟩ := (prepared.stored link mem).lower
  obtain ⟨e', joined', lower'⟩ := (prepared.stored other mem').lower
  rw [functional link mem other mem' same, same, joined'] at joined
  cases joined
  rw [lower] at lower'
  exact congrArg LowerCaseValue.letter (Option.some.inj lower')

variable {ctx : RuleContext} {horizon : Horizon} {σ : (Nat → ℚ) → NodeId → ℚ}

theorem obeys (prepared : Prepared withNodeLabels g ctx.links h) (wf : g.WellFormed) (raw : g.Raw)
    (strategy : LinkStrategy g (ctx.links.map plain) σ) :
    h.EveryValue (ctx.Obeys fun ω n => σ ω (g.orReference n)) := by
  intro u v e joined case l w mem
  obtain ⟨hu, hv⟩ := prepared.lt_of_edgeBetween? wf joined
  obtain ⟨rfl, holds⟩ := prepared.values u v e joined case l w mem
  refine ⟨rfl, fun _ ω admissible slow => ?_⟩
  dsimp only
  rw [Network.orReference_of_lt hu, Network.orReference_of_lt hv]
  have duration : ∀ link ∈ ctx.links, ∃ i, ctx.links[i]? = some link ∧
      σ ω link.contingent = σ ω link.activation + ω i ∧ (link.lower : ℚ) ≤ ω i ∧ ω i ≤ link.upper := by
    intro link mem
    obtain ⟨i, listed⟩ := List.getElem?_of_mem mem
    have listed' : (ctx.links.map plain)[i]? = some link.plain := by
      rw [List.getElem?_map, listed, Option.map_some]
    exact ⟨i, listed, strategy.lasts ω admissible i _ listed', admissible i _ listed'⟩
  have low : (Value.negInf : Int) = -2147483648 := rfl
  have high : (Value.posInf : Int) = 2147483647 := rfl
  -- A value of the prepared network is one of the network itself or a case value of a link.
  rcases holds with ⟨rfl, e', joined', stored⟩ | ⟨link, listed, rfl, rfl, rfl, rfl⟩
  · by_cases kind : e'.kind = .contingent
    · obtain ⟨link, listed, ⟨rfl, rfl, rfl⟩ | ⟨rfl, rfl, rfl⟩⟩ :=
        prepared.contingentValue_cases raw ⟨e', joined', kind, stored⟩
      · obtain ⟨i, _, lasts, _, most⟩ := duration link listed
        have := (prepared.stored link listed).positive
        have := (prepared.stored link listed).range
        exact ⟨by lia, Or.inr (by linarith)⟩
      · obtain ⟨i, _, lasts, least, _⟩ := duration link listed
        have := (prepared.stored link listed).range
        have := prepared.upper_inRange raw listed
        exact ⟨by lia, Or.inr (by push_cast; linarith)⟩
    · exact strategy.constraint ω admissible u v e' _ w joined' kind stored
  · obtain ⟨i, here, lasts, _, _⟩ := duration link listed
    have longest := slow i link here (by simp)
    have := prepared.upper_inRange raw listed
    exact ⟨by lia, Or.inr (by push_cast; linarith)⟩

theorem obeyed (prepared : Prepared withNodeLabels g ctx.links h) (wf : g.WellFormed) (raw : g.Raw)
    (isReference : ctx.z = g.reference) (within : ctx.horizon = horizon.value)
    (known : h.horizon? = .ok horizon) (strategy : LinkStrategy g (ctx.links.map plain) σ) :
    ctx.Obeyed (fun ω n => σ ω (g.orReference n)) h horizon where
  wellFormed := prepared.wellFormed
  reference := prepared.reference.trans isReference.symm
  known := known
  within := within
  strategy := by
    refine strategy.unforeseeing (fun link mem => ?_) prepared.nodeCount_le
    obtain ⟨other, listed, rfl⟩ := List.mem_map.mp mem
    obtain ⟨_, joined, _⟩ := (prepared.hasLink listed).2.ahead
    exact wf.lt_of_edgeBetween? joined
  positive link mem := (prepared.stored link mem).positive
  range link mem := (prepared.stored link mem).range
  wide link mem := prepared.upper_le_maxWeight raw mem
  letters := prepared.letters
  first ω admissible n _ := by
    rw [isReference, g.orReference_reference]
    rcases g.orReference_cases n with inside | same
    · exact strategy.first ω admissible _ inside
    · rw [same]
  values := prepared.obeys wf raw strategy
  lower := prepared.lower

end Prepared

end CstnuChecker

/-- An inconsistent verdict of the controllability check is right in networks without labels: the network,
whose links are those that the check has found, is not controlled by any strategy. -/
theorem no_linkStrategy_of_inconsistent (g : LabeledNetwork) (wf : g.WellFormed) (raw : g.Raw)
    (options : CheckerOptions) (unlabelled : g.Unlabelled options.withNodeLabels) (stops : Polls)
    (c : CstnuChecker) (status : CheckStatus)
    (checked : (CstnuChecker.ofNetwork g options).check stops = (c, .ok status))
    (inconsistent : status.outcome = .inconsistent) :
    (∀ link, link ∈ c.links.map ContingentLink.plain ↔ g.HasLink link) ∧
      (c.links.map ContingentLink.contingent).Nodup ∧
      ¬ ∃ σ : (Nat → ℚ) → NodeId → ℚ, LinkStrategy g (c.links.map ContingentLink.plain) σ := by
  obtain ⟨c₀, z, horizon, ready, hz, hh, links, ends⟩ := CstnuChecker.propagation_of_check checked
  obtain ⟨h, horizon', prepared, known, isZ, isHorizon, network⟩ :=
    CstnuChecker.initialise_prepared wf raw unlabelled ready
  obtain ⟨_, functional⟩ := CstnuChecker.wellFormed_of_initialise wf ready
  obtain rfl := Option.some.inj (isZ.symm.trans hz)
  obtain rfl := Option.some.inj (isHorizon.symm.trans hh)
  rw [links]
  refine ⟨fun link => prepared.mem_iff raw, prepared.contingents_nodup functional, ?_⟩
  rintro ⟨σ, strategy⟩
  have obeyed : (c₀.context g.reference horizon').Obeyed (fun ω n => σ ω (g.orReference n)) h horizon' :=
    prepared.obeyed wf raw rfl rfl known strategy
  have propagation := obeyed.propagation prepared.unlabelled prepared.inside functional stops
    (c₀.network.cycleBound horizon'.maxWeight) (p := ⟨c₀.network, .zero, 0, 0⟩) network
  cases run : (Propagation.toFixpoint (c₀.context g.reference horizon') stops
      (c₀.network.cycleBound horizon'.maxWeight)).run ⟨c₀.network, .zero, 0, 0⟩ with
  | ok _ p =>
    obtain ⟨c', status', projected, same⟩ := ends.of_ok run
    obtain ⟨wf', grows, kept⟩ := propagation.of_ok run
    have bounded := (Network.addBounds_spec prepared.wellFormed prepared.inside horizon'.value
      (ne_of_lt (Network.horizon?_spec known).1.2) options.withNodeLabels).2.1
    have unlabelled' : p.network.Unlabelled { options with onlyToZ := false }.withNodeLabels :=
      prepared.unlabelled.of_nodes (grows.nodes.trans (network ▸ bounded.nodes))
    exact obeyed.controlled.projection kept (fun ω => obeyed.origin) wf' unlabelled' projected
      (same.trans inconsistent)
  | error halt p =>
    obtain ⟨loop, negative⟩ := (ends.of_error run).2 inconsistent
    exact propagation.of_error run loop negative

/-- The node `X` has to be one or two units before the end of a link that takes one to three. -/
def foreseenNetwork : LabeledNetwork :=
  (Network.build [.named "Z", .named "A", .named "C", .named "X"]
    [("AC", 1, 2, .ofValue .contingent .empty 3), ("CA", 2, 1, .ofValue .contingent .empty (-1)),
      ("XC", 3, 2, .ofValue .ordinary .empty 2), ("CX", 2, 3, .ofValue .ordinary .empty (-1))]).getD .empty

theorem no_linkStrategy_of_inconsistent_foreseen : ∃ c status,
    (CstnuChecker.ofNetwork foreseenNetwork ⟨none, false, true, .rul2020⟩).check .never =
        (c, .ok status) ∧ status.outcome = .inconsistent ∧
      c.links.map ContingentLink.plain = [⟨1, 2, 1, 3⟩] ∧ ¬ ∃ σ : (Nat → ℚ) → NodeId → ℚ,
        LinkStrategy foreseenNetwork (c.links.map ContingentLink.plain) σ := by
  -- in one statement, so that the check is evaluated once
  obtain ⟨answered, found⟩ :
      ((CstnuChecker.ofNetwork foreseenNetwork ⟨none, false, true, .rul2020⟩).check
        .never).2.toOption.map CheckStatus.outcome = some .inconsistent ∧
      ((CstnuChecker.ofNetwork foreseenNetwork ⟨none, false, true, .rul2020⟩).check
        .never).1.links.map ContingentLink.plain = [⟨1, 2, 1, 3⟩] := by decide +kernel
  have wf : foreseenNetwork.WellFormed := Network.wellFormed_getD_build _ _
  cases checked : (CstnuChecker.ofNetwork foreseenNetwork ⟨none, false, true, .rul2020⟩).check
      .never with
  | mk c answer =>
    rw [checked] at answered found
    cases answer with
    | error e => cases answered
    | ok status =>
      have inconsistent : status.outcome = .inconsistent := Option.some.inj answered
      exact ⟨c, status, rfl, inconsistent, found, (no_linkStrategy_of_inconsistent foreseenNetwork wf
        (Network.raw_of_forall_mem wf (by decide +kernel)) _
        (Network.unlabelled_of_forall_mem (by decide +kernel)) _ c status checked inconsistent).2.2⟩

end TemporalNetwork
