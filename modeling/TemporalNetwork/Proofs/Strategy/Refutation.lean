import TemporalNetwork.Proofs.Conditional.Schedule
import TemporalNetwork.Proofs.Strategy.Compression
import TemporalNetwork.Proofs.Strategy.Soundness

/-!
An inconsistent verdict excludes every dynamic strategy. A strategy for the network of the user,
compressed to the horizon, justifies the values of the prepared network, and so all values that are
derived from them.
-/

namespace TemporalNetwork

/-- Whether the distance `d` keeps the bound `v`; nothing keeps `−∞`, and everything keeps `+∞`. -/
def Value.Admits (v : Value) (d : ℚ) : Prop := negInf < v ∧ (v = posInf ∨ d ≤ v)

/-- A dynamic execution strategy for a network in which every node occurs in every scenario. -/
structure DynamicStrategy (g : LabeledNetwork) (σ : Timing) : Prop where
  origin : ∀ s, σ s g.reference = 0
  nonneg : ∀ s x, x < g.nodeCount → 0 ≤ σ s x
  keeps : ∀ e slot, g.slot? e = some slot → ∀ l v, (l, v) ∈ slot.payload.values.entries →
    l.hasUnknown = false → ∀ s, l.HoldsIn s → v.Admits (σ s slot.target - σ s slot.source)
  nonanticipating : σ.Nonanticipating (fun m => (g.nodeD m).observed) g.nodeCount

/-- Whether `h` observes what `g` does and holds no ordinary value that `g` does not hold. -/
structure Network.Inherits (g h : LabeledNetwork) : Prop where
  wellFormed : h.WellFormed
  observes : ∀ m, (h.nodeD m).observed = (g.nodeD m).observed
  lettered : ∀ u v f, h.edgeBetween? u v = some f → ∀ c m, (c, m) ∈ f.upper.groups →
    c.isEmpty = false
  values : ∀ u v f, h.edgeBetween? u v = some f → ∀ l w, (l, w) ∈ f.values.entries →
    ∃ e, g.edgeBetween? u v = some e ∧ (l, w) ∈ e.values.entries

namespace Network

variable {g h : LabeledNetwork}

theorem Inherits.refl (wf : g.WellFormed) (lettered : g.Lettered) : g.Inherits g where
  wellFormed := wf
  observes _ := rfl
  lettered u v f joined := by
    obtain ⟨e, slot, stored, _, _, rfl⟩ := wf.edgeBetween?_eq_some_iff.mp joined
    exact lettered e slot stored
  values u v f joined l w mem := ⟨f, joined, mem⟩

/-- The preparation without node labels only takes values away. -/
theorem kept_inherits (g : LabeledNetwork) : WellDefined.Kept false g.Inherits where
  setZ h z kept := ⟨kept.wellFormed.setZ z, kept.observes, kept.lettered, kept.values⟩
  addZ h k id kept added := by
    have edges : ∀ u v, k.edgeBetween? u v = h.edgeBetween? u v := by
      intro u v
      rw [edgeBetween?, findEdge?_addNode kept.wellFormed added, edgeBetween?]
      unfold addNode at added
      split at added
      · cases added
      · cases added
        rfl
    refine ⟨kept.wellFormed.addNode added, fun m => ?_, fun u v f joined => ?_, fun u v f joined => ?_⟩
    · rw [WellDefined.observed_addZ added]
      exact kept.observes m
    · rw [edges] at joined
      exact kept.lettered u v f joined
    · rw [edges] at joined
      exact kept.values u v f joined
  relabel h n label kept := by
    refine ⟨kept.wellFormed.modifyNode n _, fun m => ?_, kept.lettered, kept.values⟩
    rw [WellDefined.observed_relabel]
    exact kept.observes m
  erase h e case label kept := by
    have edges : ∀ u v f, (h.modifyEdge e fun edge => edge.erase case label).edgeBetween? u v = some f →
        ∃ f', h.edgeBetween? u v = some f' ∧ (f = f' ∨ f = f'.erase case label) := by
      intro u v f joined
      obtain ⟨i, found, stored⟩ := Option.bind_eq_some_iff.mp joined
      rw [findEdge?_modifyEdge] at found
      rw [edge?_modifyEdge] at stored
      split at stored
      · obtain ⟨f', stored', rfl⟩ := Option.map_eq_some_iff.mp stored
        exact ⟨f', Option.bind_eq_some_iff.mpr ⟨i, found, stored'⟩, Or.inr rfl⟩
      · exact ⟨f, Option.bind_eq_some_iff.mpr ⟨i, found, stored⟩, Or.inl rfl⟩
    refine ⟨kept.wellFormed.modifyEdge e _, kept.observes, fun u v f joined => ?_,
      fun u v f joined => ?_⟩
    · obtain ⟨f', joined', rfl | rfl⟩ := edges u v f joined
      · exact kept.lettered u v f joined'
      · exact LabeledEdge.lettered_erase (kept.lettered u v f' joined') case label
    · obtain ⟨f', joined', rfl | rfl⟩ := edges u v f joined
      · exact kept.values u v f joined'
      · intro l w mem
        unfold LabeledEdge.erase at mem
        split at mem
        · exact kept.values u v f' joined' l w (ValueMap.mem_erase.mp mem).1
        · exact kept.values u v f' joined' l w mem
  replace on := by cases on

end Network

namespace DynamicStrategy

variable {g h : LabeledNetwork} {σ : Timing} {horizon : Horizon} {ctx : RuleContext}

/-- The strategy for the nodes of the network; other nodes are executed at once. -/
def onNodes (g : LabeledNetwork) (σ : Timing) : Timing := fun s x =>
  if x < g.nodeCount then σ s x else 0

/-- The strategy within the horizon of the prepared network. -/
def compressed (g h : LabeledNetwork) (σ : Timing) : Timing :=
  (onNodes g σ).compress h.nodeCount h.maxWeight

theorem onNodes_nonneg (strategy : DynamicStrategy g σ) (s : Scenario) (x : NodeId) :
    0 ≤ onNodes g σ s x := by
  unfold onNodes
  split
  · rename_i inside
    exact strategy.nonneg s x inside
  · exact le_rfl

theorem onNodes_reference (strategy : DynamicStrategy g σ) (s : Scenario) :
    onNodes g σ s g.reference = 0 := by
  unfold onNodes
  split
  · exact strategy.origin s
  · rfl

theorem onNodes_nonanticipating (strategy : DynamicStrategy g σ) (n : Nat) :
    (onNodes g σ).Nonanticipating (fun m => (g.nodeD m).observed) n := by
  intro s s' x _ shared
  by_cases inside : x < g.nodeCount
  · have time : ∀ s, onNodes g σ s x = σ s x := fun s => if_pos inside
    rw [time] at shared
    rw [time, time]
    refine strategy.nonanticipating s s' x inside fun m p observes early => ?_
    refine shared m p observes ?_
    have inside' : onNodes g σ s m = σ s m := if_pos (WellDefined.lt_of_observed observes)
    rwa [inside']
  · rw [onNodes, onNodes, if_neg inside, if_neg inside]

variable (strategy : DynamicStrategy g σ) (inherits : g.Inherits h) (unique : h.UniqueObservers)

include strategy inherits unique in
theorem strategic : (compressed g h σ).Strategic (fun m => (g.nodeD m).observed) h.nodeCount
    g.reference where
  nonanticipating := by
    refine Timing.compress_nonanticipating (strategy.onNodes_nonanticipating _) ?_ ?_
    · intro m p observes
      rw [← inherits.observes] at observes
      exact WellDefined.lt_of_observed observes
    · exact_mod_cast h.maxWeight_nonneg
  inside m p observes := by
    rw [← inherits.observes] at observes
    exact WellDefined.lt_of_observed observes
  unique m m' p observes observes' := by
    rw [← inherits.observes] at observes observes'
    exact unique m m' p observes observes'
  origin s := by
    refine Timing.compress_of_first fun y _ => ?_
    rw [strategy.onNodes_reference]
    exact strategy.onNodes_nonneg s y

include strategy inherits unique in
theorem fits (known : h.horizon? = .ok horizon) (isReference : ctx.z = g.reference)
    (within : ctx.horizon = horizon.value) (labelless : ctx.withNodeLabels = false)
    (unlinked : ctx.links = []) :
    ctx.Fits (compressed g h σ) (fun m => (g.nodeD m).observed) h.nodeCount := by
  obtain ⟨finite, weight, product⟩ := Network.horizon?_spec known
  have nonneg : (0 : ℚ) ≤ h.maxWeight := by exact_mod_cast h.maxWeight_nonneg
  exact {
    strategic := isReference ▸ strategy.strategic inherits unique
    early := fun _ _ _ => Timing.compress_nonneg nonneg
    late := fun s x _ => by
      have bound : compressed g h σ s x ≤ h.maxWeight * h.nodeCount := Timing.compress_le nonneg
      rw [within, product, weight, Int.cast_mul, Int.cast_natCast]
      exact bound
    finite := within ▸ finite.2
    labelless := labelless
    unlinked := unlinked }

include strategy inherits in
/-- Compression keeps every bound of the prepared network. -/
theorem justifies (wf : g.WellFormed) {u v : NodeId} {f : LabeledEdge} {l : Label} {w : Value}
    (joined : h.edgeBetween? u v = some f) (mem : (l, w) ∈ f.values.entries)
    (known : l.hasUnknown = false) {s : Scenario} (holds : l.HoldsIn s)
    (high : compressed g h σ s v - compressed g h σ s u < (Value.posInf : Value)) :
    compressed g h σ s v - compressed g h σ s u ≤ w := by
  obtain ⟨e, joined', mem'⟩ := inherits.values u v f joined l w mem
  obtain ⟨hu, hv⟩ := wf.lt_of_edgeBetween? joined'
  obtain ⟨hu', hv'⟩ := inherits.wellFormed.lt_of_edgeBetween? joined
  obtain ⟨i, slot, stored, rfl, rfl, rfl⟩ := wf.edgeBetween?_eq_some_iff.mp joined'
  obtain ⟨low, kept⟩ := strategy.keeps i slot stored l w mem' known s holds
  have time : ∀ x < g.nodeCount, onNodes g σ s x = σ s x := fun x inside => if_pos inside
  have nonneg : (0 : ℚ) ≤ h.maxWeight := by exact_mod_cast h.maxWeight_nonneg
  rw [← time _ hu, ← time _ hv] at kept
  rcases kept with rfl | kept
  · exact le_of_lt high
  · rcases lt_trichotomy (onNodes g σ s slot.source) (onNodes g σ s slot.target) with
      later | same | earlier
    · exact le_trans (Timing.compress_of_lt nonneg hu' later).2 kept
    · rw [same, sub_self] at kept
      rw [compressed, Timing.compress_of_eq same, sub_self]
      exact kept
    · have apart := (Timing.compress_of_lt nonneg hv' earlier).1
      change _ ≤ compressed g h σ s slot.source - compressed g h σ s slot.target at apart
      rcases le_or_gt 0 w with positive | negative
      · have wide : (0 : ℚ) ≤ min (h.maxWeight : ℚ)
            (onNodes g σ s slot.source - onNodes g σ s slot.target) := le_min nonneg (by linarith)
        have positive' : (0 : ℚ) ≤ w := by exact_mod_cast positive
        linarith
      · have finite : Value.IsFinite w := ⟨low, lt_trans negative (by decide)⟩
        have weight := Network.neg_le_maxWeight joined mem negative finite
        have weight' : -(w : ℚ) ≤ h.maxWeight := by exact_mod_cast weight
        have wide : -(w : ℚ) ≤ min (h.maxWeight : ℚ)
            (onNodes g σ s slot.source - onNodes g σ s slot.target) := le_min weight' (by linarith)
        linarith

include strategy inherits in
theorem supported (wf : g.WellFormed) (known : h.Known) {z : NodeId}
    (fits : ctx.Fits (compressed g h σ) (fun m => (g.nodeD m).observed) h.nodeCount) :
    h.Supported (compressed g h σ) (fun m => (g.nodeD m).observed) h.nodeCount z where
  nodeCount := rfl
  observes := inherits.observes
  edge u v f joined := by
    obtain ⟨hu, hv⟩ := inherits.wellFormed.lt_of_edgeBetween? joined
    refine ⟨inherits.lettered u v f joined, fun _ l w mem => ?_⟩
    have known' : l.hasUnknown = false := by
      obtain ⟨i, _, stored⟩ := Option.bind_eq_some_iff.mp joined
      rw [← Bool.not_eq_true]
      exact known i f stored l w mem
    refine ⟨fun _ => known', fun s holds => Or.inl ?_⟩
    refine strategy.justifies inherits wf joined mem known' holds ?_
    have finite : (ctx.horizon : ℚ) < (Value.posInf : Value) := by exact_mod_cast fits.finite
    exact lt_of_le_of_lt (fits.distance hu hv).2 finite

end DynamicStrategy

namespace RuleContext.Fits

variable {ctx : RuleContext} {T : Timing} {observed : NodeId → Option Proposition} {n : Nat}
  {h : LabeledNetwork}

theorem supported_addBounds (fits : ctx.Fits T observed n) (wf : h.WellFormed)
    (hz : ctx.z < h.nodeCount) (supported : h.Supported T observed n ctx.z) :
    (h.addBounds ctx.z ctx.horizon false).Supported T observed n ctx.z := by
  have none : Label.empty.hasUnknown = false := rfl
  have early : ∀ m < n, T.Supports observed ctx.z m ctx.z .empty 0 := by
    intro m hm
    refine ⟨fun _ => none, fun s _ => Or.inl ?_⟩
    rw [fits.strategic.origin, Int.cast_zero]
    linarith [fits.early s m hm]
  have late : ∀ m < n, T.Supports observed ctx.z ctx.z m .empty ctx.horizon := by
    intro m hm
    refine ⟨fun _ => none, fun s _ => Or.inl ?_⟩
    rw [fits.strategic.origin]
    linarith [fits.late s m hm]
  -- One node gets two values; the bounds are these, node by node.
  have bound : ∀ (k : LabeledNetwork) (m : NodeId), k.WellFormed → k.Supported T observed n ctx.z →
      ctx.z < k.nodeCount → m < k.nodeCount →
      (k.boundNode ctx.z ctx.horizon .empty m).WellFormed ∧
        (k.boundNode ctx.z ctx.horizon .empty m).nodeCount = k.nodeCount ∧
        (k.boundNode ctx.z ctx.horizon .empty m).Supported T observed n ctx.z := by
    intro k m wf' supported' hz' hm
    have hm' : m < n := supported'.nodeCount ▸ hm
    obtain ⟨grows, _, _⟩ := Network.mergeInto_spec wf' hm hz' .internal .empty .empty 0
    have hz'' := grows.nodeCount ▸ hz'
    have hm'' := grows.nodeCount ▸ hm
    obtain ⟨grows', _, _⟩ := Network.mergeInto_spec grows.wellFormed hz'' hm'' .internal .empty
      .empty ctx.horizon
    refine ⟨grows'.wellFormed, grows'.nodeCount.trans grows.nodeCount, ?_⟩
    have first : (k.mergeInto .internal m ctx.z .empty .empty 0).1.Supported T observed n ctx.z :=
      supported'.mergeInto wf' hm hz' .internal fun _ _ => early m hm'
    exact first.mergeInto grows.wellFormed hz'' hm'' .internal fun _ _ => late m hm'
  refine (List.foldlRecOn (motive := fun k : LabeledNetwork => k.WellFormed ∧
    k.nodeCount = h.nodeCount ∧ k.Supported T observed n ctx.z) _ _ ⟨wf, rfl, supported⟩ ?_).2.2
  rintro k ⟨wf', count, supported'⟩ m mem
  have hm : m < h.nodeCount := List.mem_range.mp (List.mem_filter.mp mem).1
  obtain ⟨wf'', count', supported''⟩ := bound k m wf' supported' (count ▸ hz) (count ▸ hm)
  exact ⟨wf'', count'.trans count, supported''⟩

/-- Propagation keeps the values supported and meets no negative loop. -/
theorem keeps (fits : ctx.Fits T observed n) (start : LabeledNetwork) :
    Propagation.Keeps ctx start (Network.Supported T observed n ctx.z)
      (fun halt => ∀ loop, halt ≠ .negativeLoop loop) where
  perform a p possible wf _ supported := by
    unfold Ends
    rw [Application.perform_eq]
    exact Propagation.apply_supported _ _ p wf supported (Application.inRange wf)
      (Application.supported fits wf supported a possible)
  timeout := nofun
  cycleBoundExceeded := nofun

end RuleContext.Fits

/-- An inconsistent verdict is right: no dynamic strategy keeps the values of the network. -/
theorem no_strategy_of_inconsistent (g : LabeledNetwork) (wf : g.WellFormed) (lettered : g.Lettered)
    (options : CheckerOptions) (labelless : options.withNodeLabels = false) (rules : RuleSet)
    (stops : Polls) (c : CstnChecker) (status : CheckStatus)
    (checked : (CstnChecker.ofNetwork g options rules).check stops = (c, .ok status))
    (inconsistent : status.outcome = .inconsistent) : ¬ ∃ σ, DynamicStrategy g σ := by
  rintro ⟨σ, strategy⟩
  obtain ⟨c₀, z, horizon, ready, hz₀, hh₀, _, _, _, negative⟩ :=
    CstnChecker.propagation_of_check checked
  obtain ⟨loop, p, run⟩ := negative inconsistent
  obtain ⟨z', horizon', d, prepared, initial⟩ := CstnChecker.prepare_of_initialise ready
  have network : c₀.network = d.network := by rw [initial]
  have labelless' : c₀.options.withNodeLabels = false := by rw [initial, labelless]
  rw [initial] at hz₀ hh₀
  cases hz₀
  cases hh₀
  rw [labelless] at prepared
  obtain ⟨h, inherits, wf', hz, unique, isReference, known, computed, bounded⟩ :=
    (CstnChecker.prepare_ends (Network.kept_inherits g) wf (.refl wf lettered)).of_ok prepared
  rw [← network] at bounded
  have fits : (c₀.context z horizon).Fits _ _ _ :=
    strategy.fits inherits unique computed isReference rfl labelless' rfl
  have supported := fits.supported_addBounds wf' hz
    (strategy.supported inherits wf (known rfl) fits)
  have finite := (Network.horizon?_spec computed).1
  obtain ⟨wf'', _, _⟩ := Network.addBounds_spec wf' hz horizon.value (ne_of_lt finite.2) false
  rw [← bounded] at wf''
  refine (Propagation.toFixpoint_ends (fits.keeps c₀.network) (fun _ mem => by cases mem) stops _
    wf'' ?_).of_error run loop rfl
  rw [bounded]
  exact supported

/-- A node that has to hurry or to wait, as an observation made too late tells. -/
def hastyNetwork : LabeledNetwork :=
  (Network.build
    [.named "Z", { Node.named "P" with observed := some (.last 31) }, .named "X"]
    [("look", 1, 0, .ofValue .ordinary .empty (-5)),
      ("hurry", 0, 2, .ofValue .ordinary (.ofLiteral ⟨.last 31, .straight⟩) 2),
      ("wait", 2, 0, .ofValue .ordinary (.ofLiteral ⟨.last 31, .negated⟩) (-3))]).getD .empty

theorem hastyNetwork_lettered : hastyNetwork.Lettered := by
  intro e slot stored c m mem
  have none : ∀ s ∈ hastyNetwork.slots.toList, ∀ t, s = some t → t.payload.upper.groups = [] := by
    decide +kernel
  rw [none _ (Network.mem_slots stored) slot rfl] at mem
  cases mem

theorem no_strategy_of_inconsistent_hasty :
    (∃ c status, (CstnChecker.ofNetwork hastyNetwork ⟨none, true, false, .rul2020⟩ .restricted).check
      .never = (c, .ok status) ∧ status.outcome = .inconsistent) ∧
      ¬ ∃ σ, DynamicStrategy hastyNetwork σ := by
  have answered : ((CstnChecker.ofNetwork hastyNetwork ⟨none, true, false, .rul2020⟩
      .restricted).check .never).2.toOption.map CheckStatus.outcome = some .inconsistent := by
    decide +kernel
  cases checked : (CstnChecker.ofNetwork hastyNetwork ⟨none, true, false, .rul2020⟩
      .restricted).check .never with
  | mk c answer =>
    rw [checked] at answered
    cases answer with
    | error e => cases answered
    | ok status =>
      have inconsistent : status.outcome = .inconsistent := Option.some.inj answered
      exact ⟨⟨c, status, rfl, inconsistent⟩, no_strategy_of_inconsistent hastyNetwork
        (Network.wellFormed_getD_build _ _) hastyNetwork_lettered _ rfl _ _ c status checked
        inconsistent⟩

end TemporalNetwork
