import Mathlib.Tactic.Linarith
import TemporalNetwork.Proofs.Conditional.Initialised
import TemporalNetwork.Proofs.Conditional.Monotone
import TemporalNetwork.Proofs.Conditional.TowardsZ

/-!
The scale of a propagation: `−∞` and the values from the negated horizon up. The preparation of a
network brings no values, the horizon is large enough for all of them, and the rules of the consistency
check stay on the scale: below it a sum is clamped, and an observation never lowers a value.
-/

namespace TemporalNetwork

/-- Whether a value is `−∞` or not below the negated horizon. -/
def Value.OnScale (w horizon : Value) : Prop := w = negInf ∨ -horizon ≤ w ∧ w ≤ posInf

theorem joins_caseValues (Q : CaseLabel → Value → Prop) : Joins fun c _ w => Q c w :=
  fun _ _ _ _ _ _ first second => max_rec (fun _ => first) fun _ => second

theorem joins_values (Q : Value → Prop) : Joins fun _ _ w => Q w := joins_caseValues fun _ => Q

theorem Value.OnScale.inRange {horizon w : Value} (scaled : OnScale w horizon)
    (finite : horizon < posInf) : w.InRange := by
  unfold Value.posInf at finite
  rcases scaled with rfl | ⟨lower, upper⟩
  · exact ⟨le_rfl, by decide⟩
  · have : (-2147483648 : Int) ≤ w := by linarith
    exact ⟨this, upper⟩

theorem Value.OnScale.neg_le {horizon w : Value} (scaled : OnScale w horizon)
    (finite : w.IsFinite) : -horizon ≤ w :=
  (scaled.resolve_left (ne_of_gt finite.1)).1

namespace Network

variable {g : LabeledNetwork} {Q : EdgeId → CaseLabel → Value → Prop} {w : Value}

theorem mem_allValues : w ∈ g.allValues ↔
    ∃ e slot c l, g.slot? e = some slot ∧ (c, l, w) ∈ slot.payload.allValues := by
  simp only [allValues, List.mem_flatMap, mem_edgeIds, edge?]
  constructor
  · rintro ⟨e, _, mem⟩
    cases stored : g.slot? e with
    | none =>
      rw [stored] at mem
      cases mem
    | some slot =>
      rw [stored] at mem
      obtain ⟨⟨c, l, _⟩, here, rfl⟩ := List.mem_map.mp mem
      exact ⟨e, slot, c, l, stored, here⟩
  · rintro ⟨e, slot, c, l, stored, here⟩
    refine ⟨e, by rw [stored]; rfl, ?_⟩
    rw [stored]
    exact List.mem_map.mpr ⟨(c, l, w), here, rfl⟩

/-- Whether the property holds of every value, with its case label, on the edge of a number. -/
def EachValue (Q : EdgeId → CaseLabel → Value → Prop) (g : LabeledNetwork) : Prop :=
  ∀ e slot, g.slot? e = some slot → slot.payload.EveryValue fun c _ w => Q e c w

theorem forall_mem_allValues_iff {Q : Value → Prop} :
    (∀ w ∈ g.allValues, Q w) ↔ g.EachValue fun _ _ => Q :=
  ⟨fun all e slot stored c l w mem => all w (mem_allValues.mpr ⟨e, slot, c, l, stored, mem⟩),
    fun each w mem =>
      have ⟨e, slot, c, l, stored, here⟩ := mem_allValues.mp mem
      each e slot stored c l w here⟩

theorem EachValue.everyValue {Q : Value → Prop} (each : g.EachValue fun _ _ => Q) (wf : g.WellFormed) :
    g.EveryValue fun _ _ _ _ w => Q w := by
  intro u v e joined c l w mem
  obtain ⟨i, slot, stored, rfl, rfl, rfl⟩ := wf.edgeBetween?_eq_some_iff.mp joined
  exact each i slot stored c l w mem

theorem EveryValue.eachValue {Q : Value → Prop} (every : g.EveryValue fun _ _ _ _ w => Q w)
    (wf : g.WellFormed) : g.EachValue fun _ _ => Q := fun e slot stored =>
  every slot.source slot.target slot.payload
    (wf.edgeBetween?_eq_some_iff.mpr ⟨e, slot, stored, rfl, rfl, rfl⟩)

theorem EachValue.of_slots {h : LabeledNetwork} (each : g.EachValue Q) (same : h.slots = g.slots) :
    h.EachValue Q := by
  intro e slot stored
  rw [slot?, same] at stored
  exact each e slot stored

theorem EachValue.modifyEdge {e : EdgeId} {f : LabeledEdge → LabeledEdge} (each : g.EachValue Q)
    (step : ∀ edge : LabeledEdge, (edge.EveryValue fun c _ w => Q e c w) →
      (f edge).EveryValue fun c _ w => Q e c w) : (g.modifyEdge e f).EachValue Q := by
  intro i slot stored
  rw [slot?_modifyEdge] at stored
  split at stored
  · rename_i here
    obtain ⟨old, stored', rfl⟩ := Option.map_eq_some_iff.mp stored
    exact here ▸ step old.payload (here ▸ each i old stored')
  · exact each i slot stored

end Network

theorem LabeledEdge.EveryValue.erase_values {P : CaseLabel → Label → Value → Prop} {e : LabeledEdge}
    (every : e.EveryValue P) (case : CaseLabel) (label : Label) :
    (e.erase case label).EveryValue P := by
  obtain ⟨ordinary, upper⟩ := everyValue_iff.mp every
  unfold LabeledEdge.erase
  split
  · exact everyValue_iff.mpr
      ⟨fun l w mem => ordinary l w (ValueMap.mem_erase.mp mem).1, upper⟩
  · refine everyValue_iff.mpr ⟨ordinary, fun c m group l w mem => ?_⟩
    obtain ⟨m', group', kept, _⟩ := UpperCaseMap.mem_mapGroups.mp group
    dsimp only at kept
    split at kept
    · rw [← kept] at mem
      exact upper c m' group' l w (ValueMap.mem_erase.mp mem).1
    · rw [← kept] at mem
      exact upper c m' group' l w mem

namespace WellDefined

open Preparation

variable {withNodeLabels : Bool} {d : Draft LabeledEdge} {Q : EdgeId → CaseLabel → Value → Prop}

theorem repairValue_values (each : d.network.EachValue Q) (e : EdgeId) (case : CaseLabel)
    (label : Label) {value : Value} (own : Q e case value) :
    Ends (repairValue withNodeLabels e case label value) d (fun _ d' => d'.network.EachValue Q)
      fun _ _ => True := by
  unfold repairValue
  rw [ends_bind, ends_network]
  cases d.network.slot? e with
  | none => exact each
  | some slot =>
    have erased : (d.network.modifyEdge e fun edge => edge.erase case label).EachValue Q :=
      each.modifyEdge fun _ every => every.erase_values case label
    dsimp only
    split
    · exact each
    · exact trivial
    · rw [ends_bind, ends_modifyNetwork, ends_noteFix]
      exact erased
    · rw [ends_bind, ends_modifyNetwork, ends_noteFix]
      exact erased
    · rw [ends_bind, ends_modifyNetwork, ends_noteFix]
      exact each.modifyEdge fun _ every =>
        (every.erase_values case label).merge (joins_caseValues (Q e)) own

theorem repairEdges_values (each : d.network.EachValue Q) (z : NodeId) :
    Ends (do
      (← network).edgeIds.forM (repairEdge withNodeLabels)
      return z) d (fun _ d' => d'.network.EachValue Q) fun _ _ => True := by
  rw [ends_bind, ends_network]
  refine (ends_forM (fun _ (d' : Draft LabeledEdge) => d'.network.EachValue Q)
    (fun e _ d' each => ?_) _ _ each).bind fun _ _ repaired => repaired
  unfold repairEdge
  rw [ends_bind, ends_network]
  cases stored : d'.network.edge? e with
  | none => exact each
  | some edge =>
    -- The values still to be repaired are among those that the edge had at first.
    refine (ends_forM (fun rest (d'' : Draft LabeledEdge) =>
      (∀ x ∈ rest, Q e x.1 x.2.2) ∧ d''.network.EachValue Q) ?_ _ _ ⟨?_, each⟩).mono
      (fun _ _ => And.right) fun _ _ => id
    · rintro ⟨case, label, value⟩ rest d'' ⟨own, each'⟩
      exact (repairValue_values each' e case label (own _ List.mem_cons_self)).mono
        (fun _ _ kept => ⟨fun x mem => own x (List.mem_cons_of_mem _ mem), kept⟩) fun _ _ => id
    · rintro ⟨c, l, w⟩ mem
      obtain ⟨slot, here, rfl⟩ := Option.map_eq_some_iff.mp stored
      exact each e slot here c l w mem

theorem prepare_values (each : d.network.EachValue Q) :
    Ends (prepare withNodeLabels) d (fun _ d' => d'.network.EachValue Q) fun _ _ => True := by
  have repairs : ∀ (z : NodeId) (d' : Draft LabeledEdge), d'.network.slots = d.network.slots →
      Ends (do
        (← network).edgeIds.forM (repairEdge withNodeLabels)
        return z) d' (fun _ d' => d'.network.EachValue Q) fun _ _ => True :=
    fun z d' same => repairEdges_values (each.of_slots same) z
  unfold prepare
  refine ensureZ_starts.bind fun z d₁ ⟨_, slots₁, _⟩ => ?_
  refine (clearZLabel_starts z).bind fun _ d₂ ⟨_, slots₂, _, _⟩ => ?_
  rw [ends_bind, ends_network]
  refine (failIf_ends _).bind fun _ d₃ ⟨same, _⟩ => ?_
  subst same
  have slots := slots₂.trans slots₁
  -- Closing the node labels does not touch the edges.
  cases withNodeLabels with
  | false => exact repairs z d₃ slots
  | true =>
    rw [if_pos rfl, ends_bind, ends_network]
    refine (ends_forM (fun _ (d' : Draft LabeledEdge) => d'.network.slots = d.network.slots)
      (fun n _ d' same => ?_) _ _ slots).bind fun _ d₄ slots' => ?_
    · unfold closeNodeLabel
      rw [ends_bind, ends_network]
      dsimp only
      split
      · exact trivial
      · exact trivial
      · split
        · rw [ends_bind, ends_noteFix, ends_modifyNetwork]
          exact same
        · exact same
    · rw [ends_bind, ends_network]
      refine (failIf_ends _).bind fun _ d₅ ⟨same, _⟩ => ?_
      subst same
      exact repairs z d₅ slots'

end WellDefined

namespace Network

variable {g : LabeledNetwork} {z : NodeId} {horizon : Horizon}

theorem onScale_of_horizon? (known : g.horizon? = .ok horizon) (inhabited : 0 < g.nodeCount)
    {u v : NodeId} {e : LabeledEdge} {x : CaseLabel × Label × Value}
    (joined : g.edgeBetween? u v = some e) (mem : x ∈ e.allValues) (inRange : x.2.2.InRange) :
    x.2.2.OnScale horizon.value := by
  obtain ⟨finite, weight, product⟩ := horizon?_spec known
  have heavy : horizon.maxWeight ≤ horizon.value := by
    have one : (1 : Int) ≤ (g.nodeCount : Int) := by exact_mod_cast inhabited
    rw [product]
    exact le_mul_of_one_le_right (weight ▸ g.maxWeight_nonneg) one
  by_cases lowest : x.2.2 = Value.negInf
  · exact Or.inl lowest
  · refine Or.inr ⟨?_, inRange.2⟩
    by_cases negative : x.2.2 < 0
    · have small := neg_le_maxWeight_of_mem joined mem negative
        ⟨lt_of_le_of_ne inRange.1 (Ne.symm lowest), lt_trans negative (by decide)⟩
      rw [← weight] at small
      linarith
    · linarith [horizon?_nonneg known]

end Network

namespace CstnChecker

variable {g : LabeledNetwork} {options : CheckerOptions} {rules : RuleSet} {c : CstnChecker}

theorem initialise_values {Q : Value → Prop} (wf : g.WellFormed) (all : ∀ w ∈ g.allValues, Q w)
    (ready : (ofNetwork g options rules).initialise = (c, .ok ())) :
    ∃ (h : LabeledNetwork) (z : NodeId) (horizon : Horizon), h.WellFormed ∧ z < h.nodeCount ∧
      (h.EachValue fun _ _ => Q) ∧ h.horizon? = .ok horizon ∧ c.z = some z ∧
      c.horizon = some horizon ∧ c.options = options ∧ c.rules = rules ∧
      c.network = h.addBounds z horizon.value options.withNodeLabels := by
  obtain ⟨z, horizon, d, run, rfl⟩ := prepare_of_initialise ready
  have ends : Ends (prepare options.withNodeLabels) ⟨g, []⟩ (fun r d' => ∃ h : LabeledNetwork,
      h.WellFormed ∧ r.1 < h.nodeCount ∧ (h.EachValue fun _ _ => Q) ∧ h.horizon? = .ok r.2 ∧
        d'.network = h.addBounds r.1 r.2.value options.withNodeLabels) fun _ _ => True := by
    unfold prepare
    refine (((WellDefined.prepare_ends (d := ⟨g, []⟩) WellDefined.kept_wellFormed wf).and
      (WellDefined.prepare_values (d := ⟨g, []⟩)
        (Network.forall_mem_allValues_iff.mp all))).mono (fun _ _ => id)
        fun _ _ _ => trivial).bind ?_
    rintro z d₁ ⟨⟨wf', inside, _⟩, all'⟩
    rw [ends_bind, Preparation.ends_network]
    split
    · exact trivial
    · split
      · exact trivial
      · rename_i horizon computed
        rw [ends_bind, Preparation.ends_modifyNetwork]
        exact ⟨d₁.network, wf', inside, all', computed, rfl⟩
  obtain ⟨h, wf', inside, all', known, bounded⟩ := ends.of_ok run
  exact ⟨h, z, horizon, wf', inside, all', known, rfl, rfl, rfl, rfl, bounded⟩

end CstnChecker

section Deriving

variable {ctx : RuleContext} {g : LabeledNetwork} {Q : Value → Prop} {t : Value}

/-- What a rule derives is a value that is stored, the larger of two, `−∞`, or the clamped sum of two. -/
theorem RuleContext.derived_value (lowest : Q Value.negInf)
    (sums : ∀ u v s, Q u → Q v → Value.sum? u v = some s → Q (ctx.clamp s))
    (every : g.EveryValue fun _ _ _ _ w => Q w) {x w : NodeId} {case : CaseLabel} {l : Label}
    (derived : ctx.Derives g x w (.value case l t)) : Q t := by
  cases derived with
  | strip _ _ joined stored made =>
    obtain ⟨_, _, _, c, _, _, same⟩ := stripObserved?_eq_some_iff.mp made
    cases same
    exact every _ _ _ joined _ _ _ stored
  | observe _ _ _ _ joined stored joined' stored' _ made =>
    obtain ⟨_, _, _, c, _, _, same⟩ := observeValue?_eq_some_iff.mp made
    cases same
    have here := every _ _ _ joined _ _ _ stored
    have there := every _ _ _ joined' _ _ _ stored'
    exact max_rec (fun _ => here) fun _ => there
  | path _ _ _ joined stored joined' stored' made =>
    have first := every _ _ _ joined _ _ _ stored
    have second := every _ _ _ joined' _ _ _ stored'
    obtain ⟨_, ⟨_, overflow⟩ | ⟨s, c, sum, _, ends⟩⟩ := propagateValues?_eq_some_iff.mp made
    · cases overflow
    · rcases ends with ⟨_, loop⟩ | ⟨_, same⟩
      · obtain ⟨_, _, ⟨_, same⟩ | ⟨_, same⟩⟩ := closeLoop?_eq_some_iff.mp loop
        · cases same
          exact lowest
        · cases same
      · cases same
        exact sums _ _ s first second sum

theorem RuleContext.clamp_onScale {u v s : Value} (sum : Value.sum? u v = some s) :
    (ctx.clamp s).OnScale ctx.horizon :=
  (PlainProblem.clamp_cases s).imp_right fun above => ⟨above, (clamp_inRange sum).2⟩

theorem RuleContext.derived_onScale (unlinked : ctx.links = []) (wf : g.WellFormed)
    (scaled : g.EveryValue fun _ _ _ _ w => w.OnScale ctx.horizon) {a : Application}
    (possible : a.Possible ctx) {case : CaseLabel} {l : Label}
    (derived : .value case l t ∈ a.derivations ctx g) : t.OnScale ctx.horizon :=
  derived_value (Q := fun w => w.OnScale ctx.horizon) (Or.inl rfl)
    (fun _ _ _ _ _ sum => clamp_onScale sum) scaled (derives_of_mem unlinked wf possible derived)

/-- What the rules keep of the values of a network holds in every state of a trace. -/
theorem Trace.everyValue (lowest : Q Value.negInf)
    (sums : ∀ u v s, Q u → Q v → Value.sum? u v = some s → Q (ctx.clamp s))
    (unlinked : ctx.links = []) {start q : Progress} {states : List Progress} {merges : List Merge}
    (wf : start.network.WellFormed) (every : start.network.EveryValue fun _ _ _ _ w => Q w)
    (trace : Trace ctx start states merges q) :
    ∀ p ∈ q :: states, p.network.EveryValue fun _ _ _ _ w => Q w := by
  induction trace with
  | start => simpa using every
  | @count states merges p q _ network _ ih =>
    exact List.forall_mem_cons.mpr ⟨network ▸ ih p List.mem_cons_self, ih⟩
  | @merge states merges p k case label value a before possible earlier derived ih =>
    refine List.forall_mem_cons.mpr ⟨?_, ih⟩
    have passed := before.accumulates wf
    have present := passed.wellFormed p List.mem_cons_self
    have inRange := passed.inRange earlier derived
    have new := RuleContext.derived_value lowest sums (ih k earlier)
      (RuleContext.derives_of_mem unlinked (passed.wellFormed k earlier) possible derived)
    rcases p.network_merge (a.rule ctx) a.source a.target case label value with same | merged
    · rw [same]
      exact ih p List.mem_cons_self
    · rw [merged]
      exact (ih p List.mem_cons_self).mergeInto (fun _ _ => joins_values Q) present inRange.1
        inRange.2 .derived new

end Deriving

section Scaled

variable {g : LabeledNetwork} {options : CheckerOptions} {rules : RuleSet} {c : CstnChecker}
  {z : NodeId} {horizon : Horizon}

theorem Network.EveryValue.addBounds_values {Q : Value → Prop} {withNodeLabels : Bool}
    {horizon : Value} (every : g.EveryValue fun _ _ _ _ w => Q w) (wf : g.WellFormed)
    (hz : z < g.nodeCount) (early : Q 0) (late : Q horizon) :
    (g.addBounds z horizon withNodeLabels).EveryValue fun _ _ _ _ w => Q w :=
  every.addBounds (fun _ _ => (joins_values Q).joinsTwins) wf hz (fun _ _ _ => early)
    fun _ _ _ => late

/-- A network whose values are on the scale of its horizon, and whose nodes are bounded by it. -/
structure Network.Scaled (g : LabeledNetwork) (withNodeLabels : Bool) (z : NodeId)
    (horizon : Value) : Prop where
  wellFormed : g.WellFormed
  inside : z < g.nodeCount
  nonneg : 0 ≤ horizon
  finite : horizon < Value.posInf
  values : g.EveryValue fun _ _ _ _ w => w.OnScale horizon
  bounds : ∀ n < g.nodeCount, n ≠ z → g.Bounds withNodeLabels z horizon n

theorem CstnChecker.scaled_of_initialise (wf : g.WellFormed)
    (inRange : ∀ w ∈ g.allValues, w.InRange)
    (ready : (ofNetwork g options rules).initialise = (c, .ok ())) (hz : c.z = some z)
    (hh : c.horizon = some horizon) :
    c.network.Scaled options.withNodeLabels z horizon.value := by
  obtain ⟨h, z', horizon', wf', inside, inRange', known, hz', hh', _, _, bounded⟩ :=
    initialise_values wf inRange ready
  obtain rfl := Option.some.inj (hz.symm.trans hz')
  obtain rfl := Option.some.inj (hh.symm.trans hh')
  obtain ⟨finite, _, _⟩ := Network.horizon?_spec known
  have nonneg := Network.horizon?_nonneg known
  obtain ⟨wf'', grows, bounds⟩ := Network.addBounds_spec wf' inside horizon.value (ne_of_lt finite.2)
    options.withNodeLabels
  have values : h.EveryValue fun _ _ _ _ w => w.OnScale horizon.value := fun u v e joined c l w mem =>
    Network.onScale_of_horizon? known (Nat.zero_lt_of_lt inside) (x := (c, l, w)) joined mem
      (inRange'.everyValue wf' u v e joined c l w mem)
  rw [bounded]
  exact {
    wellFormed := wf''
    inside := grows.nodeCount ▸ inside
    nonneg := nonneg
    finite := finite.2
    values := values.addBounds_values wf' inside (Or.inr ⟨Int.neg_nonpos_of_nonneg nonneg, by decide⟩)
      (Or.inr ⟨by linarith, finite.2.le⟩)
    bounds := fun n hn apart => bounds n (grows.nodeCount ▸ hn) apart }

theorem Propagation.performs_scaled {ctx : RuleContext} (unlinked : ctx.links = [])
    (start : LabeledNetwork) : Performs ctx start
      (Network.EveryValue fun _ _ _ _ w => w.OnScale ctx.horizon) Halt.Derived :=
  performs_values
    (fun _ _ _ wf hu hv scaled _ _ _ new =>
      scaled.mergeInto (fun _ _ => joins_values fun w => w.OnScale ctx.horizon) wf hu hv .derived new)
    fun _ _ possible wf _ scaled _ _ _ derived =>
      RuleContext.derived_onScale unlinked wf scaled possible derived

theorem Network.Scaled.fixpoint {ctx : RuleContext} {withNodeLabels : Bool}
    (unlinked : ctx.links = []) {p q : Progress} {stops : Polls} {cycleBound : Nat}
    (scaled : p.network.Scaled withNodeLabels z ctx.horizon)
    (run : (Propagation.toFixpoint ctx stops cycleBound).run p = .ok () q) :
    q.network.Scaled withNodeLabels z ctx.horizon := by
  obtain ⟨wf, grows, values, _⟩ := (Propagation.toFixpoint_ends
    (Propagation.performs_scaled unlinked p.network).keeps
    (Propagation.linksFunctional_of_no_links unlinked) stops cycleBound scaled.wellFormed
    scaled.values).of_ok run
  exact {
    wellFormed := wf
    inside := grows.nodeCount ▸ scaled.inside
    nonneg := scaled.nonneg
    finite := scaled.finite
    values := values
    bounds := fun n hn apart => grows.bounds (scaled.bounds n (grows.nodeCount ▸ hn) apart) }

theorem CstnChecker.horizon_of_check {stops : Polls} {answer : Except Failure CheckStatus}
    {c₀ : CstnChecker} (ready : (ofNetwork g options rules).initialise = (c₀, .ok ()))
    (checked : (ofNetwork g options rules).check stops = (c, answer)) : c.horizon = c₀.horizon := by
  unfold check checkCounting at checked
  rw [if_neg (by simp [ofNetwork, Stage.isFinished]), ready] at checked
  dsimp only at checked
  split at checked
  · split at checked <;> cases checked <;> rfl
  · cases checked
    rfl

/-- A network that has been found consistent is on the scale of the horizon. -/
theorem CstnChecker.scaled_of_consistent (wf : g.WellFormed)
    (inRange : ∀ w ∈ g.allValues, w.InRange) {stops : Polls} {status : CheckStatus}
    (checked : (ofNetwork g options rules).check stops = (c, .ok status))
    (consistent : status.outcome = .consistent) :
    ∃ z horizon, c.z = some z ∧ c.horizon = some horizon ∧
      c.network.Scaled options.withNodeLabels z horizon.value := by
  obtain ⟨c₀, z, horizon, ready, hz₀, hh₀, hz, options', fixpoint, _⟩ := propagation_of_check checked
  obtain ⟨p, run, same⟩ := fixpoint consistent
  have scaled := scaled_of_initialise wf inRange ready hz₀ hh₀
  refine ⟨z, horizon, hz, (horizon_of_check ready checked).trans hh₀, same ▸ ?_⟩
  refine Network.Scaled.fixpoint rfl ?_ run
  exact scaled

end Scaled

end TemporalNetwork
