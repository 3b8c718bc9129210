import Mathlib.Tactic.Linarith
import TemporalNetwork.Proofs.Conditional.Fixpoint
import TemporalNetwork.Proofs.Conditional.Verdict
import TemporalNetwork.Proofs.Values.Bound

/-!
A consistent verdict comes with schedules. In a scenario, the least value on the edge from a node to Z
that holds there, negated, is a time for the node. A fixpoint of labelled propagation bounds these
values by each other, so the times satisfy every constraint of the scenario.
-/

namespace TemporalNetwork

namespace Label

variable {s a b : Label}

theorem IsComplete.hasUnknown_of_subsumes (complete : s.IsComplete) (h : s.subsumes a = true) :
    a.hasUnknown = false := by
  rw [← Bool.not_eq_true, hasUnknown_iff]
  rintro ⟨p, stated⟩
  have here := subsumes_iff.mp h p _ stated
  rcases complete p with straight | negated
  · rw [straight] at here
    cases here
  · rw [negated] at here
    cases here

theorem unknowns_toList_eq_nil (known : a.hasUnknown = false) : a.unknowns.toList = [] := by
  rw [List.eq_nil_iff_forall_not_mem]
  intro p mem
  rw [PropositionSet.mem_toList, contains_unknowns, decide_eq_true_eq] at mem
  have unknown : a.hasUnknown = true := hasUnknown_iff.mpr ⟨p, mem⟩
  rw [known] at unknown
  cases unknown

end Label

namespace RuleContext

variable {ctx : RuleContext} {s a b : Label}

theorem dropChildrenOfUnknown_of_known (known : a.hasUnknown = false) :
    ctx.dropChildrenOfUnknown a = a := by
  unfold dropChildrenOfUnknown
  rw [Label.unknowns_toList_eq_nil known]
  split
  · exact Label.eraseAll_empty a
  · rfl

theorem combine?_of_subsumes (complete : s.IsComplete) (mayDiffer : Bool)
    (ha : s.subsumes a = true) (hb : s.subsumes b = true) :
    ctx.combine? mayDiffer a b = some (a.blend b) := by
  have known := complete.hasUnknown_of_subsumes (Label.subsumes_blend ha hb)
  unfold combine?
  rw [complete.hasUnknown_of_subsumes ha, complete.hasUnknown_of_subsumes hb,
    Label.and?_of_subsumes ha hb]
  simp [dropChildrenOfUnknown_of_known known]

end RuleContext

namespace ValueMap

variable {m : ValueMap} {s : Label} {d : Value}

theorem minSubsumed?_eq_some_iff : m.minSubsumed? s = some d ↔
    (∃ l, (l, d) ∈ m.entries ∧ s.subsumes l = true) ∧
      ∀ l v, (l, v) ∈ m.entries → s.subsumes l = true → d ≤ v := by
  unfold minSubsumed?
  rw [List.min?_eq_some_iff]
  simp only [List.mem_map, List.mem_filter, Prod.exists, exists_eq_right, forall_exists_index,
    and_imp]
  exact and_congr_right fun _ => forall_comm

theorem exists_minSubsumed? {l : Label} {v : Value} (mem : (l, v) ∈ m.entries)
    (holds : s.subsumes l = true) : ∃ d, m.minSubsumed? s = some d := by
  rw [← Option.ne_none_iff_exists']
  intro absent
  unfold minSubsumed? at absent
  rw [List.min?_eq_none_iff, List.map_eq_nil_iff, List.filter_eq_nil_iff] at absent
  exact absent (l, v) mem holds

end ValueMap

/-- Whether the edge from `u` to `v` holds the value `x` in the scenario `s`. -/
def Network.HoldsIn (g : LabeledNetwork) (s : Label) (u v : NodeId) (x : Value) : Prop :=
  ∃ e l, g.edgeBetween? u v = some e ∧ (l, x) ∈ e.values.entries ∧ s.subsumes l = true

/-- Whether the edge from `u` to `v` holds the value `x` for the letters `case` in the scenario `s`. -/
def Network.HoldsCase (g : LabeledNetwork) (s : Label) (case : CaseLabel) (u v : NodeId)
    (x : Value) : Prop :=
  ∃ e l, g.edgeBetween? u v = some e ∧ (case, l, x) ∈ e.allValues ∧ s.subsumes l = true

/-- Whether `d` is the least value of the edge from `u` to `v` in the scenario `s`. -/
def Network.IsLeast (g : LabeledNetwork) (s : Label) (u v : NodeId) (d : Value) : Prop :=
  ∃ e, g.edgeBetween? u v = some e ∧ e.values.minSubsumed? s = some d

namespace Network

variable {g h : LabeledNetwork} {s : Label} {u v : NodeId} {x d : Value}

theorem HoldsIn.holdsCase (holds : g.HoldsIn s u v x) : g.HoldsCase s .empty u v x := by
  obtain ⟨e, l, joined, mem, sub⟩ := holds
  exact ⟨e, l, joined, List.mem_append_left _ (List.mem_map.mpr ⟨(l, x), mem, rfl⟩), sub⟩

theorem HoldsIn.exists_isLeast (holds : g.HoldsIn s u v x) : ∃ d, g.IsLeast s u v d := by
  obtain ⟨e, l, joined, mem, sub⟩ := holds
  obtain ⟨d, least⟩ := ValueMap.exists_minSubsumed? mem sub
  exact ⟨d, e, joined, least⟩

theorem IsLeast.holdsIn (least : g.IsLeast s u v d) : g.HoldsIn s u v d := by
  obtain ⟨e, joined, min⟩ := least
  obtain ⟨l, mem, sub⟩ := (ValueMap.minSubsumed?_eq_some_iff.mp min).1
  exact ⟨e, l, joined, mem, sub⟩

theorem IsLeast.le (least : g.IsLeast s u v d) (holds : g.HoldsIn s u v x) : d ≤ x := by
  obtain ⟨e, joined, min⟩ := least
  obtain ⟨e', l, joined', mem, sub⟩ := holds
  rw [joined] at joined'
  cases joined'
  exact (ValueMap.minSubsumed?_eq_some_iff.mp min).2 l x mem sub

theorem Covers.holdsIn {label : Label} (covered : g.Covers u v .empty label x)
    (sub : s.subsumes label = true) : ∃ y ≤ x, g.HoldsIn s u v y := by
  obtain ⟨e, joined, covers⟩ := covered
  rcases covers with dominated | ⟨lettered, _⟩
  · obtain ⟨⟨l, y⟩, mem, general, le⟩ := ValueMap.dominates_iff.mp dominated
    exact ⟨y, le, e, l, joined, mem, Label.subsumes_trans sub general⟩
  · cases lettered

theorem HoldsIn.grows (holds : g.HoldsIn s u v x) (grows : g.Grows h) :
    ∃ y ≤ x, h.HoldsIn s u v y := by
  obtain ⟨e, l, joined, mem, sub⟩ := holds
  have covered : g.Covers u v .empty l x :=
    ⟨e, joined, Or.inl (ValueMap.dominates_iff.mpr ⟨(l, x), mem, Label.subsumes_refl l, le_rfl⟩)⟩
  exact (grows.covers covered).holdsIn sub

end Network

/-- The path `x → y → w` in a scenario, of which the first value is ordinary: once what it derives is
settled, the sum bounds the edge from `x` to `w`, and an ordinary one is not negative on a loop. -/
theorem Application.path_of_settledAt {ctx : RuleContext} {g h : LabeledNetwork} {s : Label}
    {case : CaseLabel} {x y w : NodeId} {u v : Value}
    (settled : ∀ d ∈ (Application.labelPropagation x y w).derivations ctx g, d.SettledAt h x w)
    (enabled : ctx.isEnabled .labelPropagation = true) (complete : s.IsComplete)
    (first : g.HoldsCase s .empty x y u) (second : g.HoldsCase s case y w v) (apart : x ≠ y)
    (apart' : y ≠ w) :
    ∃ t label, Value.sum? u v = some t ∧ s.subsumes label = true ∧
      (x = w → case = .empty → 0 ≤ ctx.clamp t) ∧
      (x ≠ w → ctx.clamp t = Value.posInf ∨ h.Covers x w case label (ctx.clamp t)) := by
  obtain ⟨e₁, a, joined₁, mem₁, ha⟩ := first
  obtain ⟨e₂, b, joined₂, mem₂, hb⟩ := second
  -- What the pair of values derives is one of the derivations of the path, so it is settled.
  have derived : ∀ der, ctx.propagateValues? g x w (.empty, a, u) (case, b, v) = some der →
      der.SettledAt h x w := by
    intro der made
    refine settled der ?_
    have off : ¬ ((!ctx.isEnabled .labelPropagation) = true ∨ x = y ∨ y = w) := by
      simp [enabled, apart, apart']
    simp only [Application.derivations, RuleContext.labelPropagation, if_neg off, joined₁, joined₂]
    exact List.mem_flatMap.mpr ⟨_, mem₁, List.mem_filterMap.mpr ⟨_, mem₂, made⟩⟩
  have known := complete.hasUnknown_of_subsumes (Label.subsumes_blend ha hb)
  have plain : CaseLabel.empty ∪ case = case := CaseLabel.ext_contains fun c => by simp
  have lettered : ¬ ((!CaseLabel.empty.isEmpty) = true ∧ 0 ≤ u ∨
      CaseLabel.empty.intersects case = true) := by
    simp [CaseLabel.empty, CaseLabel.isEmpty, CaseLabel.intersects]
  simp only [RuleContext.propagateValues?, if_neg lettered, plain,
    RuleContext.combine?_of_subsumes complete _ ha hb] at derived
  cases sum : Value.sum? u v with
  | none =>
    rw [sum] at derived
    exact (derived _ rfl).elim
  | some t =>
    rw [sum] at derived
    refine ⟨t, a.blend b, rfl, Label.subsumes_blend ha hb, fun loop ordinary => ?_, fun other => ?_⟩
    · subst ordinary
      simp only [loop, if_true, RuleContext.closeLoop?, known] at derived
      by_contra negative
      have open_ : ¬ (0 ≤ ctx.clamp t ∨ (!CaseLabel.empty.isEmpty) = true) := by
        simpa [CaseLabel.empty, CaseLabel.isEmpty] using negative
      rw [if_neg open_] at derived
      exact (derived _ rfl).elim
    · simp only [other, if_false] at derived
      exact derived _ rfl

/-- A network in which labelled propagation towards Z has reached a fixpoint. -/
structure Closed (ctx : RuleContext) (g : LabeledNetwork) : Prop where
  enabled : ctx.isEnabled .labelPropagation = true
  settled : ∀ x y, (Application.labelPropagation x y ctx.z).Settled ctx g
  nonneg : 0 ≤ ctx.horizon
  finite : ctx.horizon < Value.posInf

/-- Whether the edges between `n` and Z bound `n` to `[0, horizon]` in the scenario `s`. -/
structure Bounded (ctx : RuleContext) (g : LabeledNetwork) (s : Label) (n : NodeId) : Prop where
  early : ∃ x ≤ 0, g.HoldsIn s n ctx.z x
  late : ∃ x ≤ ctx.horizon, g.HoldsIn s ctx.z n x

namespace Closed

variable {ctx : RuleContext} {g : LabeledNetwork} {s : Label} {x y : NodeId} {u v d e : Value}

/-- The path `x → y → Z` in a scenario: the sum bounds the edge from `x` to Z, and it is not negative
on a loop. -/
theorem path (closed : Closed ctx g) (complete : s.IsComplete) (first : g.HoldsIn s x y u)
    (second : g.HoldsIn s y ctx.z v) (apart : x ≠ y) (apart' : y ≠ ctx.z) :
    ∃ t, Value.sum? u v = some t ∧ (x = ctx.z → 0 ≤ ctx.clamp t) ∧
      (x ≠ ctx.z → ctx.clamp t = Value.posInf ∨ ∃ r ≤ ctx.clamp t, g.HoldsIn s x ctx.z r) := by
  obtain ⟨t, label, sum, here, loop, other⟩ := Application.path_of_settledAt
    (closed.settled x y) closed.enabled complete first.holdsCase second.holdsCase apart apart'
  exact ⟨t, sum, fun same => loop same rfl, fun away =>
    (other away).imp_right fun covered => covered.holdsIn here⟩

theorem clamp_of_neg {t : Value} (low : t < -ctx.horizon) : ctx.clamp t = Value.negInf := if_pos low

theorem clamp_of_le {t : Value} (le : -ctx.horizon ≤ t) : ctx.clamp t = t :=
  if_neg (not_lt.mpr le)

theorem negInf_lt (closed : Closed ctx g) : Value.negInf < -ctx.horizon := by
  have : ctx.horizon < 2147483647 := closed.finite
  have : (-2147483648 : Int) < -ctx.horizon := by linarith
  exact this

theorem nonneg_of_clamp {t : Value} (h : 0 ≤ ctx.clamp t) : 0 ≤ t := by
  by_cases low : t < -ctx.horizon
  · rw [clamp_of_neg low] at h
    exact absurd h (by decide)
  · rwa [clamp_of_le (not_lt.mp low)] at h

/-- The path from Z to the node and back excludes values below `−horizon`. -/
theorem least_bounds (closed : Closed ctx g) (complete : s.IsComplete) (apart : y ≠ ctx.z)
    (bounded : Bounded ctx g s y) (least : g.IsLeast s y ctx.z e) : -ctx.horizon ≤ e ∧ e ≤ 0 := by
  obtain ⟨early, nonpos, holds⟩ := bounded.early
  obtain ⟨late, within, holds'⟩ := bounded.late
  obtain ⟨t, sum, loop, _⟩ := closed.path complete holds' least.holdsIn (Ne.symm apart) apart
  have nonneg := nonneg_of_clamp (loop rfl)
  have finite := closed.finite
  refine ⟨?_, le_trans (least.le holds) nonpos⟩
  rcases Value.sum?_cases sum with ⟨infinite | infinite, _⟩ | ⟨_, _, _, low⟩ | ⟨rfl, _⟩
  · exact absurd infinite (ne_of_lt (lt_of_le_of_lt within finite))
  · have high := least.le holds
    rw [infinite] at high
    exact absurd (le_trans high nonpos) (by decide)
  · rw [low] at nonneg
    exact absurd nonneg (by decide)
  · have : -late ≤ e := by linarith
    linarith

/-- `d` is the negated time of `n`. -/
def Latest (ctx : RuleContext) (g : LabeledNetwork) (s : Label) (n : NodeId) (d : Value) : Prop :=
  n = ctx.z ∧ d = 0 ∨ n ≠ ctx.z ∧ Bounded ctx g s n ∧ g.IsLeast s n ctx.z d

theorem Latest.bounds (closed : Closed ctx g) (complete : s.IsComplete)
    (latest : Latest ctx g s x d) : -ctx.horizon ≤ d ∧ d ≤ 0 := by
  rcases latest with ⟨_, rfl⟩ | ⟨apart, bounded, least⟩
  · exact ⟨by linarith [closed.nonneg], le_rfl⟩
  · exact closed.least_bounds complete apart bounded least

/-- The negated times satisfy every constraint of the scenario. -/
theorem constraint (closed : Closed ctx g) (complete : s.IsComplete) (apart : x ≠ y)
    (hx : Latest ctx g s x d) (hy : Latest ctx g s y e) (holds : g.HoldsIn s x y u) :
    d ≤ u + e := by
  have dBounds := Latest.bounds closed complete hx
  have eBounds := Latest.bounds closed complete hy
  rcases hy with ⟨rfl, rfl⟩ | ⟨apart', bounded, least⟩
  · -- The edge ends in Z, so its value is one of those the least is taken of.
    rcases hx with ⟨rfl, _⟩ | ⟨_, _, least⟩
    · exact absurd rfl apart
    · linarith [least.le holds]
  · obtain ⟨t, sum, loop, other⟩ := closed.path complete holds least.holdsIn apart apart'
    have bounded' : d ≤ t := by
      rcases hx with ⟨here, rfl⟩ | ⟨away, _, least'⟩
      · exact nonneg_of_clamp (loop here)
      · have le : d ≤ ctx.clamp t := by
          rcases other away with infinite | ⟨r, le, holds'⟩
          · rw [infinite]
            exact le_trans dBounds.2 (by decide)
          · exact le_trans (least'.le holds') le
        by_cases low : t < -ctx.horizon
        · rw [clamp_of_neg low] at le
          exact absurd (le_trans dBounds.1 le) (not_le.mpr closed.negInf_lt)
        · rwa [clamp_of_le (not_lt.mp low)] at le
    rcases Value.sum?_cases sum with ⟨infinite | infinite, _⟩ | ⟨_, _, _, low⟩ | ⟨rfl, _⟩
    · rw [infinite]
      linarith [closed.finite]
    · rw [infinite] at eBounds
      exact absurd eBounds.2 (by decide)
    · rw [low] at bounded'
      exact absurd (le_trans dBounds.1 bounded') (not_le.mpr closed.negInf_lt)
    · exact bounded'

end Closed

namespace Network

/-- Whether the node `n` occurs in the scenario `s`. -/
def Occurs (g : LabeledNetwork) (withNodeLabels : Bool) (s : Label) (n : NodeId) : Prop :=
  n < g.nodeCount ∧ s.subsumes (g.boundLabel withNodeLabels n) = true

variable {g h : LabeledNetwork} {withNodeLabels : Bool} {s : Label} {n : NodeId}

theorem Occurs.grows (occurs : g.Occurs withNodeLabels s n) (grows : g.Grows h) :
    h.Occurs withNodeLabels s n := by
  unfold Occurs
  rw [grows.nodeCount, grows.boundLabel]
  exact occurs

end Network

namespace CstnChecker

/-- The scheduled time of a node in a scenario: the earliest one that is left, and zero for Z. -/
def earliest? (c : CstnChecker) (s : Label) (n : NodeId) : Option Value :=
  if c.z = some n then some 0 else (c.timeWindow? n s).map Prod.fst

/-- Whether the earliest times in the scenario `s` satisfy its constraints in the network `g`. -/
structure Schedules (c : CstnChecker) (g : LabeledNetwork) (s : Label) : Prop where
  timed : ∀ n, g.Occurs c.options.withNodeLabels s n → ∃ t, c.earliest? s n = some t
  satisfied : ∀ e slot, g.slot? e = some slot → slot.source ≠ slot.target →
    g.Occurs c.options.withNodeLabels s slot.source →
    g.Occurs c.options.withNodeLabels s slot.target →
    ∀ l v, (l, v) ∈ slot.payload.values.entries → s.subsumes l = true →
      v ≠ Value.negInf ∧ ∃ t t', c.earliest? s slot.source = some t ∧
        c.earliest? s slot.target = some t' ∧ t' - t ≤ v

variable {g : LabeledNetwork} {options : CheckerOptions} {rules : RuleSet} {stops : Polls}
  {c : CstnChecker} {status : CheckStatus} {s : Label} {n : NodeId} {d : Value}

theorem earliest?_of_latest {ctx : RuleContext} (hz : c.z = some ctx.z)
    (latest : Closed.Latest ctx c.network s n d) (finite : d ≠ Value.negInf) :
    c.earliest? s n = some (-d) := by
  unfold earliest?
  rcases latest with ⟨rfl, rfl⟩ | ⟨apart, bounded, least⟩
  · rw [if_pos hz, neg_zero]
  · have other : c.z ≠ some n := by
      rw [hz]
      exact fun same => apart (Option.some.inj same).symm
    obtain ⟨_, _, late⟩ := bounded.late
    obtain ⟨l, e', joined', min'⟩ := late.exists_isLeast
    obtain ⟨e, joined, min⟩ := least
    rw [if_neg other]
    simp [timeWindow?, hz, joined, joined', min, min', Value.neg?, finite]

/-- The network that a consistent verdict is about is closed, and the edges to Z bound every node
that occurs. -/
theorem closed_of_consistent (wf : g.WellFormed) (enabled : Rule.labelPropagation ∈ rules)
    (checked : (ofNetwork g options rules).check stops = (c, .ok status))
    (consistent : status.outcome = .consistent) :
    ∃ ctx : RuleContext, c.z = some ctx.z ∧ Closed ctx c.network ∧ c.options = options ∧
      (ofNetwork g options rules).initialise.1.network.WellFormed ∧
      (ofNetwork g options rules).initialise.1.network.Grows c.network ∧
      ∀ s n, n ≠ ctx.z →
        (ofNetwork g options rules).initialise.1.network.Occurs options.withNodeLabels s n →
        Bounded ctx c.network s n := by
  obtain ⟨c₀, z, horizon, ready, hz₀, hh₀, hz, options', fixpoint, _⟩ :=
    propagation_of_check checked
  obtain ⟨p, run, same⟩ := fixpoint consistent
  obtain ⟨z', horizon', d, prepared, initial⟩ := prepare_of_initialise ready
  have network : c₀.network = d.network := by rw [initial]
  have enabled' : Rule.labelPropagation ∈ c₀.rules := by rwa [initial]
  rw [initial] at hz₀ hh₀
  cases hz₀
  cases hh₀
  obtain ⟨h, _, wf', inside, _, _, _, known, bounded⟩ :=
    (prepare_ends WellDefined.kept_wellFormed wf wf).of_ok prepared
  obtain ⟨finite, weight, product⟩ := Network.horizon?_spec known
  -- Initialisation ends with the bounds to and from Z, which propagation can only tighten.
  obtain ⟨wf₀, grown, bounds⟩ := Network.addBounds_spec wf' inside horizon.value
    (ne_of_lt finite.2) options.withNodeLabels
  rw [← bounded, ← network] at wf₀ grown bounds
  obtain ⟨_, grows, _, settled⟩ := (Propagation.toFixpoint_ends
    (Propagation.keeps_nothing _ c₀.network) (fun _ mem => by cases mem) stops _ wf₀ trivial).of_ok
      run
  have nonneg : 0 ≤ horizon.value := by
    rw [product, weight]
    exact mul_nonneg h.maxWeight_nonneg (Int.natCast_nonneg _)
  rw [ready, same]
  refine ⟨c₀.context z horizon, hz, ?_, options', wf₀, grows, fun s n apart occurs => ?_⟩
  · exact {
      enabled := List.contains_iff_mem.mpr enabled'
      settled := fun x y => settled (.labelPropagation x y z) fun _ => rfl
      nonneg := nonneg
      finite := finite.2 }
  · have inside : n < h.nodeCount := by
      rw [← grown.nodeCount]
      exact occurs.1
    have kept := grows.bounds (bounds n inside apart)
    have occurs' := (occurs.grows grows).2
    exact ⟨kept.1.holdsIn occurs', kept.2.holdsIn occurs'⟩

end CstnChecker

/-- A consistent verdict comes with a schedule for every scenario: the earliest times that are left
satisfy every constraint between nodes that occur. -/
theorem consistent_schedule (g : LabeledNetwork) (wf : g.WellFormed) (options : CheckerOptions)
    (rules : RuleSet) (enabled : Rule.labelPropagation ∈ rules) (stops : Polls) (c : CstnChecker)
    (status : CheckStatus)
    (checked : (CstnChecker.ofNetwork g options rules).check stops = (c, .ok status))
    (consistent : status.outcome = .consistent) (s : Label) (complete : s.IsComplete) :
    c.Schedules (CstnChecker.ofNetwork g options rules).initialise.1.network s := by
  obtain ⟨ctx, hz, closed, rfl, wf₀, grows, bounded⟩ :=
    CstnChecker.closed_of_consistent wf enabled checked consistent
  -- The times are read off the edges to Z: a least value there is an earliest time.
  have latest : ∀ n, (CstnChecker.ofNetwork g c.options rules).initialise.1.network.Occurs
      c.options.withNodeLabels s n → ∃ d, Closed.Latest ctx c.network s n d := by
    intro n occurs
    by_cases here : n = ctx.z
    · exact ⟨0, Or.inl ⟨here, rfl⟩⟩
    · have bounds := bounded s n here occurs
      obtain ⟨_, _, early⟩ := bounds.early
      obtain ⟨d, least⟩ := early.exists_isLeast
      exact ⟨d, Or.inr ⟨here, bounds, least⟩⟩
  have timed : ∀ n d, Closed.Latest ctx c.network s n d → c.earliest? s n = some (-d) := by
    intro n d found
    refine CstnChecker.earliest?_of_latest hz found fun same => ?_
    have bounds := Closed.Latest.bounds closed complete found
    rw [same] at bounds
    exact absurd bounds.1 (not_le.mpr closed.negInf_lt)
  constructor
  · intro n occurs
    obtain ⟨d, found⟩ := latest n occurs
    exact ⟨-d, timed n d found⟩
  · intro e slot stored apart occurs occurs' l v mem holds
    obtain ⟨d, found⟩ := latest _ occurs
    obtain ⟨d', found'⟩ := latest _ occurs'
    have joined := wf₀.edgeBetween?_eq_some_iff.mpr ⟨e, slot, stored, rfl, rfl, rfl⟩
    obtain ⟨u, le, held⟩ := Network.HoldsIn.grows ⟨_, l, joined, mem, holds⟩ grows
    have fits := closed.constraint complete apart found found' held
    have bounds := Closed.Latest.bounds closed complete found
    have bounds' := Closed.Latest.bounds closed complete found'
    refine ⟨fun same => ?_, -d, -d', timed _ d found, timed _ d' found', by linarith⟩
    rw [same] at le
    linarith [closed.negInf_lt]

/-- The scenario of the observed network in which the node X has to wait. -/
theorem consistent_schedule_observed :
    ∃ c status, (CstnChecker.ofNetwork observedNetwork untimed .full).check .never =
      (c, .ok status) ∧ status.outcome = .consistent ∧
      c.Schedules (CstnChecker.ofNetwork observedNetwork untimed .full).initialise.1.network
        Label.allStraight := by
  have answered : ((CstnChecker.ofNetwork observedNetwork untimed .full).check
      .never).2.toOption.map CheckStatus.outcome = some .consistent := by decide +kernel
  cases checked : (CstnChecker.ofNetwork observedNetwork untimed .full).check .never with
  | mk c answer =>
    rw [checked] at answered
    cases answer with
    | error e => cases answered
    | ok status =>
      have consistent : status.outcome = .consistent := Option.some.inj answered
      exact ⟨c, status, rfl, consistent, consistent_schedule observedNetwork
        (Network.wellFormed_getD_build _ _) untimed .full (by decide) .never c status checked
        consistent _ Label.isComplete_allStraight⟩

/-- Two constraints that exclude each other. -/
def contradictoryNetwork : LabeledNetwork :=
  (Network.build [.named "Z", .named "X"]
    [("latest", 0, 1, .ofValue .ordinary .empty 5),
      ("earliest", 1, 0, .ofValue .ordinary .empty (-6))]).getD .empty

/-- Without labelled propagation, a consistent verdict says nothing about the constraints. -/
theorem not_schedules_without_propagation :
    ¬ ∀ (g : LabeledNetwork), g.WellFormed → ∀ (options : CheckerOptions) (rules : RuleSet)
      (stops : Polls) (c : CstnChecker) (status : CheckStatus),
      (CstnChecker.ofNetwork g options rules).check stops = (c, .ok status) →
      status.outcome = .consistent → ∀ s : Label, s.IsComplete →
      c.Schedules (CstnChecker.ofNetwork g options rules).initialise.1.network s := by
  intro claim
  -- The bounds alone let node 1 be at 6, although an edge allows 5 at most.
  have answered : ((CstnChecker.ofNetwork contradictoryNetwork untimed []).check
      .never).2.toOption.map CheckStatus.outcome = some .consistent := by decide +kernel
  have late : ((CstnChecker.ofNetwork contradictoryNetwork untimed []).check .never).1.earliest?
      Label.allStraight 1 = some 6 := by decide +kernel
  have origin : ((CstnChecker.ofNetwork contradictoryNetwork untimed []).check .never).1.earliest?
      Label.allStraight 0 = some 0 := by decide +kernel
  have latest : ((CstnChecker.ofNetwork contradictoryNetwork untimed []).initialise.1.network.slot?
      0).map (fun slot => (slot.source, slot.target, slot.payload.values.entries)) =
        some (0, 1, [(Label.empty, 5)]) := by decide +kernel
  obtain ⟨slot, stored, shape⟩ := Option.map_eq_some_iff.mp latest
  obtain ⟨source, target, entries⟩ : slot.source = 0 ∧ slot.target = 1 ∧
      slot.payload.values.entries = [(Label.empty, 5)] := by simpa using shape
  have both : ∀ n < 2, (CstnChecker.ofNetwork contradictoryNetwork untimed
      []).initialise.1.network.Occurs false Label.allStraight n := by
    unfold Network.Occurs
    decide +kernel
  cases checked : (CstnChecker.ofNetwork contradictoryNetwork untimed []).check .never with
  | mk c answer =>
    rw [checked] at answered late origin
    cases answer with
    | error e => cases answered
    | ok status =>
      have consistent : status.outcome = .consistent := Option.some.inj answered
      have scheduled := claim contradictoryNetwork (Network.wellFormed_getD_build _ _) untimed []
        .never c status checked consistent _ Label.isComplete_allStraight
      have options' : c.options = untimed := by
        obtain ⟨_, _, _, _, _, _, _, options', _⟩ := CstnChecker.propagation_of_check checked
        exact options'
      have mem : (Label.empty, (5 : Value)) ∈ slot.payload.values.entries := by
        rw [entries]
        exact List.mem_cons_self
      have satisfied := scheduled.satisfied 0 slot stored
      rw [source, target, options'] at satisfied
      obtain ⟨_, t, t', first, second, le⟩ := satisfied (by decide) (both 0 (by decide))
        (both 1 (by decide)) .empty 5 mem (by decide)
      have same : t = 0 := Option.some.inj (first.symm.trans origin)
      have same' : t' = 6 := Option.some.inj (second.symm.trans late)
      rw [same, same'] at le
      exact absurd le (by decide)

end TemporalNetwork
