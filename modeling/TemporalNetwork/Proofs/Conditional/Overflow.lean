import TemporalNetwork.Proofs.Conditional.Scale

/-!
Sums that are not representable. A propagation gives up at two finite values on consecutive edges of a
network it has reached, and for no other reason of arithmetic: an infinite value always has a sum with
what is stored. Towards Z only, the second of two values is between the negated horizon and zero, and
the first one is no smaller than the negative values at the start, so a little room below the horizon
excludes such sums.
-/

namespace TemporalNetwork

theorem Value.sum?_eq_none_iff {u v : Value} (hu : negInf ≤ u ∧ u < posInf)
    (hv : negInf ≤ v ∧ v < posInf) :
    sum? u v = none ↔ u.IsFinite ∧ v.IsFinite ∧ ¬ Value.IsFinite (u + v) := by
  have finite : ∀ {w : Value}, negInf ≤ w ∧ w < posInf → (w.IsFinite ↔ w ≠ negInf) := fun inside =>
    ⟨fun h => ne_of_gt h.1, fun h => ⟨lt_of_le_of_ne inside.1 (Ne.symm h), inside.2⟩⟩
  rw [finite hu, finite hv, sum?]
  simp only [ne_of_lt hu.2, ne_of_lt hv.2, false_and, and_false, or_false, if_false]
  split
  · rename_i infinite
    simp only [reduceCtorEq, false_iff]
    rintro ⟨first, second, _⟩
    exact infinite.elim first second
  · rename_i bounded
    rw [not_or] at bounded
    split
    · rename_i inside
      simp [inside]
    · rename_i outside
      simp [bounded, outside]

/-- Whether a value is stored on the edge from `u` to `v`. -/
def Network.Stores (g : LabeledNetwork) (u v : NodeId) (w : Value) : Prop :=
  ∃ e c l, g.edgeBetween? u v = some e ∧ (c, l, w) ∈ e.allValues

theorem Network.EveryValue.stores {g : LabeledNetwork} {Q : Value → Prop} {u v : NodeId} {w : Value}
    (every : g.EveryValue fun _ _ _ _ w => Q w) (stored : g.Stores u v w) : Q w := by
  obtain ⟨e, c, l, joined, mem⟩ := stored
  exact every u v e joined c l w mem

/-- Whether the propagation from `start` comes to the network. -/
def Reached (ctx : RuleContext) (start : Progress) (g : LabeledNetwork) : Prop :=
  ∃ p, Traced ctx start p ∧ p.network = g

theorem Reached.everyValue {ctx : RuleContext} {start : Progress} {g : LabeledNetwork}
    {Q : Value → Prop} (reached : Reached ctx start g) (lowest : Q Value.negInf)
    (sums : ∀ u v s, Q u → Q v → Value.sum? u v = some s → Q (ctx.clamp s))
    (unlinked : ctx.links = []) (wf : start.network.WellFormed)
    (every : start.network.EveryValue fun _ _ _ _ w => Q w) :
    g.EveryValue fun _ _ _ _ w => Q w := by
  obtain ⟨p, ⟨states, merges, trace⟩, rfl⟩ := reached
  exact trace.everyValue lowest sums unlinked wf every p List.mem_cons_self

namespace Propagation

variable {ctx : RuleContext} {start : Progress}

theorem network_merge_congr {p q : Progress} (same : p.network = q.network) (rule : Rule)
    (u v : NodeId) (case : CaseLabel) (label : Label) (value : Value) :
    (p.merge rule u v case label value).1.network = (q.merge rule u v case label value).1.network := by
  obtain ⟨g, applied, cycles, polls⟩ := p
  obtain ⟨h, applied', cycles', polls'⟩ := q
  obtain rfl : g = h := same
  simp only [Progress.merge]
  split <;> rfl

theorem reached_apply {a : Application} (possible : a.Possible ctx) {k : Progress}
    (ds : List Derivation) (derived : ∀ d ∈ ds, d ∈ a.derivations ctx k.network)
    {states : List Progress} {merges : List Merge} {q : Progress}
    (trace : Trace ctx start states merges q) (earlier : k ∈ q :: states) (p : Progress)
    (same : p.network = q.network) :
    Ends (apply (a.rule ctx) a.source a.target ds) p (fun _ r => Reached ctx start r.network)
      fun halt _ => ∃ d ∈ ds, d.halt? = some halt := by
  induction ds generalizing states merges q p with
  | nil => exact ⟨q, ⟨states, merges, trace⟩, same.symm⟩
  | cons d rest ih =>
    cases d with
    | value case label value =>
      have merged := trace.merge a possible earlier (derived _ List.mem_cons_self)
      rw [apply, ends_bind, ends_modifyGet, ends_bind]
      refine (ih (fun d mem => derived d (List.mem_cons_of_mem _ mem)) merged
        (List.mem_cons_of_mem _ earlier) _
        (network_merge_congr same (a.rule ctx) a.source a.target case label value)).mono
        (fun _ _ => id) ?_
      rintro halt _ ⟨d, mem, stops⟩
      exact ⟨d, List.mem_cons_of_mem _ mem, stops⟩
    | negativeLoop loop => exact ⟨_, List.mem_cons_self, rfl⟩
    | sumOverflow lhs rhs => exact ⟨_, List.mem_cons_self, rfl⟩

/-- Whether a rule meets the sum of two values that is not representable in a network that the
propagation reaches. -/
def Overflows (ctx : RuleContext) (start : Progress) (lhs rhs : Value) : Prop :=
  ∃ g, Reached ctx start g ∧ ∃ a : Application, a.Possible ctx ∧
    .sumOverflow lhs rhs ∈ a.derivations ctx g

theorem performs_reached (ctx : RuleContext) (start : Progress) :
    Performs ctx start.network (Reached ctx start) fun halt =>
      ∀ lhs rhs, halt = .sumOverflow lhs rhs → Overflows ctx start lhs rhs where
  perform a p possible _ _ reached := by
    obtain ⟨q, ⟨states, merges, trace⟩, same⟩ := reached
    unfold Ends
    rw [a.perform_eq]
    refine (reached_apply possible (k := q) _ (fun d mem => same ▸ mem) trace List.mem_cons_self p
      same.symm).mono (fun _ _ => id) ?_
    rintro halt _ ⟨d, mem, stops⟩ lhs rhs rfl
    cases d with
    | value => cases stops
    | negativeLoop => cases stops
    | sumOverflow =>
      cases stops
      exact ⟨p.network, ⟨q, ⟨states, merges, trace⟩, same⟩, a, possible, mem⟩

theorem toFixpoint_overflows (unlinked : ctx.links = []) (wf : start.network.WellFormed)
    {stops : Polls} {cycleBound : Nat} {lhs rhs : Value} {q : Progress}
    (run : (toFixpoint ctx stops cycleBound).run start = .error (.sumOverflow lhs rhs) q) :
    Overflows ctx start lhs rhs := by
  have keeps : Keeps ctx start.network (Reached ctx start) fun halt =>
      ∀ lhs rhs, halt = .sumOverflow lhs rhs → Overflows ctx start lhs rhs :=
    { performs_reached ctx start with timeout := nofun, cycleBoundExceeded := nofun }
  exact (toFixpoint_ends keeps (linksFunctional_of_no_links unlinked) stops cycleBound wf
    ⟨start, ⟨[], [], .start⟩, rfl⟩).of_error run lhs rhs rfl

end Propagation

namespace RuleContext

variable {ctx : RuleContext} {g : LabeledNetwork} {u v : Value}

/-- Only labelled propagation adds values. -/
theorem stores_of_sumOverflow (unlinked : ctx.links = []) {a : Application}
    (possible : a.Possible ctx) (derived : .sumOverflow u v ∈ a.derivations ctx g) :
    ∃ x y w, a = .labelPropagation x y w ∧ ctx.isEnabled .labelPropagation = true ∧ x ≠ y ∧ y ≠ w ∧
      Value.sum? u v = none ∧ ∃ e f α k β l, g.edgeBetween? x y = some e ∧ (α, k, u) ∈ e.allValues ∧
        g.edgeBetween? y w = some f ∧ (β, l, v) ∈ f.allValues := by
  cases a with
  | r0 observer target =>
    obtain ⟨_, _, p, e, _, _, ⟨case', l', w⟩, _, made⟩ := mem_r0.mp derived
    obtain ⟨_, _, _, c, _, _, same⟩ := stripObserved?_eq_some_iff.mp made
    cases same
  | r3 source target =>
    obtain ⟨_, _, e, _, p, m, _, ⟨case', l', w⟩, _, _, _, ⟨o, t⟩, _, made⟩ := mem_r3.mp derived
    obtain ⟨_, _, _, c, _, _, same⟩ := observeValue?_eq_some_iff.mp made
    cases same
  | labelPropagation x y w =>
    obtain ⟨enabled, apart, apart', e, f, joined, joined', ⟨α, k, u'⟩, stored, ⟨β, l, v'⟩, stored',
      made⟩ := mem_labelPropagation.mp derived
    obtain ⟨_, ⟨none, same⟩ | ⟨s, c, _, _, ends⟩⟩ := propagateValues?_eq_some_iff.mp made
    · cases same
      exact ⟨x, y, w, rfl, enabled, apart, apart', none, e, f, α, k, β, l, joined, stored, joined',
        stored'⟩
    · rcases ends with ⟨_, loop⟩ | ⟨_, same⟩
      · obtain ⟨_, _, ⟨_, same⟩ | ⟨_, same⟩⟩ := closeLoop?_eq_some_iff.mp loop <;> cases same
      · cases same
  | crossLowerCase activation contingent w => exact absurd unlinked possible
  | letterRemoval x activation =>
    rw [Application.derivations, Propagation.letterRemoval_of_no_links unlinked] at derived
    cases derived

theorem clamp_bounded {s : Value} (hu : u < Value.posInf) (hv : v < Value.posInf)
    (sum : Value.sum? u v = some s) : ctx.clamp s < Value.posInf := by
  unfold clamp
  split
  · decide
  · rcases Value.sum?_cases sum with ⟨infinite | infinite, _⟩ | ⟨_, _, _, rfl⟩ | ⟨_, finite, _⟩
    · exact absurd infinite (ne_of_lt hu)
    · exact absurd infinite (ne_of_lt hv)
    · decide
    · exact finite.2

end RuleContext

section TowardsZ

variable {ctx : RuleContext} {g start : LabeledNetwork} {u v n : NodeId} {case : CaseLabel}
  {label l : Label} {w heaviest : Value}

/-- What is true of the values while propagation is towards Z only: those on other edges are not smaller
than at the start and hold only if the source of their edge occurs, those on edges into Z are not
positive. -/
structure RuleContext.Modest (ctx : RuleContext) (heaviest : Value) (start : LabeledNetwork)
    (u v : NodeId) (l : Label) (w : Value) : Prop where
  scaled : w.OnScale ctx.horizon
  bounded : w < Value.posInf
  light : v ≠ ctx.z → w.IsFinite → -heaviest ≤ w
  general : v ≠ ctx.z → l.subsumes (ctx.nodeLabel start u) = true
  early : v = ctx.z → u ≠ ctx.z → w ≤ 0

theorem RuleContext.joinsTwins_modest (ctx : RuleContext) (heaviest : Value) (start : LabeledNetwork)
    (u v : NodeId) :
    JoinsTwins (fun _ => ctx.Modest heaviest start u v) fun _ => ctx.Modest heaviest start u v where
  stored _ _ _ := id
  joined _ _ _ _ _ new flips twin := {
    scaled := max_rec (p := fun w : Value => w.OnScale ctx.horizon) (fun _ => new.scaled)
      fun _ => twin.scaled
    bounded := max_lt new.bounded twin.bounded
    light := fun away => max_rec (p := fun w : Value => w.IsFinite → -heaviest ≤ w)
      (fun _ => new.light away) fun _ => twin.light away
    general := fun away => Label.erase_subsumes_of_twin flips (new.general away)
      (Label.subsumes_refl _) (twin.general away)
    early := fun here apart => max_le (new.early here apart) (twin.early here apart) }

/-- A network of modest values, in which no node comes before Z. -/
structure Network.Modest (g : LabeledNetwork) (ctx : RuleContext) (heaviest : Value)
    (start : LabeledNetwork) : Prop where
  values : g.EveryValue fun u v _ => ctx.Modest heaviest start u v
  afterZ : ∀ n < g.nodeCount, n ≠ ctx.z → g.Covers n ctx.z .empty (ctx.nodeLabel start n) 0

theorem Network.mergeInto_of_covers (wf : g.WellFormed) (covered : g.Covers u v case label w)
    (kind : ConstraintKind) : (g.mergeInto kind u v case label w).1 = g := by
  obtain ⟨edge, joined, covers⟩ := covered
  obtain ⟨i, found, stored⟩ := Option.bind_eq_some_iff.mp joined
  rw [mergeInto_of_some wf found joined, LabeledEdge.merge_of_covers (Or.inr covers),
    modifyEdge_self stored]

theorem Network.Modest.mergeInto (modest : g.Modest ctx heaviest start) (wf : g.WellFormed)
    (hu : u < g.nodeCount) (hv : v < g.nodeCount)
    (new : ctx.Modest heaviest start u v label w ∨
      v = ctx.z ∧ u ≠ ctx.z ∧ 0 ≤ w ∧ label.subsumes (ctx.nodeLabel start u) = true) :
    (g.mergeInto .derived u v case label w).1.Modest ctx heaviest start := by
  rcases new with new | ⟨rfl, apart, late, general⟩
  · obtain ⟨grows, _, _⟩ := mergeInto_spec wf hu hv .derived case label w
    exact ⟨modest.values.mergeInto_twins (fun u v => ctx.joinsTwins_modest heaviest start u v) wf hu
      hv .derived new, fun n hn apart =>
        grows.toGrows.covers (modest.afterZ n (grows.nodeCount ▸ hn) apart)⟩
  · -- The bound that keeps the source after Z covers the value.
    obtain ⟨edge, joined, covers⟩ := modest.afterZ u hu apart
    have covered : g.Covers u ctx.z case label w := ⟨edge, joined,
      covers.mono (x := (.empty, ctx.nodeLabel start u, 0)) (y := (case, label, w))
        ⟨CaseLabel.empty_subset case, general, late⟩⟩
    rw [mergeInto_of_covers wf covered]
    exact modest

namespace RuleContext

theorem nodeLabel_of_grows (grows : start.Grows g) (n : NodeId) :
    ctx.nodeLabel g n = ctx.nodeLabel start n := by
  rw [nodeLabel, nodeLabel, grows.nodeD]

theorem stripObserved?_modest (grows : start.Grows g) {p : Proposition} {case' : CaseLabel}
    {l' : Label} {w' : Value} (here : ctx.Modest heaviest start u v l' w')
    (made : ctx.stripObserved? g u v p (case', l', w') = some (.value case l w)) :
    ctx.Modest heaviest start u v l w := by
  obtain ⟨early, _, _, c, conjoined, _, same⟩ := stripObserved?_eq_some_iff.mp made
  cases same
  exact { here with
    general := fun _ => nodeLabel_of_grows grows u ▸ (withEndpoints?_subsumes conjoined).2.1
    early := fun _ _ => early }

theorem observeValue?_modest (grows : start.Grows g) {p : Proposition} {case' : CaseLabel}
    {l' o : Label} {w' t : Value} (here : ctx.Modest heaviest start u v l' w')
    (there : ctx.Modest heaviest start n v o t)
    (made : ctx.observeValue? g u v p (case', l', w') (o, t) = some (.value case l w)) :
    ctx.Modest heaviest start u v l w := by
  obtain ⟨early, _, _, c, conjoined, _, same⟩ := observeValue?_eq_some_iff.mp made
  cases same
  exact {
    scaled := max_rec (p := fun w : Value => w.OnScale ctx.horizon) (fun _ => here.scaled)
      fun _ => there.scaled
    bounded := max_lt here.bounded there.bounded
    light := fun away => max_rec (p := fun w : Value => w.IsFinite → -heaviest ≤ w)
      (fun _ => here.light away) fun _ => there.light away
    general := fun _ => nodeLabel_of_grows grows u ▸ (withEndpoints?_subsumes conjoined).2.1
    early := fun into apart => max_le (here.early into apart) early }

/-- A path into Z gives a modest value, or one that says no more than that its source is after Z. -/
theorem propagateValues?_modest {α β : CaseLabel} {k k' : Label} {s t : Value}
    (first : ctx.Modest heaviest start u n k s) (second : ctx.Modest heaviest start n ctx.z k' t)
    (apart : n ≠ ctx.z)
    (made : ctx.propagateValues? g u ctx.z (α, k, s) (β, k', t) = some (.value case l w)) :
    ctx.Modest heaviest start u ctx.z l w ∨
      u ≠ ctx.z ∧ 0 ≤ w ∧ l.subsumes (ctx.nodeLabel start u) = true := by
  obtain ⟨_, ⟨_, overflow⟩ | ⟨sum, c, found, combined, ends⟩⟩ := propagateValues?_eq_some_iff.mp made
  · cases overflow
  rcases ends with ⟨loop, closed⟩ | ⟨away, same⟩
  · obtain ⟨_, _, ⟨_, same⟩ | ⟨_, same⟩⟩ := closeLoop?_eq_some_iff.mp closed
    · cases same
      exact Or.inl {
        scaled := Or.inl rfl
        bounded := by decide
        light := fun other => absurd rfl other
        general := fun other => absurd rfl other
        early := fun _ other => absurd loop other }
    · cases same
  · cases same
    by_cases early : ctx.clamp sum < 0
    · exact Or.inl {
        scaled := clamp_onScale found
        bounded := clamp_bounded first.bounded second.bounded found
        light := fun other => absurd rfl other
        general := fun other => absurd rfl other
        early := fun _ _ => early.le }
    · -- Labels that do not differ are conjoined, so the source of the path still occurs.
      obtain ⟨agree, same⟩ := combine?_eq_some_iff.mp combined
      have strict : ¬ decide (ctx.z = ctx.z ∧ ctx.clamp sum < 0 ∧ s < 0) = true := by
        simp [early]
      obtain ⟨known, known', both⟩ := agree.resolve_left strict
      rw [dropChildrenOfUnknown_of_known (Label.hasUnknown_and? both known known')] at same
      refine Or.inr ⟨away, not_lt.mp early, same ▸ ?_⟩
      exact Label.subsumes_trans (Label.and?_subsumes both).1 (first.general apart)

theorem modest_derivations (toZ : ctx.onlyToZ = true) (grows : start.Grows g)
    (modest : g.Modest ctx heaviest start) (derived : ctx.Derives g u v (.value case l w)) :
    ctx.Modest heaviest start u v l w ∨
      v = ctx.z ∧ u ≠ ctx.z ∧ 0 ≤ w ∧ l.subsumes (ctx.nodeLabel start u) = true := by
  cases derived with
  | strip _ _ joined stored made =>
    exact Or.inl (stripObserved?_modest grows (modest.values _ _ _ joined _ _ _ stored) made)
  | observe _ _ _ _ joined stored joined' stored' _ made =>
    exact Or.inl (observeValue?_modest grows (modest.values _ _ _ joined _ _ _ stored)
      (modest.values _ _ _ joined' _ _ _ stored') made)
  | path into _ apart joined stored joined' stored' made =>
    obtain rfl := into toZ
    exact (propagateValues?_modest (modest.values _ _ _ joined _ _ _ stored)
      (modest.values _ _ _ joined' _ _ _ stored') apart made).imp_right fun late => ⟨rfl, late⟩

/-- Towards Z, modest values always have a sum if there is room for the smallest ones. -/
theorem not_mem_sumOverflow (unlinked : ctx.links = []) (toZ : ctx.onlyToZ = true)
    (modest : g.Modest ctx heaviest start) (finite : ctx.horizon < Value.posInf)
    (room : ctx.horizon + heaviest ≤ 2147483647) {a : Application} (possible : a.Possible ctx)
    (lhs rhs : Value) : .sumOverflow lhs rhs ∉ a.derivations ctx g := by
  intro derived
  obtain ⟨x, y, z, rfl, _, _, apart, none, e, f, α, k, β, k', joined, stored, joined', stored'⟩ :=
    stores_of_sumOverflow unlinked possible derived
  obtain rfl := possible toZ
  have first := modest.values x y e joined α k lhs stored
  have second := modest.values y ctx.z f joined' β k' rhs stored'
  obtain ⟨finite₁, finite₂, unrepresentable⟩ := (Value.sum?_eq_none_iff
    ⟨(first.scaled.inRange finite).1, first.bounded⟩
    ⟨(second.scaled.inRange finite).1, second.bounded⟩).mp none
  have low : -heaviest ≤ lhs := first.light apart finite₁
  have low' : -ctx.horizon ≤ rhs := second.scaled.neg_le finite₂
  have early : rhs ≤ 0 := second.early rfl apart
  have high := finite₁.2
  refine unrepresentable ⟨?_, ?_⟩
  · have above : (-2147483647 : Int) ≤ lhs + rhs := by linarith
    exact lt_of_lt_of_le (by decide) above
  · exact lt_of_le_of_lt (by linarith) high

end RuleContext

theorem Propagation.performs_modest (unlinked : ctx.links = []) (toZ : ctx.onlyToZ = true)
    (finite : ctx.horizon < Value.posInf) (room : ctx.horizon + heaviest ≤ 2147483647) :
    Performs ctx start (fun g => g.Modest ctx heaviest start) fun halt =>
      ∀ lhs rhs, halt ≠ .sumOverflow lhs rhs where
  perform a p possible wf grows modest := by
    have keeps := (performs_values (I := fun g => g.Modest ctx heaviest start)
      (P := fun u v _ l w => ctx.Modest heaviest start u v l w ∨
        v = ctx.z ∧ u ≠ ctx.z ∧ 0 ≤ w ∧ l.subsumes (ctx.nodeLabel start u) = true)
      (fun g u v wf hu hv modest case l w new => modest.mergeInto wf hu hv new)
      fun a g possible wf grows modest case l w derived =>
        RuleContext.modest_derivations toZ grows modest
          (RuleContext.derives_of_mem unlinked wf possible derived)).perform
          a p possible wf grows modest
    refine (keeps.and (a.perform_ends ctx p wf)).mono (fun _ _ both => both.1) ?_
    rintro halt _ ⟨_, d, derived, stops⟩ lhs rhs rfl
    cases d with
    | value => cases stops
    | negativeLoop => cases stops
    | sumOverflow =>
      cases stops
      exact RuleContext.not_mem_sumOverflow unlinked toZ modest finite room possible _ _ derived

end TowardsZ

namespace CstnChecker

variable {g : LabeledNetwork} {options : CheckerOptions} {rules : RuleSet} {c : CstnChecker} {z : NodeId}
  {horizon : Horizon} {stops : Polls}

/-- A check of an initialised checker fails arithmetically only where its propagation meets a sum. -/
theorem overflow_of_check (ready : (ofNetwork g options rules).initialise = (c, .ok ()))
    (hz : c.z = some z) (hh : c.horizon = some horizon) {e : RangeError}
    (failed : ((ofNetwork g options rules).check stops).2 = .error (.range e)) :
    ∃ lhs rhs p, e = .sumOverflow lhs rhs ∧
      c.propagation z horizon stops = .error (.sumOverflow lhs rhs) p := by
  unfold check checkCounting at failed
  rw [if_neg (by simp [ofNetwork, Stage.isFinished]), ready] at failed
  obtain ⟨z', horizon', d, _, same⟩ := prepare_of_initialise ready
  have fresh : (⟨c.network, .zero, 0, 0⟩ : Progress) =
      ⟨c.network, c.status.applied, c.status.cycles, 0⟩ := by rw [same]; rfl
  have stage : c.stage = .initialised := by rw [same]
  rw [propagation, fresh]
  simp only [stage, hz, hh] at failed
  cases run : (Propagation.toFixpoint (c.context z horizon) stops
      (c.network.cycleBound horizon.maxWeight)).run
        ⟨c.network, c.status.applied, c.status.cycles, 0⟩ with
  | ok a p =>
    rw [CheckStatus.propagate_of_ok run] at failed
    cases failed
  | error halt p =>
    rw [CheckStatus.propagate_of_error run] at failed
    cases halt with
    | sumOverflow lhs rhs =>
      cases failed
      exact ⟨lhs, rhs, p, rfl, rfl⟩
    | negativeLoop => cases failed
    | timeout => cases failed
    | cycleBoundExceeded => cases failed

/-- No finite value of an initialised checker is below the largest weight. -/
theorem values_of_initialise (wf : g.WellFormed)
    (stored : ∀ w ∈ g.allValues, Value.negInf ≤ w ∧ w < Value.posInf)
    (ready : (ofNetwork g options rules).initialise = (c, .ok ())) (hh : c.horizon = some horizon) :
    c.network.EveryValue fun _ _ _ _ w => (Value.negInf ≤ w ∧ w < Value.posInf) ∧
      (w.IsFinite → -horizon.maxWeight ≤ w) := by
  obtain ⟨h, z, horizon', wf', inside, stored', known, _, hh', _, _, bounded⟩ :=
    initialise_values wf stored ready
  obtain rfl := Option.some.inj (hh.symm.trans hh')
  obtain ⟨finite, weight, _⟩ := Network.horizon?_spec known
  have nonneg := Network.horizon?_nonneg known
  have weighs : 0 ≤ horizon.maxWeight := weight ▸ h.maxWeight_nonneg
  have inside' := stored'.everyValue wf'
  have values : h.EveryValue fun _ _ _ _ w => (Value.negInf ≤ w ∧ w < Value.posInf) ∧
      (w.IsFinite → -horizon.maxWeight ≤ w) := by
    refine fun u v e joined case l w mem => ⟨inside' u v e joined case l w mem, fun finite => ?_⟩
    by_cases negative : w < 0
    · have small := Network.neg_le_maxWeight_of_mem (x := (case, l, w)) joined mem negative finite
      rw [← weight] at small
      linarith
    · linarith
  rw [bounded]
  exact values.addBounds_values wf' inside ⟨by decide, fun _ => Int.neg_nonpos_of_nonneg weighs⟩
    ⟨⟨finite.1.le, finite.2⟩, fun _ => by linarith⟩

theorem values_of_reached (wf : g.WellFormed)
    (stored : ∀ w ∈ g.allValues, Value.negInf ≤ w ∧ w < Value.posInf)
    (ready : (ofNetwork g options rules).initialise = (c, .ok ()))
    (hz : c.z = some z) (hh : c.horizon = some horizon) {h : LabeledNetwork}
    (reached : Reached (c.context z horizon) ⟨c.network, .zero, 0, 0⟩ h) :
    h.EveryValue fun _ _ _ _ w => w.OnScale horizon.value ∧ w < Value.posInf := by
  have scaled := scaled_of_initialise wf
    (fun w mem => (stored w mem).imp_right le_of_lt : ∀ w ∈ g.allValues, w.InRange) ready hz hh
  have start : c.network.EveryValue fun _ _ _ _ w =>
      w.OnScale horizon.value ∧ w < Value.posInf := fun u v e joined case l w mem =>
    ⟨scaled.values u v e joined case l w mem,
      (values_of_initialise wf stored ready hh u v e joined case l w mem).1.2⟩
  exact reached.everyValue (Q := fun w => w.OnScale horizon.value ∧ w < Value.posInf)
    ⟨Or.inl rfl, by decide⟩
    (fun _ _ _ first second sum => ⟨RuleContext.clamp_onScale sum,
      RuleContext.clamp_bounded first.2 second.2 sum⟩) rfl scaled.wellFormed start

theorem options_of_initialise (ready : (ofNetwork g options rules).initialise = (c, .ok ())) :
    c.options = options := by
  obtain ⟨_, _, _, _, same⟩ := prepare_of_initialise ready
  rw [same]

/-- The values of an initialised checker are modest if they hold only where the source of their edge
occurs, and none lets a node come before Z. -/
theorem modest_of_initialise (wf : g.WellFormed)
    (stored : ∀ w ∈ g.allValues, Value.negInf ≤ w ∧ w < Value.posInf)
    (ready : (ofNetwork g options rules).initialise = (c, .ok ()))
    (hz : c.z = some z) (hh : c.horizon = some horizon)
    (values : c.network.EveryValue fun u v _ l w =>
      l.subsumes (c.network.boundLabel options.withNodeLabels u) = true ∧ (v = z → u ≠ z → w ≤ 0)) :
    c.network.Modest (c.context z horizon) horizon.maxWeight c.network := by
  have scaled := scaled_of_initialise wf
    (fun w mem => (stored w mem).imp_right le_of_lt : ∀ w ∈ g.allValues, w.InRange) ready hz hh
  refine ⟨fun u v e joined case l w mem => ?_, fun n hn apart => ?_⟩
  · obtain ⟨general, early⟩ := values u v e joined case l w mem
    obtain ⟨⟨_, bounded⟩, light⟩ := values_of_initialise wf stored ready hh u v e joined case l w mem
    exact {
      scaled := scaled.values u v e joined case l w mem
      bounded := bounded
      light := fun _ => light
      general := fun _ => by
        rw [RuleContext.nodeLabel, context, options_of_initialise ready]
        exact general
      early := early }
  · have early := (scaled.bounds n hn apart).1
    rw [RuleContext.nodeLabel, context, options_of_initialise ready]
    exact early

theorem check_ne_range (wf : g.WellFormed)
    (stored : ∀ w ∈ g.allValues, Value.negInf ≤ w ∧ w < Value.posInf)
    (ready : (ofNetwork g options rules).initialise = (c, .ok ()))
    (hz : c.z = some z) (hh : c.horizon = some horizon) (toZ : options.onlyToZ = true)
    (values : c.network.EveryValue fun u v _ l w =>
      l.subsumes (c.network.boundLabel options.withNodeLabels u) = true ∧ (v = z → u ≠ z → w ≤ 0))
    (room : horizon.value + horizon.maxWeight ≤ 2147483647) (e : RangeError) :
    ((ofNetwork g options rules).check stops).2 ≠ .error (.range e) := by
  intro failed
  obtain ⟨lhs, rhs, p, _, run⟩ := overflow_of_check ready hz hh failed
  have scaled := scaled_of_initialise wf
    (fun w mem => (stored w mem).imp_right le_of_lt : ∀ w ∈ g.allValues, w.InRange) ready hz hh
  refine (Propagation.toFixpoint_ends (p := ⟨c.network, .zero, 0, 0⟩)
    ⟨Propagation.performs_modest rfl ?_ scaled.finite room, (by rintro _ _ ⟨⟩), (by rintro _ _ ⟨⟩)⟩
      (Propagation.linksFunctional_of_no_links rfl) stops (c.network.cycleBound horizon.maxWeight)
      scaled.wellFormed (modest_of_initialise wf stored ready hz hh values)).of_error run lhs rhs rfl
  rw [context, options_of_initialise ready]
  exact toZ

end CstnChecker

/-- Whether labelled propagation meets two finite values, on consecutive edges of a network it reaches,
whose sum is not finite. -/
def MeetsOverflow (ctx : RuleContext) (start : Progress) (lhs rhs : Value) : Prop :=
  ctx.isEnabled .labelPropagation = true ∧ ∃ g x y w, Reached ctx start g ∧ x ≠ y ∧ y ≠ w ∧
    g.Stores x y lhs ∧ g.Stores y w rhs ∧ lhs.IsFinite ∧ rhs.IsFinite ∧ ¬ Value.IsFinite (lhs + rhs)

/-- Only a finite sum beyond the representable values lets the check of an initialised checker fail
arithmetically. In the networks that a propagation reaches, no value is below the negated horizon except
`−∞`, which has a sum with every value. Towards Z only, a check does not fail if values hold only where
the source of their edge occurs, none lets a node come before Z, and there is room for the largest weight
beyond the horizon. -/
theorem check_fails_at_finite_sums (g : LabeledNetwork) (wf : g.WellFormed)
    (stored : ∀ w ∈ g.allValues, Value.negInf ≤ w ∧ w < Value.posInf) (options : CheckerOptions)
    (rules : RuleSet) (c : CstnChecker) (z : NodeId) (horizon : Horizon)
    (ready : (CstnChecker.ofNetwork g options rules).initialise = (c, .ok ())) (hz : c.z = some z)
    (hh : c.horizon = some horizon) :
    (∀ stops e, ((CstnChecker.ofNetwork g options rules).check stops).2 = .error (.range e) →
      ∃ lhs rhs, e = .sumOverflow lhs rhs ∧
        MeetsOverflow (c.context z horizon) ⟨c.network, .zero, 0, 0⟩ lhs rhs) ∧
    (∀ h, Reached (c.context z horizon) ⟨c.network, .zero, 0, 0⟩ h →
      (h.EveryValue fun _ _ _ _ w => w = Value.negInf ∨ -horizon.value ≤ w ∧ w < Value.posInf) ∧
      ∀ x y w u v, h.Stores x y u → h.Stores y w v →
        (Value.sum? u v = none ↔ u.IsFinite ∧ v.IsFinite ∧ ¬ Value.IsFinite (u + v))) ∧
    (options.onlyToZ = true → horizon.value + horizon.maxWeight ≤ 2147483647 →
      (c.network.EveryValue fun u v _ l w =>
        l.subsumes (c.network.boundLabel options.withNodeLabels u) = true ∧
          (v = z → u ≠ z → w ≤ 0)) →
      ∀ stops e, ((CstnChecker.ofNetwork g options rules).check stops).2 ≠ .error (.range e)) := by
  have inRange : ∀ w ∈ g.allValues, w.InRange := fun w mem => (stored w mem).imp_right le_of_lt
  have scaled := CstnChecker.scaled_of_initialise wf inRange ready hz hh
  have reached : ∀ h, Reached (c.context z horizon) ⟨c.network, .zero, 0, 0⟩ h →
      h.EveryValue fun _ _ _ _ w => w.OnScale horizon.value ∧ w < Value.posInf :=
    fun h way => CstnChecker.values_of_reached wf stored ready hz hh way
  have sums : ∀ h, Reached (c.context z horizon) ⟨c.network, .zero, 0, 0⟩ h →
      ∀ x y w u v, h.Stores x y u → h.Stores y w v →
        (Value.sum? u v = none ↔ u.IsFinite ∧ v.IsFinite ∧ ¬ Value.IsFinite (u + v)) := by
    intro h way x y w u v first second
    obtain ⟨onScale, bounded⟩ := (reached h way).stores first
    obtain ⟨onScale', bounded'⟩ := (reached h way).stores second
    exact Value.sum?_eq_none_iff ⟨(onScale.inRange scaled.finite).1, bounded⟩
      ⟨(onScale'.inRange scaled.finite).1, bounded'⟩
  refine ⟨fun stops e failed => ?_, fun h way => ⟨?_, sums h way⟩,
    fun toZ room values stops e => CstnChecker.check_ne_range wf stored ready hz hh toZ values room e⟩
  · obtain ⟨lhs, rhs, p, rfl, run⟩ := CstnChecker.overflow_of_check ready hz hh failed
    obtain ⟨h, way, a, possible, derived⟩ :=
      Propagation.toFixpoint_overflows rfl scaled.wellFormed run
    obtain ⟨x, y, w, _, enabled, apart, apart', none, e, f, α, k, β, l, joined, first, joined',
      second⟩ := RuleContext.stores_of_sumOverflow rfl possible derived
    have stored₁ : h.Stores x y lhs := ⟨e, α, k, joined, first⟩
    have stored₂ : h.Stores y w rhs := ⟨f, β, l, joined', second⟩
    exact ⟨lhs, rhs, rfl, enabled, h, x, y, w, way, apart, apart', stored₁, stored₂,
      (sums h way x y w lhs rhs stored₁ stored₂).mp none⟩
  · refine (reached h way).mono fun u v c l w => ?_
    rintro ⟨lowest | above, bounded⟩
    · exact Or.inl lowest
    · exact Or.inr ⟨above.1, bounded⟩

/-- A path from Z whose length is beyond the representable values, although no value is. -/
def stretchedNetwork : LabeledNetwork :=
  (Network.build [.named "Z", .named "X", .named "Y"]
    [("early", 1, 0, .ofValue .ordinary .empty (-700000000)),
      ("after", 1, 2, .ofValue .ordinary .empty 100000000)]).getD .empty

/-- A representable horizon, with all finite values between it and its negation, is not enough for a check
not to fail. -/
theorem fails_with_representable_horizon :
    ¬ ∀ (g : LabeledNetwork) (options : CheckerOptions) (rules : RuleSet) (c : CstnChecker)
      (horizon : Horizon), g.WellFormed →
      (∀ w ∈ g.allValues, Value.negInf ≤ w ∧ w < Value.posInf) →
      (CstnChecker.ofNetwork g options rules).initialise = (c, .ok ()) →
      c.horizon = some horizon →
      (∀ w ∈ g.allValues ++ c.network.allValues, Value.IsFinite w →
        -horizon.value ≤ w ∧ w ≤ horizon.value) →
      ∀ stops e, ((CstnChecker.ofNetwork g options rules).check stops).2 ≠ .error (.range e) := by
  intro enough
  refine enough stretchedNetwork untimed .full
    (CstnChecker.ofNetwork stretchedNetwork untimed .full).initialise.1 ⟨700000000, 2100000000⟩
    (Network.wellFormed_getD_build _ _) (by decide +kernel) (Prod.ext rfl (by decide +kernel))
    (by decide +kernel) (by decide +kernel) .never (.sumOverflow 2100000000 100000000) ?_
  decide +kernel

/-- The check of the stretched network meets two values whose sum is beyond the representable values;
that of the observed network does not fail towards Z only. -/
theorem check_fails_at_finite_sums_stretched :
    (∃ c, (CstnChecker.ofNetwork stretchedNetwork untimed .full).initialise = (c, .ok ()) ∧
      MeetsOverflow (c.context 0 ⟨700000000, 2100000000⟩) ⟨c.network, .zero, 0, 0⟩ 2100000000
        100000000) ∧
    ∀ stops e, ((CstnChecker.ofNetwork observedNetwork { untimed with onlyToZ := true } .full).check
      stops).2 ≠ .error (.range e) := by
  constructor
  · refine ⟨_, Prod.ext rfl (by decide +kernel), ?_⟩
    obtain ⟨fails, _⟩ := check_fails_at_finite_sums stretchedNetwork
      (Network.wellFormed_getD_build _ _) (by decide +kernel) untimed .full
      (CstnChecker.ofNetwork stretchedNetwork untimed .full).initialise.1 0 ⟨700000000, 2100000000⟩
      (Prod.ext rfl (by decide +kernel)) (by decide +kernel) (by decide +kernel)
    obtain ⟨lhs, rhs, same, meets⟩ := fails .never (.sumOverflow 2100000000 100000000)
      (by decide +kernel)
    cases same
    exact meets
  · have wf : observedNetwork.WellFormed := Network.wellFormed_getD_build _ _
    have ready : (CstnChecker.ofNetwork observedNetwork { untimed with onlyToZ := true }
        .full).initialise = (_, .ok ()) := Prod.ext rfl (by decide +kernel)
    obtain ⟨_, _, towardsZ⟩ := check_fails_at_finite_sums observedNetwork wf (by decide +kernel)
      { untimed with onlyToZ := true } .full _ 0 ⟨5, 15⟩ ready (by decide +kernel) (by decide +kernel)
    refine towardsZ rfl (by decide) ?_
    intro u v e joined case l w mem
    obtain ⟨i, slot, stored, rfl, rfl, rfl⟩ :=
      (CstnChecker.wellFormed_of_initialise wf ready).edgeBetween?_eq_some_iff.mp joined
    have slots : ∀ s ∈ (CstnChecker.ofNetwork observedNetwork { untimed with onlyToZ := true }
        .full).initialise.1.network.slots.toList, ∀ slot, s = some slot →
        ∀ x ∈ slot.payload.allValues, slot.target = 0 → slot.source ≠ 0 → x.2.2 ≤ 0 := by
      decide +kernel
    exact ⟨Label.subsumes_empty l, slots _ (Network.mem_slots stored) slot rfl (case, l, w) mem⟩

end TemporalNetwork
