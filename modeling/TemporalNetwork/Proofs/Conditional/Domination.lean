import TemporalNetwork.Proofs.Conditional.Derivations
import TemporalNetwork.Proofs.Conditional.Passes

/-!
A fixpoint of the full rules dominates any other propagation from the same values: whatever one derives
with fewer rules or a later horizon, the fixpoint has a value that is not larger and applies in every
outlook that the label of the derived value shows. So the other propagation does not meet a negative
loop, since the fixpoint has none.
-/

namespace TemporalNetwork

namespace Value

variable {u u' v v' t t' : Value}

theorem eq_posInf_of_sum? (sum : sum? u v = some t) (infinite : u = posInf ∨ v = posInf) :
    t = posInf := by
  rcases sum?_cases sum with ⟨_, rfl⟩ | ⟨_, bounded, bounded', _⟩ | ⟨_, _, bounded, bounded', _⟩
  · rfl
  · exact absurd infinite (not_or.mpr ⟨bounded, bounded'⟩)
  · exact absurd infinite (not_or.mpr ⟨bounded, bounded'⟩)

theorem sum?_mono (first : u.InRange) (second : v.InRange) (first' : u'.InRange)
    (second' : v'.InRange) (le : u' ≤ u) (le' : v' ≤ v) (sum' : sum? u' v' = some t')
    (sum : sum? u v = some t) : t' ≤ t := by
  have pos : (posInf : Value) = 2147483647 := rfl
  have neg : (negInf : Value) = -2147483648 := rfl
  simp only [InRange] at first second first' second'
  rcases sum?_cases sum with ⟨_, rfl⟩ | ⟨low, _, _, rfl⟩ | ⟨rfl, ⟨_, _⟩, _, _, _, _⟩ <;>
    rcases sum?_cases sum' with ⟨high, rfl⟩ | ⟨_, _, _, rfl⟩ | ⟨rfl, ⟨_, _⟩, _, _, _, _⟩ <;>
    lia

end Value

theorem Label.consistent_of_and? {a b c : Label} (both : a.and? b = some c) :
    b.consistent a = true := by
  have agree := (and?_eq_some_iff.mp both).1
  refine consistent_iff.mpr fun p => ⟨fun ⟨right, left⟩ => ?_, fun ⟨right, left⟩ => ?_⟩
  · cases agree p _ _ left right
  · cases agree p _ _ left right

namespace ValueMap

variable {m : ValueMap} {l s : Label} {v t : Value}

theorem isSome_minConsistent? (mem : (l, v) ∈ m.entries) (agree : l.consistent s = true) :
    (m.minConsistent? s).isSome = true := by
  rw [Option.isSome_iff_ne_none, minConsistent?, Ne, List.min?_eq_none_iff, List.map_eq_nil_iff,
    List.filter_eq_nil_iff]
  exact fun none => none (l, v) mem agree

theorem any_min? (mem : (l, v) ∈ m.entries) (le : v ≤ t) : m.min?.any (· ≤ t) = true := by
  have listed : v ∈ m.entries.map Prod.snd := List.mem_map.mpr ⟨(l, v), mem, rfl⟩
  cases least : m.min? with
  | none =>
    rw [min?, List.min?_eq_none_iff] at least
    rw [least] at listed
    cases listed
  | some d => exact decide_eq_true (((List.min?_eq_some_iff.mp least).2 v listed).trans le)

end ValueMap

namespace RuleContext

variable {ctx : RuleContext} {g h : LabeledNetwork} {x y w : NodeId} {α β case case' : CaseLabel}
  {e : Outlook} {a b c l o : Label} {u v t : Value} {p : Proposition} {Q Q' : Label → Prop}

/-- The context of a check with other rules or another horizon. -/
def variant (ctx : RuleContext) (horizon : Value) (onlyToZ : Bool) (rules : RuleSet) : RuleContext :=
  { ctx with horizon := horizon, onlyToZ := onlyToZ, rules := rules }

theorem clamp_mono {horizon : Value} {onlyToZ : Bool} {rules : RuleSet}
    (later : ctx.horizon ≤ horizon) (range : v.InRange) (le : u ≤ v) :
    ctx.clamp u ≤ (ctx.variant horizon onlyToZ rules).clamp v := by
  have early : (ctx.variant horizon onlyToZ rules).horizon = horizon := rfl
  have least := range.1
  unfold clamp
  split <;> split <;> lia

end RuleContext

namespace Network

variable {g : LabeledNetwork} {x y : NodeId} {case case' : CaseLabel} {k l : Label} {u v : Value}

theorem Covers.mono (covered : g.Covers x y case l u) (letters : case.subset case' = true)
    (refines : k.subsumes l = true) (le : u ≤ v) : g.Covers x y case' k v := by
  obtain ⟨edge, joined, covers⟩ := covered
  exact ⟨edge, joined, LabeledEdge.Covers.mono (x := (case, l, u)) (y := (case', k, v)) covers
    ⟨letters, refines, le⟩⟩

/-- The value that makes a covered one redundant is covered itself. -/
theorem Covers.exists_mem (covered : g.Covers x y case l v) :
    ∃ edge c k w, g.edgeBetween? x y = some edge ∧ (c, k, w) ∈ edge.allValues ∧
      c.subset case = true ∧ l.subsumes k = true ∧ w ≤ v ∧ g.Covers x y case k w := by
  obtain ⟨edge, joined, ordinary | ⟨lettered, upper⟩⟩ := covered
  · obtain ⟨⟨k, w⟩, stored, refines, le⟩ := ValueMap.dominates_iff.mp ordinary
    refine ⟨edge, .empty, k, w, joined, LabeledEdge.mem_allValues.mpr (Or.inl ⟨rfl, stored⟩),
      CaseLabel.empty_subset case, refines, le, edge, joined, Or.inl ?_⟩
    exact ValueMap.dominates_iff.mpr ⟨(k, w), stored, Label.subsumes_refl k, le_rfl⟩
  · obtain ⟨⟨c, m⟩, group, letters, dominates⟩ := UpperCaseMap.dominates_iff.mp upper
    obtain ⟨⟨k, w⟩, stored, refines, le⟩ := ValueMap.dominates_iff.mp dominates
    refine ⟨edge, c, k, w, joined, LabeledEdge.mem_allValues.mpr (Or.inr ⟨m, group, stored⟩), letters,
      refines, le, edge, joined, Or.inr ⟨lettered, UpperCaseMap.dominates_iff.mpr ⟨(c, m), group,
        letters, ?_⟩⟩⟩
    exact ValueMap.dominates_iff.mpr ⟨(k, w), stored, Label.subsumes_refl k, le_rfl⟩

/-- Only ordinary values make ordinary ones redundant. -/
theorem Covers.exists_mem_values (covered : g.Covers x y .empty l v) :
    ∃ edge k w, g.edgeBetween? x y = some edge ∧ (k, w) ∈ edge.values.entries ∧
      l.subsumes k = true ∧ w ≤ v := by
  obtain ⟨edge, joined, ordinary | ⟨lettered, _⟩⟩ := covered
  · obtain ⟨⟨k, w⟩, stored, refines, le⟩ := ValueMap.dominates_iff.mp ordinary
    exact ⟨edge, k, w, joined, stored, refines, le⟩
  · cases lettered

end Network

namespace RuleContext

variable {ctx : RuleContext} {g h : LabeledNetwork} {x y w : NodeId} {α β case case' : CaseLabel}
  {e : Outlook} {a b c l o : Label} {u v t : Value} {p : Proposition}

/-- Whether the edge from `x` to `y` of the network bounds the distance by `v` in the outlook. -/
def Answers (ctx : RuleContext) (g : LabeledNetwork) (x y : NodeId) (case : CaseLabel) (e : Outlook)
    (v : Value) : Prop :=
  Value.posInf ≤ v ∨ ∃ l, ctx.Applies e l ∧ g.Covers x y case l v

theorem answers_of_settled (settled : (Derivation.value case l t).SettledAt g x y)
    (applies : ctx.Applies e l) (letters : case.subset case' = true) (le : t ≤ v) :
    ctx.Answers g x y case' e v := by
  rcases settled with rfl | covered
  · exact Or.inl le
  · exact Or.inr ⟨l, applies, covered.mono letters (Label.subsumes_refl l) le⟩

/-- A fixpoint of the full rules without contingent links. -/
structure Fixpoint (ctx : RuleContext) (g : LabeledNetwork) : Prop where
  wellFormed : g.WellFormed
  nested : ctx.Nested g
  regular : g.EveryValue (ctx.RegularValue g)
  rules : ctx.rules = .full
  everywhere : ctx.onlyToZ = false
  unlinked : ctx.links = []
  nonneg : 0 ≤ ctx.horizon
  settled : ∀ a : Application, a.Relevant ctx → a.Settled ctx g

namespace Fixpoint

theorem enabled_r0 (fixpoint : ctx.Fixpoint g) (w : NodeId) :
    ctx.isEnabled (ctx.r0Name w) = true := by
  rw [isEnabled, fixpoint.rules, r0Name]
  split <;> rfl

theorem enabled_r3 (fixpoint : ctx.Fixpoint g) (w : NodeId) :
    ctx.isEnabled (ctx.r3Name w) = true := by
  rw [isEnabled, fixpoint.rules, r3Name]
  split <;> rfl

theorem enabled_labelPropagation (fixpoint : ctx.Fixpoint g) :
    ctx.isEnabled .labelPropagation = true := by
  rw [isEnabled, fixpoint.rules]
  rfl

/-- Two values of a path whose labels apply in one outlook: their sum answers there, and it is not
negative on a loop where everything is known. -/
theorem path (fixpoint : ctx.Fixpoint g) (apart : x ≠ y) (apart' : y ≠ w) {edge edge' : LabeledEdge}
    (joined : g.edgeBetween? x y = some edge) (stored : (α, a, u) ∈ edge.allValues)
    (joined' : g.edgeBetween? y w = some edge') (stored' : (β, b, v) ∈ edge'.allValues)
    (letters : ¬ ((!α.isEmpty) = true ∧ 0 ≤ u ∨ α.intersects β = true))
    (first : ctx.Applies e a) (second : ctx.Applies e b)
    (agree : e.Knows ∨ w = ctx.z ∧ u < 0 ∧ ∀ t, Value.sum? u v = some t → ctx.clamp t < 0) :
    ∃ t, Value.sum? u v = some t ∧
      (x ≠ w → ctx.Answers g x w (α ∪ β) e (ctx.clamp t)) ∧
      (x = w → (α ∪ β).isEmpty = true → e.Knows → 0 ≤ ctx.clamp t) := by
  have derived : ∀ d, ctx.propagateValues? g x w (α, a, u) (β, b, v) = some d →
      d.SettledAt g x w := fun d made =>
    fixpoint.settled (.labelPropagation x y w)
      (fun toZ => absurd (fixpoint.everywhere.symm.trans toZ) Bool.false_ne_true) d
      (mem_labelPropagation.mpr ⟨fixpoint.enabled_labelPropagation, apart, apart', edge, edge', joined,
        joined', _, stored, _, stored', made⟩)
  cases sum : Value.sum? u v with
  | none => exact (derived _ (propagateValues?_eq_some_iff.mpr ⟨letters, Or.inl ⟨sum, rfl⟩⟩)).elim
  | some t =>
    have both := first.blend second
    have combined : ctx.combine? (w = ctx.z ∧ ctx.clamp t < 0 ∧ u < 0) a b =
        some (ctx.dropChildrenOfUnknown (a.blend b)) := by
      refine combine?_eq_some_iff.mpr ⟨?_, rfl⟩
      rcases agree with knows | ⟨toZ, negative, below⟩
      · exact Or.inr ⟨first.hasUnknown knows, second.hasUnknown knows, first.and? second knows⟩
      · exact Or.inl (decide_eq_true ⟨toZ, below t sum, negative⟩)
    refine ⟨t, rfl, fun other => ?_, fun loop plain knows => ?_⟩
    · have settled := derived _ (propagateValues?_eq_some_iff.mpr
        ⟨letters, Or.inr ⟨t, _, sum, combined, Or.inr ⟨other, rfl⟩⟩⟩)
      exact answers_of_settled settled both.drop (CaseLabel.subset_refl _) le_rfl
    · by_contra negative
      refine derived _ (propagateValues?_eq_some_iff.mpr ⟨letters, Or.inr ⟨t, _, sum, combined,
        Or.inl ⟨loop, closeLoop?_eq_some_iff.mpr ⟨not_le.mp negative, plain, Or.inr ⟨?_, rfl⟩⟩⟩⟩⟩)
      exact both.drop.hasUnknown knows

/-- A value on the edge from the observer of `p` is covered without `p`. -/
theorem strip (fixpoint : ctx.Fixpoint g) (apart : x ≠ w) (observes : (g.nodeD x).observed = some p)
    (covered : g.Covers x w case l v) (early : v ≤ 0) (known : w ≠ ctx.z → l.hasUnknown = false)
    (source : ctx.Grants e (ctx.nodeLabel g x)) (target : ctx.Grants e (ctx.nodeLabel g w))
    (free : (ctx.nodeLabel g w).mentions p = false) (applies : ctx.Applies e (ctx.forget p l)) :
    ∃ k, ctx.Applies e k ∧ k.mentions p = false ∧ g.Covers x w case k v := by
  obtain ⟨edge, c, k, t, joined, stored, letters, refines, le, covered'⟩ := covered.exists_mem
  have applies := applies.mono (ctx.forget_subsumes_forget p refines)
  by_cases mentioned : k.mentions p = true
  · obtain ⟨m, conjoined, here, mentions⟩ := applies.withEndpoints? source target
    have absent : m.mentions p = false := by
      rw [Bool.eq_false_iff]
      intro again
      rcases mentions p again with left | left | left
      · rw [Label.mentions_eq, state_forget_of_forgets (Or.inl rfl)] at left
        cases left
      · exact Bool.eq_false_iff.mp (fixpoint.nested.own x p observes) left
      · exact Bool.eq_false_iff.mp free left
    have known' : w ≠ ctx.z → k.hasUnknown = false := fun away =>
      Label.hasUnknown_of_subsumes refines (known away)
    have settled := fixpoint.settled (.r0 x w) trivial _ (mem_r0.mpr ⟨apart, fixpoint.enabled_r0 w, p,
      edge, observes, joined, _, stored, stripObserved?_eq_some_iff.mpr
        ⟨le.trans early, mentioned, known', m, conjoined, absent, rfl⟩⟩)
    rcases settled with rfl | covered''
    · exact absurd (le.trans early) (by decide)
    · exact ⟨m, here, absent, covered''.mono letters (Label.subsumes_refl m) le⟩
  · rw [Bool.not_eq_true] at mentioned
    rw [forget_eq_self fixpoint.nested (fixpoint.regular x w edge joined c k t stored).2
      mentioned] at applies
    exact ⟨k, applies, mentioned, covered'.mono (CaseLabel.subset_refl case) (Label.subsumes_refl k) le⟩

end Fixpoint

/-- Whether the value is regular, and the network `g` has an answer to it in every outlook that its label
shows. Loops are read by no rule and may hold anything. -/
def AnsweredValue (ctx : RuleContext) (g : LabeledNetwork) : ValueProperty := fun x y case label value =>
  ctx.RegularValue g x y case label value ∧
    (x ≠ y → ∀ e, label.Shows e → ctx.Answers g x y case e value)

theorem Answers.mono (answers : ctx.Answers g x y case e u) (letters : case.subset case' = true)
    (le : u ≤ v) : ctx.Answers g x y case' e v := by
  rcases answers with infinite | ⟨l, applies, covered⟩
  · exact Or.inl (infinite.trans le)
  · exact Or.inr ⟨l, applies, covered.mono letters (Label.subsumes_refl l) le⟩

theorem joinsTwins_answeredValue (ctx : RuleContext) (g : LabeledNetwork) (x y : NodeId) :
    JoinsTwins (ctx.AnsweredValue g x y) (ctx.AnsweredValue g x y) where
  stored _ _ _ := id
  joined case label u literal v new flips twin := by
    refine ⟨(joinsTwins_regularValue ctx g x y).joined _ _ _ _ _ new.1 flips twin.1,
      fun apart e shows => ?_⟩
    rcases shows.twin flips with here | there
    · exact (new.2 apart e here).mono (CaseLabel.subset_refl case) (le_max_left u v)
    · exact (twin.2 apart e there).mono (CaseLabel.subset_refl case) (le_max_right u v)

namespace Fixpoint

variable {horizon : Value} {onlyToZ : Bool} {rules : RuleSet} {d : Derivation}

theorem answers_sum (fixpoint : ctx.Fixpoint g) (later : ctx.horizon ≤ horizon) (apart : x ≠ y)
    (apart' : y ≠ w) (first : ctx.AnsweredValue g x y α a u)
    (second : ctx.AnsweredValue g y w β b v)
    (letters : ¬ ((!α.isEmpty) = true ∧ 0 ≤ u ∨ α.intersects β = true))
    (sum : Value.sum? u v = some t)
    (combined : ctx.combine? (w = ctx.z ∧ (ctx.variant horizon onlyToZ rules).clamp t < 0 ∧ u < 0) a b =
      some c) (shows : c.Shows e) :
    (x ≠ w → ctx.Answers g x w (α ∪ β) e ((ctx.variant horizon onlyToZ rules).clamp t)) ∧
      (x = w → (α ∪ β).isEmpty = true → e.Knows →
        0 ≤ (ctx.variant horizon onlyToZ rules).clamp t) := by
  obtain ⟨agree, rfl⟩ := combine?_eq_some_iff.mp combined
  have combines : ctx.Combines (fun _ => False) a b (ctx.dropChildrenOfUnknown (a.blend b)) :=
    ⟨fun _ _ gone _ => gone, a.blend b, Label.subsumes_refl _, fun p _ => Label.state_blend a b p⟩
  -- A value without an answer is `+∞`, and so is the sum then.
  have infinite : u = Value.posInf ∨ v = Value.posInf →
      (ctx.variant horizon onlyToZ rules).clamp t = Value.posInf := by
    intro infinite
    rw [Value.eq_posInf_of_sum? sum infinite, clamp, if_neg]
    have nonneg : 0 ≤ horizon := fixpoint.nonneg.trans later
    have pos : (Value.posInf : Value) = 2147483647 := rfl
    have early : (ctx.variant horizon onlyToZ rules).horizon = horizon := rfl
    lia
  have high : 0 ≤ (Value.posInf : Value) := by decide
  rcases first.2 apart _ (a.shows_view (b.view e)) with top | ⟨k, here, covered⟩
  · have top := infinite (Or.inl (le_antisymm first.1.1.2 top))
    exact ⟨fun _ => Or.inl top.ge, fun _ _ _ => top ▸ high⟩
  rcases second.2 apart' _ (b.shows_view (a.view e)) with top | ⟨k', here', covered'⟩
  · have top := infinite (Or.inr (le_antisymm second.1.1.2 top))
    exact ⟨fun _ => Or.inl top.ge, fun _ _ _ => top ▸ high⟩
  obtain ⟨edge, α', a', u', joined, stored, fewer, refines, le, _⟩ := covered.exists_mem
  obtain ⟨edge', β', b', v', joined', stored', fewer', refines', le', _⟩ := covered'.exists_mem
  have here := (combines.applies_left fixpoint.nested shows here fun _ gone => gone.elim).mono refines
  have here' := (combines.symm.applies_left fixpoint.nested shows here'
    fun _ gone => gone.elim).mono refines'
  have below : ∀ t', Value.sum? u' v' = some t' →
      ctx.clamp t' ≤ (ctx.variant horizon onlyToZ rules).clamp t := fun t' sum' =>
    clamp_mono later (inRange_of_sum? sum) (Value.sum?_mono first.1.1 second.1.1
      (fixpoint.regular x y edge joined _ _ _ stored).1
      (fixpoint.regular y w edge' joined' _ _ _ stored').1 le le' sum' sum)
  -- The answers are no larger, so they may be combined where the values may.
  have agree' : e.Knows ∨ w = ctx.z ∧ u' < 0 ∧
      ∀ t', Value.sum? u' v' = some t' → ctx.clamp t' < 0 := by
    rcases agree with differ | ⟨known, known', both⟩
    · obtain ⟨toZ, negative, negative'⟩ := of_decide_eq_true differ
      exact Or.inr ⟨toZ, le.trans_lt negative', fun t' sum' => (below t' sum').trans_lt negative⟩
    · exact Or.inl (shows.knows (hasUnknown_dropChildrenOfUnknown
        (Label.hasUnknown_and? both known known')))
  have letters' : ¬ ((!α'.isEmpty) = true ∧ 0 ≤ u' ∨ α'.intersects β' = true) := by
    rintro (⟨lettered, nonneg⟩ | meet)
    · refine letters (Or.inl ⟨?_, nonneg.trans le⟩)
      rw [Bool.not_eq_true', ← Bool.not_eq_true] at lettered ⊢
      exact fun none => lettered (CaseLabel.isEmpty_of_subset fewer none)
    · exact letters (Or.inr (CaseLabel.intersects_mono fewer fewer' meet))
  obtain ⟨t', sum', other, loop⟩ := fixpoint.path apart apart' joined stored joined' stored' letters'
    here here' agree'
  refine ⟨fun away => (other away).mono (CaseLabel.union_subset_union fewer fewer') (below t' sum'),
    fun same plain knows => ?_⟩
  exact (loop same (CaseLabel.isEmpty_of_subset (CaseLabel.union_subset_union fewer fewer') plain)
    knows).trans (below t' sum')

/-- Labelled propagation derives values that have answers from such values. -/
theorem allowed_propagateValues (fixpoint : ctx.Fixpoint g) (later : ctx.horizon ≤ horizon)
    (apart : x ≠ y) (apart' : y ≠ w) (first : ctx.AnsweredValue g x y α a u)
    (second : ctx.AnsweredValue g y w β b v)
    (made : (ctx.variant horizon onlyToZ rules).propagateValues? g x w (α, a, u) (β, b, v) = some d) :
    d.Allowed (ctx.AnsweredValue g) x w := by
  obtain ⟨letters, ⟨_, rfl⟩ | ⟨t, c, sum, combined, ends⟩⟩ := propagateValues?_eq_some_iff.mp made
  · trivial
  · have combined' : ctx.combine? (w = ctx.z ∧
        (ctx.variant horizon onlyToZ rules).clamp t < 0 ∧ u < 0) a b = some c := combined
    have answers := fun e => fixpoint.answers_sum (e := e) later apart apart' first second letters sum
      combined'
    have closed : ctx.ClosedLabel g c := by
      rw [(combine?_eq_some_iff.mp combined').2]
      exact first.1.2.blend second.1.2 fixpoint.nested
    rcases ends with ⟨same, loop⟩ | ⟨other, rfl⟩
    · obtain ⟨negative, plain, ⟨_, rfl⟩ | ⟨known, rfl⟩⟩ := closeLoop?_eq_some_iff.mp loop
      · exact ⟨⟨by decide, closed⟩, fun apart => absurd same apart⟩
      · -- A known label shows an outlook in which the fixpoint would have a negative loop.
        have shows := c.shows_view fun _ => .straight
        have nonneg := (answers _ shows).2 same plain (shows.knows known)
        exact absurd negative (not_lt.mpr nonneg)
    · exact ⟨⟨clamp_inRange sum, closed⟩, fun apart e shows => (answers e shows).1 apart⟩

theorem allowed_stripObserved (fixpoint : ctx.Fixpoint g) (apart : x ≠ w)
    (observes : (g.nodeD x).observed = some p) (value : ctx.AnsweredValue g x w case l v)
    (made : (ctx.variant horizon onlyToZ rules).stripObserved? g x w p (case, l, v) = some d) :
    d.Allowed (ctx.AnsweredValue g) x w := by
  obtain ⟨early, _, known, c, conjoined, absent, rfl⟩ := stripObserved?_eq_some_iff.mp made
  have conjoined : ctx.withEndpoints? g x w (ctx.forget p l) = some c := conjoined
  obtain ⟨range, closed⟩ := value.1
  refine ⟨⟨range, (closed.forget fixpoint.nested p).withEndpoints? fixpoint.nested conjoined⟩,
    fun _ e shows => ?_⟩
  obtain ⟨general, source, target⟩ := withEndpoints?_subsumes conjoined
  have combines : ctx.Combines (ctx.Forgets p) l .empty c := by
    refine ⟨fun q r forgets child => forgets.child fixpoint.nested child, ctx.forget p l,
      Label.subsumes_trans general (ctx.subsumes_dropChildrenOfUnknown _), fun q kept => ?_⟩
    rw [state_forget kept, Label.state_empty, Label.blendStates_comm]
    rfl
  have shows' := l.shows_view (Label.empty.view e)
  rcases value.2 apart _ shows' with top | ⟨k, here, covered⟩
  · exact Or.inl top
  have forgotten := combines.applies_left fixpoint.nested shows
    (here.mono (ctx.subsumes_forget p k)) fun q forgets _ => state_forget_of_forgets forgets k
  have free : (ctx.nodeLabel g w).mentions p = false := by
    rw [Bool.eq_false_iff] at absent ⊢
    exact fun mentioned => absent (Label.mentions_of_subsumes target mentioned)
  obtain ⟨k', here', _, covered'⟩ := fixpoint.strip apart observes covered early
    (fun away => here.hasUnknown (shows'.knows (known away)))
    (fixpoint.nested.grants shows source) (fixpoint.nested.grants shows target) free forgotten
  exact Or.inr ⟨k', here', covered'⟩

theorem combines_forget (nested : ctx.Nested g)
    (general : c.subsumes (ctx.dropChildrenOfUnknown ((ctx.forget p l).blend o)) = true) :
    ctx.Combines (ctx.Forgets p) l o c :=
  ⟨fun _ _ forgets child => forgets.child nested child, _, general, fun q kept => by
    rw [Label.state_blend, state_forget kept]⟩

/-- An outlook that sees `p` grants what its observer needs, if the first of two labels which are combined
without `p` mentions it. -/
theorem grants_observer (nested : ctx.Nested g) (combines : ctx.Combines (ctx.Forgets p) l o c)
    (shows : c.Shows e) (closed : ctx.ClosedLabel g l) {n : NodeId}
    (observes : (g.nodeD n).observed = some p) (mentioned : l.mentions p = true)
    (sees : ctx.Sees e p) : ctx.Grants e (ctx.nodeLabel g n) := by
  intro q s needed
  have child : (ctx.children q).contains p = true := (nested.children q p).mpr
    ⟨n, observes, by rw [Label.mentions_eq, needed]; rfl⟩
  have sees' := nested.sees_of_child sees child
  have kept : ¬ ctx.Forgets p q := by
    rintro (rfl | later)
    · rw [nested.irrefl] at child
      cases child
    · have round := nested.trans later child
      rw [nested.irrefl] at round
      cases round
  refine ⟨sees', ?_⟩
  rw [← (combines.sees_left nested shows kept sees').2]
  exact Label.view_of_state (Label.subsumes_iff.mp (closed n p observes mentioned) q s needed) _

/-- A fixpoint combines a value whose label mentions `p` with an observation that does not. -/
theorem observe (fixpoint : ctx.Fixpoint g) {n : NodeId} (observes : (g.nodeD n).observed = some p)
    (apart : x ≠ w) (other : n ≠ x) (other' : n ≠ w) {edge edge' : LabeledEdge}
    (joined : g.edgeBetween? x w = some edge) (stored : (case, l, v) ∈ edge.allValues)
    (joined' : g.edgeBetween? n w = some edge') (stored' : (o, t) ∈ edge'.values.entries)
    (early : t ≤ 0) (mentioned : l.mentions p = true) (absent : o.mentions p = false)
    (known : w = ctx.z ∨ e.Knows ∧ l.hasUnknown = false)
    (first : ctx.Applies e (ctx.forget p l)) (second : ctx.Applies e o)
    (source : ctx.Grants e (ctx.nodeLabel g x)) (target : ctx.Grants e (ctx.nodeLabel g w))
    (free : (ctx.nodeLabel g x).mentions p = false) (free' : (ctx.nodeLabel g w).mentions p = false) :
    ctx.Answers g x w case e (max v t) := by
  have closed := (fixpoint.regular n w edge' joined' _ _ _
    (LabeledEdge.mem_allValues.mpr (Or.inl ⟨rfl, stored'⟩))).2
  have combined := first.blend second
  rw [← eraseAll_blend fixpoint.nested closed absent] at combined
  obtain ⟨c, conjoined, here, mentions⟩ := combined.drop.withEndpoints? source target
  have free'' : c.mentions p = false := by
    rw [Bool.eq_false_iff]
    intro again
    rcases mentions p again with left | left | left
    · have before := Label.mentions_of_subsumes (ctx.subsumes_dropChildrenOfUnknown _) left
      rw [eraseAll_blend fixpoint.nested closed absent, Label.mentions_eq, Label.state_blend,
        state_forget_of_forgets (Or.inl rfl)] at before
      exact Bool.eq_false_iff.mp absent ((o.mentions_eq p).trans before)
    · exact Bool.eq_false_iff.mp free left
    · exact Bool.eq_false_iff.mp free' left
  -- Away from Z the outlook knows everything, so that labels which apply in it agree.
  have agree : w = ctx.z ∨
      o.hasUnknown = false ∧ (l.erase p).and? o = some ((l.erase p).blend o) := by
    refine known.imp_right fun ⟨knows, _⟩ => ⟨second.hasUnknown knows, ?_⟩
    refine Label.and?_eq_some_iff.mpr ⟨fun q s s' left right => ?_, rfl⟩
    have kept : ¬ ctx.Forgets p q := fun forgets => by
      rw [fixpoint.nested.state_of_forgets closed absent forgets] at right
      cases right
    rw [Label.state_erase, if_neg fun same => kept (Or.inl same.symm), ← state_forget kept] at left
    rw [← first q s (sees_of_knows knows q) left, second q s' (sees_of_knows knows q) right]
  have observable : ctx.isObservable w p edge'.values l = true := by
    rw [isObservable, mentioned, Bool.true_and, Bool.or_eq_true, beq_iff_eq]
    by_cases toZ : w = ctx.z
    · exact Or.inl toZ
    · obtain ⟨_, both⟩ := agree.resolve_left toZ
      rw [(known.resolve_left toZ).2]
      exact Or.inr (ValueMap.isSome_minConsistent? stored' (Label.consistent_of_and? both))
  have labelled : l.isEmpty = false := by
    rw [Bool.eq_false_iff, Ne, Label.isEmpty_iff]
    rintro rfl
    rw [Label.mentions_eq, Label.state_empty] at mentioned
    cases mentioned
  have settled := fixpoint.settled (.r3 x w) trivial _ (mem_r3.mpr ⟨apart, fixpoint.enabled_r3 w, edge,
    joined, p, edge'.values, (mem_observationsInto fixpoint.wellFormed
      (fixpoint.wellFormed.lt_of_edgeBetween? joined).2).mpr
      ⟨n, edge', other, other', observes, joined', ValueMap.any_min? stored' early, rfl⟩, _, stored,
    labelled, observable, _, stored', observeValue?_eq_some_iff.mpr ⟨early, absent, agree, c, conjoined, free'', rfl⟩⟩)
  exact answers_of_settled settled here (CaseLabel.subset_refl case) le_rfl

theorem allowed_observeValue (fixpoint : ctx.Fixpoint g) {n : NodeId}
    (observes : (g.nodeD n).observed = some p) (apart : x ≠ w) (other : n ≠ x) (other' : n ≠ w)
    (mentioned : l.mentions p = true) (known : w = ctx.z ∨ l.hasUnknown = false)
    (value : ctx.AnsweredValue g x w case l v) (observation : ctx.AnsweredValue g n w .empty o t)
    (made : (ctx.variant horizon onlyToZ rules).observeValue? g x w p (case, l, v) (o, t) = some d) :
    d.Allowed (ctx.AnsweredValue g) x w := by
  have nested := fixpoint.nested
  obtain ⟨early, absent, agree, c, conjoined, absent', rfl⟩ := observeValue?_eq_some_iff.mp made
  have conjoined : ctx.withEndpoints? g x w (ctx.dropChildrenOfUnknown
      (((l.erase p).blend o).eraseAll (ctx.children p))) = some c := conjoined
  have agree : w = ctx.z ∨
    o.hasUnknown = false ∧ (l.erase p).and? o = some ((l.erase p).blend o) := agree
  obtain ⟨range, closed⟩ := value.1
  obtain ⟨range', closed'⟩ := observation.1
  have unknownFree : w = ctx.z ∨ l.hasUnknown = false ∧ c.hasUnknown = false := by
    by_cases toZ : w = ctx.z
    · exact Or.inl toZ
    · have knownFirst := known.resolve_left toZ
      obtain ⟨knownSecond, both⟩ := agree.resolve_left toZ
      refine Or.inr ⟨knownFirst, hasUnknown_withEndpoints? nested.known conjoined ?_⟩
      exact hasUnknown_dropChildrenOfUnknown (Label.hasUnknown_eraseAll (Label.hasUnknown_and? both
        (Label.hasUnknown_erase knownFirst p) knownSecond) _)
  rw [eraseAll_blend nested closed' absent] at conjoined
  refine ⟨⟨inRange_max range range',
    ((closed.forget nested p).blend closed' nested).withEndpoints? nested conjoined⟩,
    fun _ e shows => ?_⟩
  obtain ⟨general, source, target⟩ := withEndpoints?_subsumes conjoined
  have combines := combines_forget nested general
  have shows' := l.shows_view (o.view e)
  rcases value.2 apart _ shows' with top | ⟨k, here, covered⟩
  · exact Or.inl (top.trans (le_max_left v t))
  obtain ⟨edge, c', k', v', joined, stored, fewer, refines, le, covered'⟩ := covered.exists_mem
  have here := here.mono refines
  by_cases unseen : ∀ q, ctx.Forgets p q → ctx.Sees e q → k'.state q = none
  · -- What the answer knows of `p` and after is not seen, so it applies as it is.
    exact Or.inr ⟨k', combines.applies_left nested shows here unseen,
      covered'.mono (CaseLabel.subset_refl case) (Label.subsumes_refl k')
        (le.trans (le_max_left v t))⟩
  simp only [not_forall] at unseen
  obtain ⟨q, forgets, sees, stated⟩ := unseen
  have sees' : ctx.Sees e p := by
    rcases forgets with rfl | child
    · exact sees
    · exact nested.sees_of_child sees child
  have mentioned' : k'.mentions p = true := by
    refine nested.mentions_of_forgets (fixpoint.regular x w edge joined c' k' v' stored).2 forgets ?_
    rwa [Label.mentions_eq, Option.isSome_iff_ne_none]
  have free : ∀ m, c.subsumes m = true → m.mentions p = false := by
    intro m general'
    rw [Bool.eq_false_iff] at absent' ⊢
    exact fun again => absent' (Label.mentions_of_subsumes general' again)
  have source' := nested.grants shows source
  have target' := nested.grants shows target
  -- The observation has an answer that does not mention `p`, with which the fixpoint combines it.
  have shows'' := o.shows_view (l.view e)
  rcases observation.2 other' _ shows'' with top | ⟨m, there, observed⟩
  · exact absurd (top.trans early) (by decide)
  obtain ⟨m', there', without, observed'⟩ := fixpoint.strip other' observes observed early
    (fun away => there.hasUnknown (shows''.knows (agree.resolve_left away).1))
    (grants_observer nested combines shows closed observes mentioned sees') target' (free _ target)
    (combines.symm.applies_left nested shows (there.mono (ctx.subsumes_forget p m))
      fun q forgets _ => state_forget_of_forgets forgets m)
  obtain ⟨edge', m'', t', joined', stored', refines', le'⟩ := observed'.exists_mem_values
  have without' : m''.mentions p = false := by
    rw [Bool.eq_false_iff] at without ⊢
    exact fun again => without (Label.mentions_of_subsumes refines' again)
  refine (fixpoint.observe observes apart other other' joined stored joined' stored' (le'.trans early)
    mentioned' without' ?_ ?_ (there'.mono refines') source' target' (free _ source)
    (free _ target)).mono fewer (max_le_max le le')
  · exact unknownFree.imp_right fun ⟨knownFirst, known'⟩ =>
      ⟨shows.knows known', here.hasUnknown (shows'.knows knownFirst)⟩
  · exact combines.applies_left nested shows (here.mono (ctx.subsumes_forget p k'))
      fun q forgets _ => state_forget_of_forgets forgets k'

/-- A propagation among values that the fixpoint has answers to meets no negative loop. -/
theorem performs (fixpoint : ctx.Fixpoint g) (later : ctx.horizon ≤ horizon) {start : LabeledNetwork}
    (nodes : start.nodes = g.nodes) :
    Propagation.Performs (ctx.variant horizon onlyToZ rules) start
      (Network.EveryValue (ctx.AnsweredValue g)) fun halt => ∀ loop, halt ≠ .negativeLoop loop where
  perform a p possible wf grows holds := by
    have unlinked : (ctx.variant horizon onlyToZ rules).links = [] := fixpoint.unlinked
    have same : ∀ n, p.network.nodeD n = g.nodeD n := fun n => by
      rw [grows.nodeD, Network.nodeD, Network.node?, nodes, Network.nodeD, Network.node?]
    unfold Ends
    rw [Application.perform_eq]
    refine Propagation.apply_allowed (P := ctx.AnsweredValue g) (fun k wf' hu hv every _ _ _ new =>
      every.mergeInto_twins (joinsTwins_answeredValue ctx g) wf' hu hv .derived new) _ _ p wf holds
      (Application.inRange wf) fun d derived => ?_
    cases derives_of_mem unlinked wf possible derived with
    | strip apart observes joined stored made =>
      rw [same] at observes
      rw [stripObserved?_congr same] at made
      exact fixpoint.allowed_stripObserved apart observes (holds _ _ _ joined _ _ _ stored) made
    | observe apart other other' observes joined stored joined' stored' observable made =>
      rw [same] at observes
      rw [observeValue?_congr same] at made
      obtain ⟨mentioned, known⟩ := (Bool.and_eq_true _ _).mp observable
      refine fixpoint.allowed_observeValue observes apart other other' mentioned ?_
        (holds _ _ _ joined _ _ _ stored) (holds _ _ _ joined' _ _ _ stored') made
      rcases (Bool.or_eq_true _ _).mp known with toZ | known
      · exact Or.inl (beq_iff_eq.mp toZ)
      · simp only [Bool.and_eq_true, Bool.not_eq_true'] at known
        exact Or.inr known.1
    | path _ apart apart' joined stored joined' stored' made =>
      rw [propagateValues?_congr same] at made
      exact fixpoint.allowed_propagateValues later apart apart' (holds _ _ _ joined _ _ _ stored)
        (holds _ _ _ joined' _ _ _ stored') made

theorem toFixpoint_ends (fixpoint : ctx.Fixpoint g) (later : ctx.horizon ≤ horizon) {p : Progress}
    (wf : p.network.WellFormed) (nodes : p.network.nodes = g.nodes)
    (answered : p.network.EveryValue (ctx.AnsweredValue g)) (stops : Polls) (cycleBound : Nat) :
    Ends (Propagation.toFixpoint (ctx.variant horizon onlyToZ rules) stops cycleBound) p
      (fun _ _ => True) fun halt _ => ∀ loop, halt ≠ .negativeLoop loop := by
  refine (Propagation.toFixpoint_ends ⟨fixpoint.performs later nodes, nofun, nofun⟩
    (Propagation.linksFunctional_of_no_links fixpoint.unlinked) stops cycleBound wf answered).mono
      (fun _ _ _ => trivial) fun _ _ => id

theorem answeredValue_of_covers (regular : ctx.RegularValue g x y case l v)
    (covered : g.Covers x y case l v) : ctx.AnsweredValue g x y case l v :=
  ⟨regular, fun _ _ shows => Or.inr ⟨l, .of_shows shows, covered⟩⟩

end Fixpoint

theorem performs_regular {start : LabeledNetwork} (nested : ctx.Nested start)
    (unlinked : ctx.links = []) :
    Propagation.Performs ctx start (Network.EveryValue (ctx.RegularValue start)) Halt.Derived := by
  refine Propagation.performs_values (P := ctx.RegularValue start)
    (fun k u v wf hu hv every _ _ _ new =>
      every.mergeInto_twins (joinsTwins_regularValue ctx start) wf hu hv .derived new)
    fun a k possible wf grows every case label w derived => ?_
  rw [← regularValue_congr grows.nodeD] at every ⊢
  exact (nested.congr grows.nodeD).regular_derivations every
    (derives_of_mem unlinked wf possible derived)

/-- What a propagation with the full rules starts from. -/
structure Sound (ctx : RuleContext) (g : LabeledNetwork) : Prop where
  wellFormed : g.WellFormed
  nested : ctx.Nested g
  regular : g.EveryValue (ctx.RegularValue g)

theorem Sound.fixpoint {p q : Progress} (sound : ctx.Sound p.network) (rules : ctx.rules = .full)
    (everywhere : ctx.onlyToZ = false) (unlinked : ctx.links = []) (nonneg : 0 ≤ ctx.horizon)
    {stops : Polls} {cycleBound : Nat}
    (run : (Propagation.toFixpoint ctx stops cycleBound).run p = .ok () q) :
    ctx.Fixpoint q.network ∧ p.network.Grows q.network := by
  obtain ⟨wf, grows, regular, settled⟩ := (Propagation.toFixpoint_ends
    (performs_regular sound.nested unlinked).keeps (Propagation.linksFunctional_of_no_links unlinked)
    stops cycleBound sound.wellFormed sound.regular).of_ok run
  rw [← regularValue_congr grows.nodeD] at regular
  exact ⟨⟨wf, sound.nested.congr grows.nodeD, regular, rules, everywhere, unlinked, nonneg, settled⟩,
    grows⟩

end RuleContext

end TemporalNetwork
