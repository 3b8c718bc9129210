import TemporalNetwork.Proofs.Conditional.Links
import TemporalNetwork.Proofs.Conditional.Projection

/-!
What the rules for contingent links have derived at a fixpoint, in one scenario. An upper-case value
into the activation node of a link lets its source wait until the link has ended. Values are added along
paths, a wait that is short enough becomes a constraint, and a negative value that leaves the end of a
link bounds its start.
-/

namespace TemporalNetwork

namespace CaseLabel

variable {a : CaseLabel} {c : CaseLetter}

theorem subset_ofLetter (within : a.subset (.ofLetter c) = true) : a = .empty ∨ a = .ofLetter c := by
  have only : ∀ d, a.contains d = true → c = d := fun d inside => by
    simpa using subset_iff.mp within d inside
  cases held : a.contains c with
  | true =>
    refine Or.inr (ext_contains fun d => ?_)
    by_cases same : c = d
    · subst same
      simpa using held
    · rw [contains_ofLetter, decide_eq_false same, ← Bool.not_eq_true]
      exact fun inside => same (only d inside)
  | false =>
    refine Or.inl (ext_contains fun d => ?_)
    rw [contains_empty, ← Bool.not_eq_true]
    intro inside
    rw [only d inside, inside] at held
    cases held

theorem erase_ofLetter (c : CaseLetter) : (ofLetter c).erase c = .empty :=
  ext_contains fun d => by simp

end CaseLabel

/-- Whether the network has a constraint between `u` and `v` in the scenario `s`, subject to the
letters `case`. -/
structure Network.Constrains (g : LabeledNetwork) (s : Label) (case : CaseLabel) (u v : NodeId)
    (x : Value) : Prop where
  apart : u ≠ v
  finite : x < Value.posInf
  holds : g.HoldsCase s case u v x

theorem Network.Covers.constrains {g : LabeledNetwork} {s label : Label} {case : CaseLabel}
    {u v : NodeId} {x : Value} (covered : g.Covers u v case label x) (apart : u ≠ v)
    (finite : x < Value.posInf) (here : s.subsumes label = true) :
    ∃ y ≤ x, ∃ c, c.subset case = true ∧ g.Constrains s c u v y := by
  obtain ⟨e, joined, covers⟩ := covered
  rcases covers with dominates | ⟨_, dominates⟩
  · obtain ⟨⟨l, y⟩, mem, general, le⟩ := ValueMap.dominates_iff.mp dominates
    refine ⟨y, le, .empty, CaseLabel.subset_iff.mpr fun c inside => ?_, apart,
      lt_of_le_of_lt le finite, e, l, joined, ?_, Label.subsumes_trans here general⟩
    · simp at inside
    · exact List.mem_append_left _ (List.mem_map.mpr ⟨(l, y), mem, rfl⟩)
  · obtain ⟨⟨c, m⟩, group, letters, dominates⟩ := UpperCaseMap.dominates_iff.mp dominates
    obtain ⟨⟨l, y⟩, mem, general, le⟩ := ValueMap.dominates_iff.mp dominates
    refine ⟨y, le, c, letters, apart, lt_of_le_of_lt le finite, e, l, joined, ?_,
      Label.subsumes_trans here general⟩
    exact List.mem_append_right _ (List.mem_flatMap.mpr ⟨_, group, List.mem_map.mpr ⟨_, mem, rfl⟩⟩)

/-- A fixpoint of the rules of the controllability check, and times that satisfy its constraints in
the scenario `s` when every contingent duration is as long as it can be. -/
structure MaximalTimes (ctx : RuleContext) (g : LabeledNetwork) (s : Label) (t : NodeId → Int) :
    Prop where
  complete : s.IsComplete
  rules : ctx.rules = CstnuChecker.rules
  everywhere : ctx.onlyToZ = false
  wellFormed : g.WellFormed
  settled : ∀ a : Application, a.Relevant ctx → a.Settled ctx g
  stored : ∀ link ∈ ctx.links, link.Stored g
  letters : ∀ link other, link ∈ ctx.links → other ∈ ctx.links → link.letter = other.letter →
    link = other
  range : ∀ n < g.nodeCount, 0 ≤ t n ∧ t n < Value.posInf
  satisfied : ∀ case u v x, g.Constrains s case u v x → t v ≤ t u + x

namespace MaximalTimes

variable {ctx : RuleContext} {g : LabeledNetwork} {s : Label} {t : NodeId → Int}
  {case : CaseLabel} {u v w : NodeId} {x y : Value} {link : ContingentLink}

variable (times : MaximalTimes ctx g s t)

include times in
theorem isEnabled {rule : Rule} (mem : rule ∈ CstnuChecker.rules) : ctx.isEnabled rule = true := by
  rw [RuleContext.isEnabled, times.rules]
  exact List.contains_iff_mem.mpr mem

include times in
theorem ne_negInf (value : g.Constrains s case u v x) : x ≠ Value.negInf := by
  rintro rfl
  have inside : u < g.nodeCount ∧ v < g.nodeCount := by
    obtain ⟨e, _, joined, _⟩ := value.holds
    exact times.wellFormed.lt_of_edgeBetween? joined
  have within : t v ≤ t u + -2147483648 := times.satisfied case u v _ value
  have late : t u < 2147483647 := (times.range u inside.1).2
  have := (times.range v inside.2).1
  lia

theorem clamp_le {z : Value} (finite : Value.IsFinite z) : ctx.clamp z ≤ z := by
  unfold RuleContext.clamp
  split
  · exact le_of_lt finite.1
  · exact le_rfl

include times in
theorem sum {case' : CaseLabel} {u' v' : NodeId} (first : g.Constrains s case u v x)
    (second : g.Constrains s case' u' v' y) {z : Value} (added : Value.sum? x y = some z) :
    z = x + y ∧ Value.IsFinite z := by
  rcases Value.sum?_cases added with ⟨infinite | infinite, _⟩ | ⟨infinite | infinite, _⟩ |
    ⟨same, finite, _⟩
  · exact absurd infinite (ne_of_lt first.finite)
  · exact absurd infinite (ne_of_lt second.finite)
  · exact absurd infinite (times.ne_negInf first)
  · exact absurd infinite (times.ne_negInf second)
  · exact ⟨same, finite⟩

include times in
theorem path (first : g.Constrains s .empty u v x) (second : g.Constrains s case v w y)
    (apart : u ≠ w) : ∃ z ≤ x + y, ∃ c, c.subset case = true ∧ g.Constrains s c u w z := by
  have relevant : (Application.labelPropagation u v w).Relevant ctx := by
    intro toZ
    rw [times.everywhere] at toZ
    cases toZ
  obtain ⟨z, label, added, here, _, other⟩ := Application.path_of_settledAt (times.settled _ relevant)
    (times.isEnabled (by decide)) times.complete first.holds second.holds first.apart second.apart
  obtain ⟨same, finite⟩ := times.sum first second added
  have le : ctx.clamp z ≤ z := clamp_le finite
  have below : ctx.clamp z < Value.posInf := lt_of_le_of_lt le finite.2
  obtain ⟨r, le', c, within, constrains⟩ :=
    ((other apart).resolve_left (ne_of_lt below)).constrains apart below here
  exact ⟨r, by linarith, c, within, constrains⟩

include times in
theorem ordinary_path (first : g.Constrains s .empty u v x) (second : g.Constrains s .empty v w y)
    (apart : u ≠ w) : ∃ z ≤ x + y, g.Constrains s .empty u w z := by
  obtain ⟨z, le, c, within, constrains⟩ := times.path first second apart
  rw [CaseLabel.eq_empty_of_subset within] at constrains
  exact ⟨z, le, constrains⟩

section link

variable (mem : link ∈ ctx.links) (exists_ : s.subsumes link.label = true)

include times mem exists_ in
theorem add_upper_le : t link.activation + link.upper ≤ t link.contingent := by
  have stored := times.stored link mem
  have negative : -link.upper < Value.posInf := by
    have := stored.positive
    have := stored.range
    have : (0 : Int) < Value.posInf := by decide
    linarith
  obtain ⟨y, le, c, _, constrains⟩ :=
    stored.upper.constrains (Ne.symm stored.apart) negative exists_
  have := times.satisfied c _ _ y constrains
  linarith

include times mem exists_ in
theorem upper_lt : link.upper < Value.posInf := by
  have stored := times.stored link mem
  obtain ⟨e, joined, _⟩ := stored.lower
  have inside := times.wellFormed.lt_of_edgeBetween? joined
  have := times.add_upper_le mem exists_
  have := (times.range _ inside.1).1
  have := (times.range _ inside.2).2
  linarith

include times mem exists_ in
theorem contingent_eq : t link.contingent = t link.activation + link.upper := by
  have stored := times.stored link mem
  obtain ⟨y, le, c, _, constrains⟩ :=
    stored.longest.constrains stored.apart (times.upper_lt mem exists_) exists_
  have := times.satisfied c _ _ y constrains
  have := times.add_upper_le mem exists_
  linarith

include times mem exists_ in
theorem wait : ∃ y ≤ -link.upper, ∃ c, c.subset (.ofLetter link.letter) = true ∧
    g.Constrains s c link.contingent link.activation y := by
  have stored := times.stored link mem
  refine stored.upper.constrains (Ne.symm stored.apart) ?_ exists_
  have := stored.positive
  have := stored.range
  have : (0 : Int) < Value.posInf := by decide
  linarith

include times mem in
/-- A wait that is over before the link can end is a constraint. -/
theorem remove (always : link.label = .empty)
    (waits : g.Constrains s (.ofLetter link.letter) u link.activation x)
    (early : -link.lower ≤ x) :
    ∃ y ≤ x, g.Constrains s .empty u link.activation y := by
  obtain ⟨e, label, joined, held, here⟩ := waits.holds
  have upper : (CaseLabel.ofLetter link.letter, label, x) ∈ e.upper.entries := by
    refine (List.mem_append.mp held).resolve_left fun ordinary => ?_
    obtain ⟨_, _, same⟩ := List.mem_map.mp ordinary
    have letters := congrArg (fun v : CaseLabel × Label × Value => v.1.contains link.letter) same
    simp at letters
  have removable : RuleContext.letterIsRemovable (.ofLetter link.letter) label x link = true := by
    simp [RuleContext.letterIsRemovable, early, always, Label.subsumes_empty]
  have listed : link ∈ ctx.linksActivatedBy link.activation :=
    List.mem_filter.mpr ⟨mem, beq_self_eq_true _⟩
  have derived : Derivation.value ((CaseLabel.ofLetter link.letter).erase link.letter) label x ∈
      (Application.letterRemoval u link.activation).derivations ctx g := by
    have enabled : ctx.isEnabled .letterRemoval = true := times.isEnabled (by decide)
    have some : (ctx.linksActivatedBy link.activation).isEmpty = false := by
      rw [List.isEmpty_eq_false_iff]
      exact List.ne_nil_of_mem listed
    simp only [Application.derivations, RuleContext.letterRemoval, enabled, joined, some]
    exact List.mem_flatMap.mpr ⟨_, upper, List.mem_map.mpr
      ⟨link, List.mem_filter.mpr ⟨listed, removable⟩, rfl⟩⟩
  have covered := (times.settled (.letterRemoval u link.activation) trivial _ derived).resolve_left
    (ne_of_lt waits.finite)
  rw [CaseLabel.erase_ofLetter] at covered
  obtain ⟨y, le, c, within, constrains⟩ := covered.constrains waits.apart waits.finite here
  rw [CaseLabel.eq_empty_of_subset within] at constrains
  exact ⟨y, le, constrains⟩

include times mem exists_ in
/-- A negative constraint that leaves the end of the link, moved to its start. -/
theorem cross_derived (value : g.Constrains s case link.contingent w x) (negative : x < 0)
    (other : case.contains link.letter = false) :
    ∃ label, s.subsumes label = true ∧ Value.IsFinite (link.lower + x) ∧
      (w = link.activation → case = .empty → 0 ≤ link.lower + x) ∧
      (w ≠ link.activation → g.Covers link.activation w case label (link.lower + x)) := by
  have stored := times.stored link mem
  obtain ⟨e, joined, low⟩ := stored.lower
  obtain ⟨e', label, joined', held, here⟩ := value.holds
  -- What the rule for lower-case values makes of the two is settled already.
  have derived : ∀ der, ctx.crossValue? g link.activation w ⟨link.letter, link.label, link.lower⟩
      (case, label, x) = some der → der.SettledAt g link.activation w := by
    intro der made
    refine times.settled (.crossLowerCase link.activation link.contingent w) ⟨link, mem, rfl, rfl⟩
      der ?_
    have enabled : ctx.isEnabled .crossLowerCase = true := times.isEnabled (by decide)
    have off : ¬ ((!ctx.isEnabled .crossLowerCase) = true ∨ w = link.contingent) := by
      simp [enabled, Ne.symm value.apart]
    simp only [Application.derivations, RuleContext.crossLowerCase, if_neg off, joined,
      Option.bind_some, low, joined']
    exact List.mem_filterMap.mpr ⟨_, held, made⟩
  have open_ : ¬ (0 ≤ x ∨ case.contains link.letter = true) := by
    simpa [other] using negative
  have known := times.complete.hasUnknown_of_subsumes (Label.subsumes_blend exists_ here)
  simp only [RuleContext.crossValue?, if_neg open_,
    RuleContext.combine?_of_subsumes times.complete _ exists_ here] at derived
  refine ⟨link.label.blend label, Label.subsumes_blend exists_ here, ?_⟩
  have lower : link.lower ≠ Value.posInf ∧ link.lower ≠ Value.negInf := by
    have := times.upper_lt mem exists_
    have := stored.positive
    have := stored.range
    have : Value.negInf < 0 := by decide
    exact ⟨by linarith, by linarith⟩
  cases sum : Value.sum? link.lower x with
  | none =>
    rw [sum] at derived
    exact (derived _ rfl).elim
  | some z =>
    -- Neither value is infinite, so the sum is the sum of integers.
    obtain ⟨rfl, finite⟩ : z = link.lower + x ∧ Value.IsFinite z := by
      rcases Value.sum?_cases sum with ⟨infinite | infinite, _⟩ | ⟨infinite | infinite, _⟩ |
        ⟨same, finite, _⟩
      · exact absurd infinite lower.1
      · exact absurd infinite (ne_of_lt value.finite)
      · exact absurd infinite lower.2
      · exact absurd infinite (times.ne_negInf value)
      · exact ⟨same, finite⟩
    rw [sum] at derived
    refine ⟨finite, fun loop ordinary => ?_, fun away => ?_⟩
    · subst ordinary
      simp only [loop, if_true, RuleContext.closeLoop?, known] at derived
      by_contra nonneg
      have closes : ¬ (0 ≤ link.lower + x ∨ (!CaseLabel.empty.isEmpty) = true) := by
        simpa [CaseLabel.empty, CaseLabel.isEmpty] using nonneg
      rw [if_neg closes] at derived
      exact (derived _ rfl).elim
    · simp only [away, if_false] at derived
      exact (derived _ rfl).resolve_left (ne_of_lt finite.2)

include times mem exists_ in
/-- A constraint between the two ends of the link leaves room for the shortest duration. -/
theorem cross_loop (value : g.Constrains s .empty link.contingent link.activation x) :
    0 ≤ link.lower + x := by
  by_cases negative : x < 0
  · obtain ⟨_, _, _, loop, _⟩ := times.cross_derived mem exists_ value negative
      (CaseLabel.contains_empty _)
    exact loop rfl rfl
  · have := (times.stored link mem).positive
    linarith

include times mem exists_ in
theorem cross (value : g.Constrains s case link.contingent w x) (negative : x < 0)
    (other : case.contains link.letter = false) (apart : w ≠ link.activation) :
    ∃ z ≤ link.lower + x, ∃ c, c.subset case = true ∧ g.Constrains s c link.activation w z := by
  obtain ⟨label, here, finite, _, away⟩ := times.cross_derived mem exists_ value negative other
  exact (away apart).constrains (Ne.symm apart) finite.2 here

end link

end MaximalTimes

end TemporalNetwork
