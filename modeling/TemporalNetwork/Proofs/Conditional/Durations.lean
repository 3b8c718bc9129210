import Mathlib.Data.List.Nodup
import TemporalNetwork.Proofs.Conditional.Waits
import TemporalNetwork.Proofs.Network.Shifting

/-!
Times for given durations of the contingent links. Starting from times at which every link takes as
long as it can, the links are given their durations one after the other. Each time the contingent node
is moved to an earlier time, and with it the nodes that must not come too long after it. The activation
node is not among them: where a walk becomes negative, the fixpoint holds a constraint or a wait of the
activation node itself that is as strong.
-/

namespace TemporalNetwork

/-- Whether a link exists in the scenario. -/
structure Present (links : List ContingentLink) (s : Label) (link : ContingentLink) : Prop where
  mem : link ∈ links
  holds : s.subsumes link.label = true

/-- The links of the scenario start at different nodes and exist in every scenario. -/
structure Separate (links : List ContingentLink) (s : Label) : Prop where
  activations : ∀ link other, Present links s link → Present links s other →
    link.activation = other.activation → link = other
  always : ∀ link, Present links s link → link.label = .empty

/-- The constraints and the waits, where a wait of a link that ends earlier is over earlier. -/
inductive Waiting (ctx : RuleContext) (g : LabeledNetwork) (s : Label)
    (durations : ContingentLink → Int) : NodeId → NodeId → Int → Prop
  | ordinary {u v : NodeId} {x : Value} (value : g.Constrains s .empty u v x) :
    Waiting ctx g s durations u v x
  | wait {u : NodeId} {x : Value} {link : ContingentLink} (present : Present ctx.links s link)
    (value : g.Constrains s (.ofLetter link.letter) u link.activation x) :
    Waiting ctx g s durations u link.activation (x + (link.upper - durations link))

/-- The constraints on the times while the link `i` is given its duration. -/
inductive Shortening (ctx : RuleContext) (g : LabeledNetwork) (s : Label)
    (durations : ContingentLink → Int) (i : ContingentLink) : NodeId → NodeId → Int → Prop
  | waiting {u v : NodeId} {x : Int} (waiting : Waiting ctx g s durations u v x) :
    Shortening ctx g s durations i u v x
  | lasts {link : ContingentLink} (present : Present ctx.links s link) (other : link ≠ i) :
    Shortening ctx g s durations i link.activation link.contingent (durations link)

/-- Walks from the contingent node of the link `j` that are not shorter than constraints, and where
they lead through the whole of another link, than constraints from the contingent node of that link. -/
inductive Trail (ctx : RuleContext) (g : LabeledNetwork) (s : Label)
    (durations : ContingentLink → Int) : ContingentLink → NodeId → Int → Prop
  | origin {j : ContingentLink} {v : NodeId} {p : Int} (here : v = j.contingent) (le : 0 ≤ p) :
    Trail ctx g s durations j v p
  | direct {j : ContingentLink} {v : NodeId} {x p : Int}
    (value : g.Constrains s .empty j.contingent v x) (nonneg : 0 ≤ x) (le : x ≤ p) :
    Trail ctx g s durations j v p
  | nested {j k : ContingentLink} {v : NodeId} {q r p : Int} (present : Present ctx.links s k)
    (outer : Trail ctx g s durations j k.activation q) (inner : Trail ctx g s durations k v r)
    (le : q + durations k + r ≤ p) : Trail ctx g s durations j v p

/-- A walk that starts at the activation node just as well. -/
def StartsEarlier (ctx : RuleContext) (g : LabeledNetwork) (s : Label)
    (durations : ContingentLink → Int) (j : ContingentLink) (v : NodeId) (p : Int) : Prop :=
  v = j.activation ∧ -durations j ≤ p ∨
    ∃ x, Waiting ctx g s durations j.activation v x ∧ x ≤ durations j + p

section

variable {ctx : RuleContext} {g : LabeledNetwork} {s : Label} {t₀ t : NodeId → Int}
  {durations : ContingentLink → Int} {i j : ContingentLink} {v : NodeId} {p q : Int}

theorem Trail.mono (path : Trail ctx g s durations j v p) (le : p ≤ q) :
    Trail ctx g s durations j v q := by
  cases path with
  | origin here le' => exact .origin here (le'.trans le)
  | direct value nonneg le' => exact .direct value nonneg (le'.trans le)
  | nested present outer inner le' => exact .nested present outer inner (le'.trans le)

theorem StartsEarlier.mono (earlier : StartsEarlier ctx g s durations j v p) (le : p ≤ q) :
    StartsEarlier ctx g s durations j v q := by
  rcases earlier with ⟨same, far⟩ | ⟨x, waiting, far⟩
  · exact Or.inl ⟨same, far.trans le⟩
  · exact Or.inr ⟨x, waiting, by linarith⟩

variable (times : MaximalTimes ctx g s t₀) (separate : Separate ctx.links s)
  (range : ∀ link, Present ctx.links s link →
    link.lower ≤ durations link ∧ durations link ≤ link.upper)

include times range in
theorem Trail.nonneg (path : Trail ctx g s durations j v p) : 0 ≤ p := by
  induction path with
  | origin _ le => exact le
  | direct _ nonneg le => exact nonneg.trans le
  | @nested _ k _ _ _ _ present _ _ le ihOuter ihInner =>
    have := (times.stored k present.mem).positive
    have := (range k present).1
    linarith

include times range in
/-- A constraint that leaves a contingent node is a trail, or is moved to the start of the link if it
is negative. -/
theorem trail_or_startsEarlier_of_ordinary (present : Present ctx.links s j) {x : Value}
    (value : g.Constrains s .empty j.contingent v x) (le : x ≤ p) :
    Trail ctx g s durations j v p ∨ StartsEarlier ctx g s durations j v p := by
  have short := (range j present).1
  by_cases negative : x < 0
  · by_cases back : v = j.activation
    · subst back
      have := times.cross_loop present.mem present.holds value
      exact Or.inr (Or.inl ⟨rfl, by linarith⟩)
    · obtain ⟨y, le', c, within, constrains⟩ := times.cross present.mem present.holds value negative
        (CaseLabel.contains_empty _) back
      rw [CaseLabel.eq_empty_of_subset within] at constrains
      exact Or.inr (Or.inr ⟨y, .ordinary constrains, by linarith⟩)
  · exact Or.inl (.direct value (not_lt.mp negative) le)

include times separate range in
/-- A wait in a contingent node is a trail if it is short, else it is moved to the start of the link. -/
theorem trail_or_startsEarlier_of_wait (present : Present ctx.links s j) {m : ContingentLink}
    (present' : Present ctx.links s m) {x : Value}
    (value : g.Constrains s (.ofLetter m.letter) j.contingent m.activation x)
    (le : x + (m.upper - durations m) ≤ p) :
    Trail ctx g s durations j m.activation p ∨ StartsEarlier ctx g s durations j m.activation p := by
  have short := (range j present).1
  have slack := (range m present').2
  by_cases same : m = j
  · subst same
    have := times.satisfied _ _ _ _ value
    have := times.contingent_eq present.mem present.holds
    exact Or.inr (Or.inl ⟨rfl, by linarith⟩)
  · by_cases early : -m.lower ≤ x
    · obtain ⟨y, le', constrains⟩ :=
        times.remove present'.mem (separate.always m present') value early
      exact trail_or_startsEarlier_of_ordinary times range present constrains (by linarith)
    · have negative : x < 0 := by
        have := (times.stored m present'.mem).positive
        linarith
      have other : (CaseLabel.ofLetter m.letter).contains j.letter = false := by
        rw [CaseLabel.contains_ofLetter, decide_eq_false_iff_not]
        exact fun shared => same (times.letters m j present'.mem present.mem shared)
      have apart : m.activation ≠ j.activation := fun shared =>
        same (separate.activations m j present' present shared)
      obtain ⟨y, le', c, within, constrains⟩ :=
        times.cross present.mem present.holds value negative other apart
      refine Or.inr (Or.inr ?_)
      rcases CaseLabel.subset_ofLetter within with rfl | rfl
      · exact ⟨y, .ordinary constrains, by linarith⟩
      · exact ⟨_, .wait present' constrains, by linarith⟩

include times separate range in
theorem Trail.step (present : Present ctx.links s j) (path : Trail ctx g s durations j v p)
    {w : NodeId} {x : Int} (edge : Shortening ctx g s durations i v w x) :
    Trail ctx g s durations j w (p + x) ∨ StartsEarlier ctx g s durations j w (p + x) := by
  -- By induction on the trail: an edge extends its last part, or moves it to the start of its link.
  induction path generalizing w x with
  | @origin j v p here le =>
    cases edge with
    | waiting waiting =>
      subst here
      cases waiting with
      | ordinary value =>
        exact trail_or_startsEarlier_of_ordinary times range present value (by linarith)
      | wait present' value =>
        exact trail_or_startsEarlier_of_wait times separate range present present' value (by linarith)
    | lasts present' _ =>
      exact Or.inl (.nested present' (.origin here le) (.origin rfl le_rfl) (by linarith))
  | @direct j v y p value nonneg le =>
    cases edge with
    | waiting waiting =>
      have first := times.satisfied _ _ _ _ value
      cases waiting with
      | ordinary value' =>
        by_cases back : w = j.contingent
        · have second := times.satisfied _ _ _ _ value'
          rw [back] at second
          exact Or.inl (.origin back (by linarith))
        · obtain ⟨z, le', constrains⟩ := times.ordinary_path value value' (Ne.symm back)
          exact trail_or_startsEarlier_of_ordinary times range present constrains (by linarith)
      | @wait y' m present' value' =>
        have slack := (range m present').2
        by_cases back : m.activation = j.contingent
        · have second := times.satisfied _ _ _ _ value'
          rw [back] at second
          exact Or.inl (.origin back (by linarith))
        · obtain ⟨z, le', c, within, constrains⟩ := times.path value value' (Ne.symm back)
          rcases CaseLabel.subset_ofLetter within with rfl | rfl
          · exact trail_or_startsEarlier_of_ordinary times range present constrains (by linarith)
          · exact trail_or_startsEarlier_of_wait times separate range present present' constrains
              (by linarith)
    | lasts present' _ =>
      exact Or.inl (.nested present' (.direct value nonneg le) (.origin rfl le_rfl) (by linarith))
  | @nested j k v q r p present' outer inner le ihOuter ihInner =>
    rcases ihInner present' edge with onward | earlier
    · exact Or.inl (.nested present' outer onward (by linarith))
    · rcases earlier with ⟨rfl, far⟩ | ⟨y, waiting, far⟩
      · exact Or.inl (outer.mono (by linarith))
      · exact (ihOuter present (.waiting waiting)).imp (fun onward => onward.mono (by linarith))
          fun earlier => earlier.mono (by linarith)

end

/-- Times that satisfy the constraints and waits, with no link longer than its duration. -/
structure Lasting (ctx : RuleContext) (g : LabeledNetwork) (s : Label)
    (durations : ContingentLink → Int) (t : NodeId → Int) : Prop where
  waiting : Satisfies (Waiting ctx g s durations) t
  lasts : ∀ link, Present ctx.links s link → t link.contingent ≤ t link.activation + durations link

section

variable {ctx : RuleContext} {g : LabeledNetwork} {s : Label} {t₀ t : NodeId → Int}
  {durations durations' : ContingentLink → Int} {i : ContingentLink}

variable (times : MaximalTimes ctx g s t₀) (separate : Separate ctx.links s)

include times in
theorem Lasting.contingent_eq (lasting : Lasting ctx g s durations t) {link : ContingentLink}
    (present : Present ctx.links s link) (le : durations link ≤ link.upper) :
    t link.contingent = t link.activation + durations link := by
  obtain ⟨y, far, c, within, constrains⟩ := times.wait present.mem present.holds
  have long := lasting.lasts link present
  rcases CaseLabel.subset_ofLetter within with rfl | rfl
  · have := lasting.waiting _ _ _ (.ordinary constrains)
    linarith
  · have := lasting.waiting _ _ _ (.wait present constrains)
    linarith

theorem Lasting.satisfies (lasting : Lasting ctx g s durations t)
    (le : ∀ link, durations' link ≤ durations link)
    (same : ∀ link, link ≠ i → durations' link = durations link) :
    Satisfies (Shortening ctx g s durations' i) t := by
  intro u v x edge
  cases edge with
  | waiting waiting =>
    cases waiting with
    | ordinary value => exact lasting.waiting _ _ _ (.ordinary value)
    | @wait x link present value =>
      have := lasting.waiting _ _ _ (.wait present value)
      have := le link
      linarith
  | @lasts link present other =>
    have := lasting.lasts link present
    rwa [same link other]

include times separate in
/-- Moving the contingent node forward leaves the activation node where it is. -/
theorem neg_le_of_walk
    (range : ∀ link, Present ctx.links s link →
      link.lower ≤ durations link ∧ durations link ≤ link.upper)
    (present : Present ctx.links s i) (satisfies : Satisfies (Shortening ctx g s durations i) t) {p : Int}
    (walk : Walk (Shortening ctx g s durations i) i.contingent i.activation p) :
    -durations i ≤ p := by
  have tracked : ∀ {v p}, Walk (Shortening ctx g s durations i) i.contingent v p →
      Trail ctx g s durations i v p ∨ t v ≤ t i.activation + durations i + p := by
    intro v p walk
    induction walk with
    | here => exact Or.inl (.origin rfl le_rfl)
    | @step u v p x _ edge ih =>
      rcases ih with path | settled
      · rcases path.step times separate range present edge with
          onward | ⟨rfl, far⟩ | ⟨y, waiting, far⟩
        · exact Or.inl onward
        · exact Or.inr (by linarith)
        · have := satisfies _ _ _ (.waiting waiting)
          exact Or.inr (by linarith)
      · have := satisfies _ _ _ edge
        exact Or.inr (by linarith)
  rcases tracked walk with path | settled
  · have := path.nonneg times range
    have := (times.stored i present.mem).positive
    have := (range i present).1
    linarith
  · linarith

include times separate in
theorem Lasting.shorten (lasting : Lasting ctx g s durations t) (present : Present ctx.links s i)
    (range : ∀ link, Present ctx.links s link →
      link.lower ≤ durations' link ∧ durations' link ≤ link.upper)
    (le : ∀ link, durations' link ≤ durations link)
    (same : ∀ link, link ≠ i → durations' link = durations link) :
    ∃ t', Lasting ctx g s durations' t' := by
  have satisfies := lasting.satisfies le same
  obtain ⟨t', satisfies', moved, kept⟩ :=
    exists_preponed satisfies (t i.activation + durations' i) i.contingent
  refine ⟨t', fun u v x waiting => satisfies' _ _ _ (.waiting waiting), fun link present' => ?_⟩
  by_cases here : link = i
  · subst here
    have := kept link.activation fun p walk => by
      have := neg_le_of_walk times separate range present satisfies walk
      linarith
    linarith
  · exact satisfies' _ _ _ (.lasts present' here)

/-- The durations while the links of `done` have been given theirs. -/
def shortened (durations : ContingentLink → Int) (done : List ContingentLink)
    (link : ContingentLink) : Int :=
  if link ∈ done then durations link else link.upper

theorem shortened_range
    (range : ∀ link, Present ctx.links s link →
      link.lower ≤ durations link ∧ durations link ≤ link.upper)
    (ordered : ∀ link, Present ctx.links s link → link.lower ≤ link.upper) (done : List ContingentLink)
    (link : ContingentLink) (present : Present ctx.links s link) :
    link.lower ≤ shortened durations done link ∧ shortened durations done link ≤ link.upper := by
  unfold shortened
  split
  · exact range link present
  · exact ⟨ordered link present, le_rfl⟩

theorem shortened_cons_of_ne {link : ContingentLink} (other : link ≠ i)
    (done : List ContingentLink) :
    shortened durations (i :: done) link = shortened durations done link := by
  simp only [shortened, List.mem_cons, other, false_or]

theorem shortened_cons_le (short : durations i ≤ i.upper) (done : List ContingentLink)
    (link : ContingentLink) :
    shortened durations (i :: done) link ≤ shortened durations done link := by
  by_cases here : link = i
  · subst here
    unfold shortened
    rw [if_pos List.mem_cons_self]
    split
    · exact le_rfl
    · exact short
  · exact (shortened_cons_of_ne here done).le

include times separate in
/-- Every choice of durations is realised. -/
theorem MaximalTimes.exists_times
    (range : ∀ link, Present ctx.links s link →
      link.lower ≤ durations link ∧ durations link ≤ link.upper) :
    ∃ t : NodeId → Int, (∀ u v x, g.Constrains s .empty u v x → t v ≤ t u + x) ∧
      ∀ link, Present ctx.links s link → t link.contingent = t link.activation + durations link := by
  have ordered : ∀ link, Present ctx.links s link → link.lower ≤ link.upper :=
    fun link present => (times.stored link present.mem).range.le
  -- The links are given their durations one after the other.
  have partly : ∀ done, (∀ link ∈ done, Present ctx.links s link) →
      ∃ t, Lasting ctx g s (shortened durations done) t := by
    intro done
    induction done with
    | nil =>
      intro _
      refine ⟨t₀, ?_, fun link present => ?_⟩
      · intro u v x waiting
        cases waiting with
        | ordinary value => exact times.satisfied _ _ _ _ value
        | wait present value =>
          have := times.satisfied _ _ _ _ value
          simpa [shortened] using this
      · have := times.contingent_eq present.mem present.holds
        simpa [shortened] using this.le
    | cons i done ih =>
      intro listed
      obtain ⟨t, lasting⟩ := ih fun link mem => listed link (List.mem_cons_of_mem i mem)
      have present := listed i List.mem_cons_self
      exact lasting.shorten times separate present (shortened_range range ordered (i :: done))
        (shortened_cons_le (range i present).2 done)
        fun link other => shortened_cons_of_ne other done
  obtain ⟨t, lasting⟩ := partly (ctx.links.filter fun link => s.subsumes link.label)
    fun link mem => ⟨(List.mem_filter.mp mem).1, (List.mem_filter.mp mem).2⟩
  refine ⟨t, fun u v x value => lasting.waiting _ _ _ (.ordinary value), fun link present => ?_⟩
  have given : shortened durations (ctx.links.filter fun link => s.subsumes link.label) link =
      durations link := if_pos (List.mem_filter.mpr ⟨present.mem, present.holds⟩)
  rw [← given]
  exact lasting.contingent_eq times present (shortened_range range ordered _ link present).2

end

/-- A schedule of an initialised checker for the scenario `s`, in which the links of the scenario take
their durations. -/
structure ScenarioSchedule (c : CstnuChecker) (s : Label) (durations : ContingentLink → Int)
    (t : NodeId → Int) : Prop where
  first : ∀ z, c.z = some z → ∀ n < c.network.nodeCount, t z ≤ t n
  constraint : ∀ u v x, u ≠ v → x < Value.posInf → c.network.HoldsIn s u v x → t v ≤ t u + x
  lasts : ∀ link, Present c.links s link →
    t link.contingent = t link.activation + durations link

namespace CstnuChecker

variable {g : LabeledNetwork} {options : CheckerOptions} {stops : Polls} {c : CstnuChecker}
  {status : CheckStatus} {s : Label}

/-- Without node labels, a consistent verdict is about a fixpoint with times for every scenario. -/
theorem maximalTimes_of_consistent (wf : g.WellFormed)
    (unlabelled : g.Unlabelled options.withNodeLabels)
    (checked : (ofNetwork g options).check stops = (c, .ok status))
    (consistent : status.outcome = .consistent) (complete : s.IsComplete) :
    ∃ (c₀ : CstnuChecker) (ctx : RuleContext) (h : LabeledNetwork) (t : NodeId → Int),
      (ofNetwork g options).initialise = (c₀, .ok ()) ∧ c₀.z = some ctx.z ∧
      c₀.links = ctx.links ∧ c.links = ctx.links ∧ c₀.network.Grows h ∧
      (∀ n < c₀.network.nodeCount, n ≠ ctx.z → c₀.network.Covers n ctx.z .empty .empty 0) ∧
      MaximalTimes ctx h s t := by
  obtain ⟨c₀, z, horizon, p, ready, hz, hh, links, run, c', status', projected, consistent'⟩ :=
    fixpoint_of_consistent checked consistent
  obtain ⟨wf₀, functional⟩ := wellFormed_of_initialise wf ready
  obtain ⟨z', links', horizon', d, prepared, initial⟩ := prepare_of_initialise ready
  obtain ⟨unlabelled₀, stored, letters, bounds⟩ :=
    (prepare_stored (d := ⟨g, []⟩) wf unlabelled).of_ok prepared
  have network : c₀.network = d.network := by rw [initial]
  have listed : c₀.links = links' := by rw [initial]
  have same : z' = z := by
    rw [initial] at hz
    exact Option.some.inj hz
  have functional' : Propagation.LinksFunctional (c₀.context z horizon) := functional
  obtain ⟨wf', grows, _, settled⟩ := (Propagation.toFixpoint_ends
    (Propagation.keeps_nothing _ c₀.network) functional' stops _ wf₀ trivial).of_ok run
  obtain ⟨t, range, satisfied⟩ := exists_maximalTimes wf'
    ((network ▸ unlabelled₀).of_nodes grows.nodes) projected consistent' complete
  refine ⟨c₀, c₀.context z horizon, p.network, t, ready, hz, rfl, links, grows, ?_, ?_⟩
  · intro n inside apart
    rw [network] at inside ⊢
    rw [← same] at apart ⊢
    exact bounds n inside apart
  · exact {
      complete := complete
      rules := by rw [initial]; rfl
      everywhere := rfl
      wellFormed := wf'
      settled := settled
      stored := fun link mem => by
        have mem' : link ∈ links' := listed ▸ mem
        exact (network ▸ stored link mem').enriches grows.enriches
      letters := fun link other mem mem' shared => by
        have mem₁ : link ∈ links' := listed ▸ mem
        have mem₂ : other ∈ links' := listed ▸ mem'
        exact List.inj_on_of_nodup_map letters mem₁ mem₂ shared
      range := range
      satisfied := fun case u v x value =>
        satisfied case u v x value.apart (ne_of_lt value.finite) value.holds }

end CstnuChecker

/-- A consistent verdict is realised by every choice of durations, in every scenario whose links start
at different nodes and exist in every scenario. -/
theorem exists_scenarioSchedule_of_consistent (g : LabeledNetwork) (wf : g.WellFormed)
    (options : CheckerOptions) (unlabelled : g.Unlabelled options.withNodeLabels) (stops : Polls)
    (c : CstnuChecker) (status : CheckStatus)
    (checked : (CstnuChecker.ofNetwork g options).check stops = (c, .ok status))
    (consistent : status.outcome = .consistent) (s : Label) (complete : s.IsComplete)
    (separate : Separate c.links s) (durations : ContingentLink → Int)
    (range : ∀ link, Present c.links s link →
      link.lower ≤ durations link ∧ durations link ≤ link.upper) :
    ∃ t, ScenarioSchedule (CstnuChecker.ofNetwork g options).initialise.1 s durations t := by
  obtain ⟨c₀, ctx, h, t₀, ready, hz, links, links', grows, bounds, times⟩ :=
    CstnuChecker.maximalTimes_of_consistent wf unlabelled checked consistent complete
  rw [links'] at separate range
  obtain ⟨t, constrained, lasts⟩ := times.exists_times separate range
  rw [ready]
  refine ⟨t, ⟨fun z isZ n inside => ?_, fun u v x apart finite holds => ?_, ?_⟩⟩
  · obtain rfl : ctx.z = z := Option.some.inj (hz.symm.trans isZ)
    by_cases here : n = ctx.z
    · rw [here]
    · obtain ⟨y, le, held⟩ := ((grows.covers (bounds n inside here)).holdsIn
        (Label.subsumes_empty s))
      have finite : y < Value.posInf := lt_of_le_of_lt le (by decide)
      have := constrained n ctx.z y ⟨here, finite, held.holdsCase⟩
      linarith
  · obtain ⟨y, le, held⟩ := holds.grows grows
    have := constrained u v y ⟨apart, lt_of_le_of_lt le finite, held.holdsCase⟩
    linarith
  · intro link present
    exact lasts link (links ▸ present)

/-- A link that starts where another one ends, and a node that has to follow both. -/
def relayNetwork : LabeledNetwork :=
  (Network.build [.named "Z", .named "A", .named "C", .named "D", .named "X"]
    [("AC", 1, 2, .ofValue .contingent .empty 4), ("CA", 2, 1, .ofValue .contingent .empty (-1)),
      ("CD", 2, 3, .ofValue .contingent .empty 3), ("DC", 3, 2, .ofValue .contingent .empty (-1)),
      ("AX", 1, 4, .ofValue .ordinary .empty 9),
      ("XD", 4, 3, .ofValue .ordinary .empty (-1))]).getD .empty

def withLabels : CheckerOptions := { untimed with withNodeLabels := true }

theorem exists_scenarioSchedule_of_consistent_relay : ∃ c status,
    (CstnuChecker.ofNetwork relayNetwork withLabels).check .never = (c, .ok status) ∧
      status.outcome = .consistent ∧ Separate c.links .allStraight ∧
      ∃ t, ScenarioSchedule (CstnuChecker.ofNetwork relayNetwork withLabels).initialise.1
        .allStraight (fun _ => 2) t := by
  -- in one statement, so that the check is evaluated once
  obtain ⟨answered, found⟩ :
      ((CstnuChecker.ofNetwork relayNetwork withLabels).check .never).2.toOption.map
        CheckStatus.outcome = some .consistent ∧
      ((CstnuChecker.ofNetwork relayNetwork withLabels).check .never).1.links =
        [⟨1, 2, 0, .empty, 1, 4⟩, ⟨2, 3, 1, .empty, 1, 3⟩] := by decide +kernel
  cases checked : (CstnuChecker.ofNetwork relayNetwork withLabels).check .never with
  | mk c answer =>
    rw [checked] at answered found
    cases answer with
    | error e => cases answered
    | ok status =>
      have consistent : status.outcome = .consistent := Option.some.inj answered
      dsimp only at found
      have listed : ∀ link, Present c.links .allStraight link →
          link = ⟨1, 2, 0, .empty, 1, 4⟩ ∨ link = ⟨2, 3, 1, .empty, 1, 3⟩ := by
        intro link present
        have mem := present.mem
        rw [found] at mem
        simpa using mem
      have separate : Separate c.links .allStraight := by
        constructor
        · intro link other present present' shared
          rcases listed link present with rfl | rfl <;>
            rcases listed other present' with rfl | rfl <;> first | rfl | cases shared
        · intro link present
          rcases listed link present with rfl | rfl <;> rfl
      refine ⟨c, status, rfl, consistent, separate, exists_scenarioSchedule_of_consistent
        relayNetwork (Network.wellFormed_getD_build _ _) _
        (Network.unlabelled_of_forall_mem (by decide +kernel)) .never c status checked consistent
        .allStraight Label.isComplete_allStraight separate (fun _ => 2) ?_⟩
      intro link present
      rcases listed link present with rfl | rfl <;> decide

end TemporalNetwork
