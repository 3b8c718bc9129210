import TemporalNetwork.Proofs.Network.Shifting
import TemporalNetwork.Proofs.Stnu.Preparation
import TemporalNetwork.Proofs.Stnu.Search

/-!
Times for given durations of the links. Starting from a potential, in which no link lasts longer than
its lower bound, the links are given their durations in the order in which they were finished. Each
time the contingent node is postponed, and with it the nodes that have to follow; the activation node
is not among them, because every constraint that could postpone it leads through an edge that the
back-propagation of a link has added.
-/

namespace TemporalNetwork

/-- Lower-case values that a back-propagation leaves out, because the distance is not negative, would
not lead to smaller distances. -/
def LowerCasesCovered (g : PlainNetwork) (links : List StnuLink) : Prop :=
  ∀ (i k : Nat) (link other : StnuLink) (d : Int), links[i]? = some link →
    links[k]? = some other → k ≠ i → g.Reaches link other.contingent d → 0 ≤ d →
    d < link.upper - link.lower → ∃ d', d' ≤ d + other.lower ∧ g.Reaches link other.activation d'

/-- What is known of the link at place `i`, finished after the links `before`. -/
structure LinkClosed (g : PlainNetwork) (links : List StnuLink) (before : List Nat) (i : Nat)
    (link : StnuLink) : Prop where
  covered : ∀ v d, g.Reaches link v d →
    (∃ d', d' ≤ d ∧ g.Reaches link v d' ∧ link.Passes v d') ∨
    v = link.activation ∧ link.upper ≤ d ∨
    ∃ w, g.ordinary? v link.activation = some w ∧ w ≤ d - link.upper
  free : ∀ v d, g.Reaches link v d → v ≠ link.activation → v ≠ link.contingent →
    d < link.upper - link.lower → ∀ (k : Nat) (other : StnuLink), links[k]? = some other →
    other.activation = v → k ≠ i → k ∈ before

/-- A network whose links have been finished in the given order, the latest first. -/
structure AllClosed (g : PlainNetwork) (links : List StnuLink) (order : List Nat) : Prop where
  valid : g.Admits g.potential
  prepared : ∀ (i : Nat) (link : StnuLink), links[i]? = some link → LinkPrepared g link
  contingents : ∀ (i k : Nat) (link other : StnuLink), links[i]? = some link →
    links[k]? = some other → link.contingent = other.contingent → i = k
  distinct : order.Nodup
  complete : ∀ k, k < links.length → k ∈ order
  closed : ∀ i before, (i :: before) <:+ order →
    ∃ link, links[i]? = some link ∧ LinkClosed g links before i link

theorem not_mem_before {order done before : List Nat} {i j : Nat} (distinct : order.Nodup)
    (later : (i :: done) <:+ order) (earlier : (j :: before) <:+ order) (mem : j ∈ done) :
    i ∉ before := by
  have first := List.nodup_cons.mp (distinct.sublist later.sublist)
  have second := List.nodup_cons.mp (distinct.sublist earlier.sublist)
  intro inside
  rcases List.suffix_or_suffix_of_suffix later earlier with tail | tail
  · rcases List.suffix_cons_iff.mp tail with same | tail
    · cases same
      exact first.1 mem
    · exact second.1 (tail.subset (List.mem_cons_of_mem _ mem))
  · rcases List.suffix_cons_iff.mp tail with same | tail
    · cases same
      exact first.1 mem
    · exact first.1 (tail.subset (List.mem_cons_of_mem _ inside))

namespace Network.Reaches

variable {g : PlainNetwork} {link : StnuLink}

theorem origin_eq {d : Int} (reaches : g.Reaches link link.contingent d) : d = 0 := by
  generalize same : link.contingent = v at reaches
  cases reaches with
  | origin => rfl
  | step _ _ onward _ => exact absurd same.symm onward

end Network.Reaches

/-- The longest time a link may take while the links of `done` take `durations`. -/
def longest (durations : Nat → Int) (done : List Nat) (k : Nat) (link : StnuLink) : Int :=
  if k ∈ done then durations k else link.lower

/-- Times that satisfy the ordinary constraints, and in which the links of `done` take their
durations. -/
structure Realises (g : PlainNetwork) (links : List StnuLink) (durations : Nat → Int)
    (done : List Nat) (t : NodeId → Int) : Prop where
  ordinary : ∀ u v w, g.ordinary? u v = some w → t v ≤ t u + w
  longest : ∀ (k : Nat) (link : StnuLink), links[k]? = some link →
    t link.contingent ≤ t link.activation + longest durations done k link
  shortest : ∀ (k : Nat) (link : StnuLink), k ∈ done → links[k]? = some link →
    t link.activation + durations k ≤ t link.contingent

section durations

variable {g : PlainNetwork} {links : List StnuLink} {order : List Nat} {durations : Nat → Int}

/-- The constraints on the times while the link `i` is given its duration. -/
inductive DurationEdge (g : PlainNetwork) (links : List StnuLink) (durations : Nat → Int) (i : Nat)
    (done : List Nat) : NodeId → NodeId → Int → Prop
  | ordinary {u v : NodeId} {w : Int} (weight : g.ordinary? u v = some w) :
    DurationEdge g links durations i done u v w
  | longest {k : Nat} {link : StnuLink} (listed : links[k]? = some link) :
    DurationEdge g links durations i done link.activation link.contingent
      (longest durations (i :: done) k link)
  | shortest {k : Nat} {link : StnuLink} (mem : k ∈ done) (listed : links[k]? = some link) :
    DurationEdge g links durations i done link.contingent link.activation (-durations k)

/-- Paths to the contingent node of the link `j` that are not shorter than ones along which
back-propagations have passed: that of `j`, and where a path goes through the whole of a link that is
done, that of this link. -/
inductive Within (g : PlainNetwork) (links : List StnuLink) (durations : Nat → Int)
    (done : List Nat) : Nat → NodeId → Int → Prop
  | direct {j : Nat} {link : StnuLink} {v : NodeId} {d p : Int} (listed : links[j]? = some link)
    (reaches : g.Reaches link v d) (passes : link.Passes v d) (le : d ≤ p) :
    Within g links durations done j v p
  | nested {j k : Nat} {other : StnuLink} {v : NodeId} {q r p : Int} (mem : k ∈ done)
    (listed : links[k]? = some other) (outer : Within g links durations done j other.activation q)
    (inner : Within g links durations done k v r) (le : q - durations k + r ≤ p) :
    Within g links durations done j v p

/-- A path that an edge of the network makes superfluous. -/
def Escapes (g : PlainNetwork) (durations : Nat → Int) (j : Nat) (link : StnuLink) (u : NodeId)
    (p : Int) : Prop :=
  u = link.activation ∧ durations j ≤ p ∨
    ∃ w, g.ordinary? u link.activation = some w ∧ w ≤ p - durations j

theorem Within.mono {done : List Nat} {j : Nat} {v : NodeId} {p q : Int}
    (within : Within g links durations done j v p) (le : p ≤ q) :
    Within g links durations done j v q := by
  cases within with
  | direct listed reaches passes le' => exact .direct listed reaches passes (le'.trans le)
  | nested mem listed outer inner le' => exact .nested mem listed outer inner (le'.trans le)

theorem Escapes.mono {j : Nat} {link : StnuLink} {u : NodeId} {p q : Int}
    (escapes : Escapes g durations j link u p) (le : p ≤ q) : Escapes g durations j link u q := by
  rcases escapes with ⟨same, below⟩ | ⟨w, weight, below⟩
  · exact Or.inl ⟨same, below.trans le⟩
  · exact Or.inr ⟨w, weight, by linarith⟩

variable (all : AllClosed g links order) (covered : LowerCasesCovered g links)
  (within : ∀ (k : Nat) (link : StnuLink), links[k]? = some link →
    link.lower ≤ durations k ∧ durations k ≤ link.upper)

theorem AllClosed.closed_of_mem {g : PlainNetwork} {links : List StnuLink} {order : List Nat}
    (all : AllClosed g links order) {i : Nat} (mem : i ∈ order) :
    ∃ before link, (i :: before) <:+ order ∧ links[i]? = some link ∧
      LinkClosed g links before i link := by
  obtain ⟨after, before, rfl⟩ := List.append_of_mem mem
  have suffix : (i :: before) <:+ after ++ i :: before := List.suffix_append _ _
  obtain ⟨link, listed, closed⟩ := all.closed i before suffix
  exact ⟨before, link, suffix, listed, closed⟩

include all within in
theorem within_or_escapes_of_reaches {done : List Nat} {j : Nat} (mem : j ∈ order) {link : StnuLink}
    (listed : links[j]? = some link) {u : NodeId} {d p : Int} (reaches : g.Reaches link u d)
    (le : d ≤ p) : Within g links durations done j u p ∨ Escapes g durations j link u p := by
  obtain ⟨_, link', _, listed', closed⟩ := all.closed_of_mem mem
  rw [listed] at listed'
  cases listed'
  have upper := (within j link listed).2
  rcases closed.covered u d reaches with ⟨d', le', reaches', passes⟩ | ⟨same, far⟩ | ⟨w, weight, far⟩
  · exact Or.inl (.direct listed reaches' passes (le'.trans le))
  · exact Or.inr (Or.inl ⟨same, by linarith⟩)
  · exact Or.inr (Or.inr ⟨w, weight, by linarith⟩)

include all in
theorem within_origin {done : List Nat} {j : Nat} {link : StnuLink}
    (listed : links[j]? = some link) {v : NodeId} {d p w : Int} (reaches : g.Reaches link v d)
    (le : d ≤ p) (weight : g.potential v ≤ g.potential link.contingent + w) :
    Within g links durations done j link.contingent (p + w) := by
  have back := reaches.le_potential all.valid
  exact .direct listed .origin (Or.inl rfl) (by linarith)

include all covered within in
/-- One edge back along a path. A lower-case value is left out of the search when the distance is
not negative; then the activation node is reached without it. -/
theorem Within.step {i : Nat} {done : List Nat} (subset : i :: done ⊆ order) {j : Nat}
    (mem : j ∈ i :: done) {link : StnuLink} (listed : links[j]? = some link) {v : NodeId} {p : Int}
    (path : Within g links durations done j v p) {u : NodeId} {w : Int}
    (edge : DurationEdge g links durations i done u v w) :
    Within g links durations done j u (p + w) ∨ Escapes g durations j link u (p + w) := by
  -- By induction on the path, since an edge that leaves a nested origin may escape to the path around
  -- it.
  induction path generalizing link u w with
  | @direct j link' v d p listed' reaches passes le =>
    obtain rfl := Option.some.inj (listed.symm.trans listed')
    have reached : ∀ (u : NodeId) (d' : Int), g.Reaches link u d' → d' ≤ p + w →
        Within g links durations done j u (p + w) ∨ Escapes g durations j link u (p + w) :=
      fun u d' reaches' le' =>
        within_or_escapes_of_reaches all within (subset mem) listed reaches' le'
    cases edge with
    | ordinary weight =>
      by_cases origin : u = link.contingent
      · subst origin
        exact Or.inl (within_origin all listed reaches le (all.valid.le_of_ordinary weight))
      · obtain ⟨w', step, le'⟩ := Network.stepWeight?_le_of_ordinary weight d
        exact reached _ _ (reaches.step passes origin step) (by linarith)
    | @longest k other listedOther =>
      have lasts : other.lower ≤ longest durations (i :: done) k other := by
        unfold longest
        split
        · exact (within k other listedOther).1
        · exact le_rfl
      have prepared := all.prepared k other listedOther
      by_cases same : k = j
      · subst same
        rw [listed] at listedOther
        cases listedOther
        have zero := reaches.origin_eq
        rw [longest, if_pos mem]
        exact Or.inr (Or.inl ⟨rfl, by linarith⟩)
      · have near : other.contingent ≠ link.activation ∧ d < link.upper - link.lower :=
          passes.resolve_left fun origin =>
            same (all.contingents k j other link listedOther listed origin)
        by_cases origin : other.activation = link.contingent
        · rw [origin]
          refine Or.inl (within_origin all listed reaches le ?_)
          have lower := all.valid.le_of_lowerWeight prepared.lower
          rw [origin] at lower
          linarith
        · by_cases negative : d < 0
          · obtain ⟨w', step, le'⟩ := Network.stepWeight?_le_of_lower prepared.lower negative
            exact reached _ _ (reaches.step passes origin step) (by linarith)
          · obtain ⟨d', le', reaches'⟩ := covered j k link other d listed listedOther same reaches
              (not_lt.mp negative) near.2
            exact reached _ _ reaches' (by linarith)
    | @shortest k other memOther listedOther =>
      refine Or.inl (.nested memOther listedOther (.direct listed reaches passes le)
        (.direct listedOther .origin (Or.inl rfl) le_rfl) ?_)
      linarith
  | @nested j k other v q r p memOther listedOther outer inner le ihOuter ihInner =>
    rcases ihInner (List.mem_cons_of_mem _ memOther) listedOther edge with onward | escapes
    · exact Or.inl (.nested memOther listedOther outer onward (by linarith))
    · rcases escapes with ⟨rfl, far⟩ | ⟨e, weight, far⟩
      · exact Or.inl (outer.mono (by linarith))
      · rcases ihOuter mem listed (.ordinary weight) with onward | escapes
        · exact Or.inl (onward.mono (by linarith))
        · exact Or.inr (escapes.mono (by linarith))

variable {i : Nat} {done : List Nat} {link : StnuLink}

include all in
/-- The activation node of a link that is given its duration is not passed by the links that are done
nor by itself, but where it is their contingent node. -/
theorem not_reaches_activation (suffix : (i :: done) <:+ order) (listed : links[i]? = some link)
    {j : Nat} (mem : j ∈ i :: done) {other : StnuLink} (listedOther : links[j]? = some other)
    (apart : link.activation ≠ other.contingent) {d : Int}
    (reaches : g.Reaches other link.activation d) : ¬ d < other.upper - other.lower := by
  intro near
  obtain ⟨before, other', suffix', listed', closed⟩ := all.closed_of_mem (suffix.subset mem)
  rw [listedOther] at listed'
  cases listed'
  have prepared := all.prepared j other listedOther
  by_cases same : link.activation = other.activation
  · rcases closed.covered _ d reaches with ⟨d', _, reaches', passes⟩ | ⟨_, far⟩ | ⟨w, weight, far⟩
    · exact passes.elim apart fun stops => stops.1 same
    · have := prepared.nonneg
      linarith
    · rw [same] at weight
      have loop := all.valid.le_of_ordinary weight
      have := prepared.nonneg
      linarith
  · have differs : i ≠ j := by
      rintro rfl
      rw [listed] at listedOther
      cases listedOther
      exact same rfl
    have earlier := closed.free _ d reaches same apart near i link listed rfl differs
    have inside : j ∈ done := (List.mem_cons.mp mem).resolve_left (Ne.symm differs)
    exact not_mem_before all.distinct suffix suffix' inside earlier

include all in
/-- If the contingent node of a link that is done activates the link `i`, no path leads through the
whole of the former. -/
theorem not_within_chained (suffix : (i :: done) <:+ order) (listed : links[i]? = some link)
    {k : Nat} {other : StnuLink} (listedOther : links[k]? = some other)
    (chained : other.contingent = link.activation) {j : Nat} (mem : j ∈ i :: done) {p : Int} :
    ¬ Within g links durations done j other.activation p := by
  intro path
  generalize same : other.activation = v at path
  induction path with
  | @direct j outer v d p listedOuter reaches passes le =>
    subst same
    have prepared := all.prepared k other listedOther
    have bounds := all.prepared j outer listedOuter
    have near : d < outer.upper - outer.lower := by
      rcases passes with origin | ⟨_, near⟩
      · rw [origin] at reaches
        have := reaches.origin_eq
        have := bounds.range
        linarith
      · exact near
    have apart : other.contingent ≠ outer.contingent := by
      intro same
      obtain rfl := all.contingents k j other outer listedOther listedOuter same
      obtain rfl := Option.some.inj (listedOther.symm.trans listedOuter)
      exact passes.elim prepared.apart fun stops => stops.1 rfl
    obtain ⟨w, weight, le'⟩ := prepared.upper
    obtain ⟨w', step, le''⟩ := Network.stepWeight?_le_of_ordinary weight d
    have onward := reaches.step passes apart step
    rw [chained] at onward apart
    have nonneg := prepared.nonneg
    exact not_reaches_activation all suffix listed mem listedOuter apart onward (by linarith)
  | nested mem' _ _ _ _ _ ihInner => exact ihInner (List.mem_cons_of_mem _ mem') same

include all in
/-- A path to the link `i` passes its activation node only where that is the contingent node of the
link along which it leads. -/
theorem chained_of_within (suffix : (i :: done) <:+ order) (listed : links[i]? = some link)
    {j : Nat} (mem : j ∈ i :: done) {p : Int}
    (path : Within g links durations done j link.activation p) :
    ∃ other, links[j]? = some other ∧ other.contingent = link.activation := by
  generalize same : link.activation = v at path
  induction path with
  | @direct j outer v d p listedOuter reaches passes le =>
    subst same
    refine ⟨outer, listedOuter, ?_⟩
    by_contra apart
    rcases passes with origin | ⟨_, near⟩
    · exact apart origin.symm
    · exact not_reaches_activation all suffix listed mem listedOuter (Ne.symm apart) reaches near
  | @nested j k other v q r p mem' listedOther outer inner le ihOuter ihInner =>
    subst same
    obtain ⟨other', listedOther', chained⟩ := ihInner (List.mem_cons_of_mem _ mem') rfl
    obtain rfl := Option.some.inj (listedOther.symm.trans listedOther')
    exact absurd outer (not_within_chained all suffix listed listedOther chained mem)

include all in
theorem not_within_activation (suffix : (i :: done) <:+ order) (listed : links[i]? = some link)
    (p : Int) : ¬ Within g links durations done i link.activation p := by
  intro path
  obtain ⟨other, listed', chained⟩ := chained_of_within all suffix listed List.mem_cons_self path
  obtain rfl := Option.some.inj (listed.symm.trans listed')
  exact (all.prepared i link listed).apart chained.symm

theorem longest_cons_le (i : Nat) (done : List Nat) {k : Nat} {other : StnuLink}
    (long : other.lower ≤ durations k) :
    longest durations done k other ≤ longest durations (i :: done) k other := by
  unfold longest
  split
  · rename_i mem
    rw [if_pos (List.mem_cons_of_mem _ mem)]
  · split
    · exact long
    · exact le_rfl

include within in
theorem Realises.satisfies {t : NodeId → Int} (real : Realises g links durations done t) (i : Nat) :
    Satisfies (DurationEdge g links durations i done) t := by
  intro u v w edge
  cases edge with
  | ordinary weight => exact real.ordinary u v w weight
  | @longest k other listed =>
    have time := real.longest k other listed
    have longer := longest_cons_le i done (within k other listed).1
    linarith
  | @shortest k other mem listed =>
    have time := real.shortest k other mem listed
    linarith

include all covered within in
theorem duration_le_of_walk (suffix : (i :: done) <:+ order) (listed : links[i]? = some link)
    {t : NodeId → Int} (real : Realises g links durations done t) {p : Int}
    (walk : Walk (fun u v => DurationEdge g links durations i done v u) link.contingent
      link.activation p) : durations i ≤ p := by
  have tracked : ∀ {v p}, Walk (fun u v => DurationEdge g links durations i done v u)
      link.contingent v p →
      Within g links durations done i v p ∨ t link.activation + durations i ≤ t v + p := by
    intro v p walk
    induction walk with
    | here => exact Or.inl (.direct listed .origin (Or.inl rfl) le_rfl)
    | @step v u p w _ edge ih =>
      rcases ih with path | settled
      · rcases path.step all covered within suffix.subset List.mem_cons_self listed edge with
          onward | ⟨rfl, far⟩ | ⟨e, weight, far⟩
        · exact Or.inl onward
        · exact Or.inr (by omega)
        · have time := real.ordinary u link.activation e weight
          exact Or.inr (by linarith)
      · have time := real.satisfies within i u v w edge
        exact Or.inr (by omega)
  rcases tracked walk with path | settled
  · exact absurd path (not_within_activation all suffix listed p)
  · omega

include all covered within in
theorem Realises.postpone (suffix : (i :: done) <:+ order) (listed : links[i]? = some link)
    {t : NodeId → Int} (real : Realises g links durations done t) :
    ∃ t', Realises g links durations (i :: done) t' := by
  obtain ⟨t', satisfies, moved, kept⟩ := exists_postponed (real.satisfies within i)
    (t link.activation + durations i) link.contingent
  refine ⟨t', fun u v w weight => satisfies u v w (.ordinary weight),
    fun k other listedOther => satisfies _ _ _ (.longest listedOther), ?_⟩
  intro k other mem listedOther
  rcases List.mem_cons.mp mem with rfl | earlier
  · obtain rfl := Option.some.inj (listed.symm.trans listedOther)
    have same := kept link.activation fun p walk => by
      have := duration_le_of_walk all covered within suffix listed real walk
      omega
    omega
  · have := satisfies _ _ _ (.shortest earlier listedOther)
    omega

include all covered within in
theorem exists_realises :
    ∃ t : NodeId → Int, (∀ u v w, g.ordinary? u v = some w → t v ≤ t u + w) ∧
      ∀ (i : Nat) (link : StnuLink), links[i]? = some link →
        t link.contingent = t link.activation + durations i := by
  have real : ∀ done, done <:+ order → ∃ t, Realises g links durations done t := by
    intro done
    induction done with
    | nil =>
      intro _
      refine ⟨g.potential, fun u v w weight => all.valid.le_of_ordinary weight, ?_, ?_⟩
      · intro k link listed
        rw [longest, if_neg List.not_mem_nil]
        exact all.valid.le_of_lowerWeight (all.prepared k link listed).lower
      · exact fun k link mem => absurd mem List.not_mem_nil
    | cons i done ih =>
      intro suffix
      obtain ⟨t, real⟩ := ih ((List.suffix_cons i done).trans suffix)
      obtain ⟨link, listed, _⟩ := all.closed i done suffix
      exact real.postpone all covered within suffix listed
  obtain ⟨t, real⟩ := real order List.suffix_rfl
  refine ⟨t, real.ordinary, fun i link listed => ?_⟩
  have mem : i ∈ order := by
    refine all.complete i ?_
    obtain ⟨inside, _⟩ := List.getElem?_eq_some_iff.mp listed
    exact inside
  have long := real.longest i link listed
  have short := real.shortest i link mem listed
  rw [longest, if_pos mem] at long
  omega

end durations

end TemporalNetwork
