import TemporalNetwork.Proofs.Network.Backtracking
import TemporalNetwork.Proofs.Stnu.NodeSearch
import TemporalNetwork.Proofs.Stnu.NodeVerdict
import TemporalNetwork.Proofs.Stnu.NormalSchedule
import TemporalNetwork.Proofs.Stnu.Settlement

/-!
Why a run over the nodes with negative incoming edges is right to accept. A back-propagation keeps one
distance for each node, with the origin of one path. This is enough as long as all negative edges into a
node have the same origin, which the normal form brings about for links that take some time.
-/

namespace TemporalNetwork

/-- The constraints of a network whose links take the given durations. -/
inductive Fixed (g : PlainNetwork) (links : List StnuLink) (durations : Nat → Int) :
    NodeId → NodeId → Int → Prop
  | ordinary {u v : NodeId} {w : Value} (weight : g.ordinary? u v = some w) :
    Fixed g links durations u v w
  | most {i : Nat} {link : StnuLink} (listed : links[i]? = some link) :
    Fixed g links durations link.activation link.contingent (durations i)
  | least {i : Nat} {link : StnuLink} (listed : links[i]? = some link) :
    Fixed g links durations link.contingent link.activation (-durations i)

/-- How much longer the link that a path ends with can take than it does. -/
inductive Slack (links : List StnuLink) (durations : Nat → Int) : Option NodeId → Int → Prop
  | none : Slack links durations none 0
  | link {i : Nat} {link : StnuLink} (listed : links[i]? = some link) :
    Slack links durations (some link.contingent) (link.upper - durations i)

/-- A network in normal form in which all negative edges into a node have the same origin. -/
structure Uniform (g : PlainNetwork) (links : List StnuLink) (origin : NodeId → Option NodeId) :
    Prop where
  carries : Carries g links
  lower : ∀ link ∈ links, link.lower = 0
  back : ∀ link ∈ links, g.bound link.contingent link.activation ≤ 0
  origin : ∀ s u w o, g.Start s u w o → o = origin s

/-- A negative path back to `s` that a back-propagation has found, with its length for the durations. -/
def Near (g : PlainNetwork) (links : List StnuLink) (durations : Nat → Int)
    (origin : NodeId → Option NodeId) (rank : NodeId → Nat) (s v : NodeId) (p : Int) : Prop :=
  ∃ keys d slack, NodeRun.Explored g s (origin s) keys .empty ∧
    (∀ u d, keys u = some d → d < 0 → g.HasStart u → rank u < rank s) ∧
    Slack links durations (origin s) slack ∧ keys v = some d ∧ d < 0 ∧ d + slack ≤ p

section

variable {g : PlainNetwork} {links : List StnuLink} {origin : NodeId → Option NodeId}
  {rank : NodeId → Nat} {durations : Nat → Int} {s u v c : NodeId} {p w slack : Int} {i : Nat}
  {link : StnuLink} {keys : NodeId → Option Int}
  (within : ∀ (i : Nat) (link : StnuLink), links[i]? = some link →
    0 ≤ durations i ∧ durations i ≤ link.upper)

include within in
theorem Slack.nonneg {o : Option NodeId} (h : Slack links durations o slack) : 0 ≤ slack := by
  cases h with
  | none => exact le_rfl
  | @link i link listed => exact sub_nonneg.mpr (within i link listed).2

include within in
theorem Near.extension (near : Near g links durations origin rank s v p) {x : Value}
    (weight : g.extension? u v (origin s) = some x) (le : x ≤ w) :
    Near g links durations origin rank s u (p + w) ∨ u = s ∧ 0 ≤ p + w ∨
      ∃ e, Fixed g links durations u s e ∧ 0 ≤ e ∧ e ≤ p + w := by
  obtain ⟨keys, d, slack, explored, earlier, spare, known, negative, below⟩ := near
  have nonneg := spare.nonneg within
  obtain ⟨d', known', le'⟩ :=
    NodeRun.Explored.known (explored.closed v d u x known negative weight)
  rcases lt_or_ge d' 0 with negative' | far
  · exact Or.inl ⟨keys, d', slack, explored, earlier, spare, known', negative', by linarith⟩
  · by_cases same : u = s
    · exact Or.inr (Or.inl ⟨same, by linarith⟩)
    · obtain ⟨e, weight', le''⟩ := explored.edges u d' known' far same
      refine Or.inr (Or.inr ⟨e, .ordinary weight', ?_, by linarith⟩)
      by_contra short
      obtain ⟨d'', known'', less⟩ := NodeRun.Explored.known
        (explored.starts u e none (.ordinary weight' (not_le.mp short)))
      rw [known', Option.some.injEq] at known''
      omega

namespace Uniform

variable (uniform : Uniform g links origin)

section

include uniform

theorem case?_contingent (listed : links[i]? = some link) :
    g.case? link.activation link.contingent = some ⟨.lower, link.contingent, 0⟩ ∧
      g.case? link.contingent link.activation = some ⟨.upper, link.contingent, -link.upper⟩ := by
  have mem := List.mem_of_getElem? listed
  have stored := uniform.carries.stored link mem
  rwa [uniform.lower link mem] at stored

theorem start_activation (listed : links[i]? = some link) :
    g.Start link.activation link.contingent (-link.upper) (some link.contingent) := by
  have mem := List.mem_of_getElem? listed
  have range := uniform.carries.range link mem
  rw [uniform.lower link mem] at range
  exact .upper (uniform.case?_contingent listed).2 (neg_neg_of_pos range)

/-- The edge back to the activation node is not negative, since the upper-case value is. -/
theorem ordinary?_back (listed : links[i]? = some link) :
    g.ordinary? link.contingent link.activation = some 0 := by
  have le := uniform.back link (List.mem_of_getElem? listed)
  have finite : g.bound link.contingent link.activation ≠ Value.posInf :=
    (le.trans_lt (by decide)).ne
  rcases le.lt_or_eq with negative | zero
  · have same := uniform.origin _ _ _ _
      (.ordinary (Network.ordinary?_eq_some_iff.mpr ⟨rfl, finite⟩) negative)
    rw [← uniform.origin _ _ _ _ (uniform.start_activation listed)] at same
    cases same
  · exact Network.ordinary?_eq_some_iff.mpr ⟨zero, by decide⟩

/-- A path whose origin is a link has begun with the upper-case edge of that link. -/
theorem above_of_origin (explored : NodeRun.Explored g s (origin s) keys .empty)
    (listed : links[i]? = some link) (same : origin s = some link.contingent) {d : Int}
    (known : keys v = some d) : s = link.activation ∧ -link.upper ≤ d := by
  obtain ⟨u, w, o, start, le⟩ := explored.above v d known
  have here := uniform.origin _ _ _ _ start
  rw [same] at here
  subst here
  cases start with
  | upper held _ =>
    obtain ⟨other, mem, ⟨_, _, equal⟩ | ⟨rfl, rfl, equal⟩⟩ := uniform.carries.owned _ _ _ held
    · cases equal
    · obtain ⟨j, listed'⟩ := List.getElem?_of_mem mem
      rw [CaseValue.mk.injEq] at equal
      obtain ⟨_, same', rfl⟩ := equal
      obtain rfl := uniform.carries.eq_of_contingent listed listed' same'
      obtain rfl := Option.some.inj (listed.symm.trans listed')
      exact ⟨rfl, le⟩

theorem eq_of_slack (listed : links[i]? = some link)
    (spare : Slack links durations (some link.contingent) slack) :
    slack = link.upper - durations i := by
  generalize same : some link.contingent = o at spare
  cases spare with
  | none => cases same
  | @link j other listed' =>
    obtain rfl := uniform.carries.eq_of_contingent listed listed' (Option.some.inj same)
    obtain rfl := Option.some.inj (listed.symm.trans listed')
    rfl

include within

theorem near_start (explores : ∀ s, g.HasStart s → ∃ keys,
      NodeRun.Explored g s (origin s) keys .empty ∧
        ∀ u d, keys u = some d → d < 0 → g.HasStart u → rank u < rank s)
    (edge : Fixed g links durations u s w) (negative : w < 0) :
    Near g links durations origin rank s u w := by
  cases edge with
  | ordinary weight =>
    have start : g.Start s u w none := .ordinary weight negative
    obtain ⟨keys, explored, earlier⟩ := explores s ⟨u, w, _, start⟩
    obtain ⟨d, known, le⟩ := NodeRun.Explored.known (explored.starts u w _ start)
    refine ⟨keys, d, 0, explored, earlier, ?_, known, le.trans_lt negative, by omega⟩
    rw [← uniform.origin _ _ _ _ start]
    exact .none
  | @most i link listed => exact absurd negative (not_lt.mpr (within i link listed).1)
  | @least i link listed =>
    have start := uniform.start_activation listed
    obtain ⟨keys, explored, earlier⟩ := explores _ ⟨_, _, _, start⟩
    obtain ⟨d, known, le⟩ := NodeRun.Explored.known (explored.starts _ _ _ start)
    refine ⟨keys, d, link.upper - durations i, explored, earlier, ?_, known,
      le.trans_lt start.negative, by linarith⟩
    rw [← uniform.origin _ _ _ _ start]
    exact .link listed

theorem near_step (near : Near g links durations origin rank s v p)
    (edge : Fixed g links durations u v w) (nonneg : 0 ≤ w) :
    Near g links durations origin rank s u (p + w) ∨ u = s ∧ 0 ≤ p + w ∨
      ∃ e, Fixed g links durations u s e ∧ 0 ≤ e ∧ e ≤ p + w := by
  cases edge with
  | ordinary weight =>
    obtain ⟨x, weight', le⟩ := Network.extension?_le_of_ordinary weight nonneg (origin s)
    exact near.extension within weight' le
  | @most i link listed =>
    by_cases own : origin s = some link.contingent
    · -- The path has begun with the greatest duration of the link.
      obtain ⟨keys, d, slack, explored, _, spare, known, _, below⟩ := near
      obtain ⟨rfl, above⟩ := uniform.above_of_origin explored listed own known
      rw [own] at spare
      have := uniform.eq_of_slack listed spare
      exact Or.inr (Or.inl ⟨rfl, by linarith⟩)
    · obtain ⟨x, weight, le⟩ := Network.extension?_le_of_lower
        (uniform.case?_contingent listed).1 le_rfl (Ne.symm own)
      exact near.extension within weight (le.trans nonneg)
  | @least i link listed =>
    obtain ⟨x, weight, le⟩ := Network.extension?_le_of_ordinary (uniform.ordinary?_back listed)
      le_rfl (origin s)
    exact near.extension within weight (le.trans nonneg)

theorem near_earlier (near : Near g links durations origin rank s v p)
    (edge : Fixed g links durations u v w) (negative : w < 0) : rank v < rank s := by
  obtain ⟨keys, d, slack, _, earlier, _, known, negative', _⟩ := near
  refine earlier v d known negative' ?_
  cases edge with
  | ordinary weight => exact ⟨_, _, _, .ordinary weight negative⟩
  | @most i link listed => exact absurd negative (not_lt.mpr (within i link listed).1)
  | @least i link listed => exact ⟨_, _, _, uniform.start_activation listed⟩

theorem backtracked (explores : ∀ s, g.HasStart s → ∃ keys,
      NodeRun.Explored g s (origin s) keys .empty ∧
        ∀ u d, keys u = some d → d < 0 → g.HasStart u → rank u < rank s) :
    Backtracked (Fixed g links durations) (Near g links durations origin rank) rank where
  start edge negative := uniform.near_start within explores edge negative
  step near edge nonneg := uniform.near_step within near edge nonneg
  earlier near edge negative := uniform.near_earlier within near edge negative
  mono := by
    rintro s v p q ⟨keys, d, slack, explored, earlier, spare, known, negative, le⟩ le'
    exact ⟨keys, d, slack, explored, earlier, spare, known, negative, le.trans le'⟩

end

end Uniform

theorem Uniform.grown {h : PlainNetwork} {into : NodeId → Prop} (uniform : Uniform g links origin)
    (grown : g.Grown into h) (wf : h.WellFormed) : Uniform h links origin :=
  ⟨uniform.carries.tightened grown.tightened wf, uniform.lower,
    fun link mem => (grown.tightened.bound_le _ _).trans (uniform.back link mem),
    fun s u w o start => uniform.origin s u w o (grown.start_iff.mp start)⟩

theorem Separated.uniform (separated : Separated g links)
    (lower : ∀ link ∈ links, link.lower = 0) : ∃ origin, Uniform g links origin := by
  have same : ∀ s, ∃ o, ∀ u w o', g.Start s u w o' → o' = o := by
    intro s
    by_cases activates : ∃ link ∈ links, link.activation = s
    · obtain ⟨link, mem, rfl⟩ := activates
      refine ⟨some link.contingent, fun u w o start => ?_⟩
      cases start with
      | ordinary weight negative =>
        obtain ⟨rfl, _⟩ := Network.ordinary?_eq_some_iff.mp weight
        exact absurd negative (not_lt.mpr (separated.nonneg link mem (lower link mem) u))
      | upper held _ =>
        obtain ⟨other, mem', ⟨_, _, equal⟩ | ⟨_, into, equal⟩⟩ := separated.carries.owned _ _ _ held
        · cases equal
        · rw [separated.alone link mem (lower link mem) other mem' into.symm] at equal
          cases equal
          rfl
    · refine ⟨none, fun u w o start => ?_⟩
      cases start with
      | ordinary _ _ => rfl
      | upper held _ =>
        obtain ⟨other, mem, ⟨_, _, equal⟩ | ⟨_, into, _⟩⟩ := separated.carries.owned _ _ _ held
        · cases equal
        · exact absurd ⟨other, mem, into.symm⟩ activates
  choose origin same using same
  refine ⟨origin, separated.carries, lower, fun link mem => ?_, same⟩
  have back := separated.back link mem
  rwa [lower link mem, neg_zero] at back

include within in
/-- The constraints can be satisfied if the back-propagation of every node has come to its end. -/
theorem Uniform.exists_solves (uniform : Uniform g links origin)
    (explores : ∀ s, g.HasStart s → ∃ keys, NodeRun.Explored g s (origin s) keys .empty ∧
      ∀ u d, keys u = some d → d < 0 → g.HasStart u → rank u < rank s) :
    ∃ t, Solves g links durations t := by
  let edges : List (NodeId × NodeId × Int) :=
    ((List.range g.nodeCount).flatMap fun u => (List.range g.nodeCount).map fun v =>
      (u, v, g.bound u v)) ++
    (List.range links.length).flatMap fun i => (links[i]?).toList.map fun link =>
      (link.contingent, link.activation, -durations i)
  obtain ⟨t, satisfies⟩ := (uniform.backtracked within explores).exists_satisfies edges <| by
    intro u v w edge negative
    rw [List.mem_append, List.mem_flatMap, List.mem_flatMap]
    cases edge with
    | ordinary weight =>
      obtain ⟨hu, hv⟩ := Network.lt_of_ordinary? uniform.carries.wellFormed weight
      obtain ⟨rfl, _⟩ := Network.ordinary?_eq_some_iff.mp weight
      exact Or.inl ⟨u, List.mem_range.mpr hu, List.mem_map.mpr ⟨v, List.mem_range.mpr hv, rfl⟩⟩
    | @most i link listed => exact absurd negative (not_lt.mpr (within i link listed).1)
    | @least i link listed =>
      obtain ⟨inside, _⟩ := List.getElem?_eq_some_iff.mp listed
      exact Or.inr ⟨i, List.mem_range.mpr inside, by rw [listed]; exact List.mem_singleton_self _⟩
  refine ⟨t, fun u v w weight => satisfies u v w (.ordinary weight), fun i link listed => ?_⟩
  have := satisfies _ _ _ (.most listed)
  have := satisfies _ _ _ (.least listed)
  omega

end

theorem NodeRun.Progress.explores {first : PlainNetwork} {origin : NodeId → Option NodeId}
    {t : StnuRun NodeStatus} {F : List NodeId} (progress : NodeRun.Progress first origin t F)
    {s : NodeId} (mem : s ∈ F) : ∃ keys, NodeRun.Explored t.network s (origin s) keys .empty ∧
      ∀ u d, keys u = some d → d < 0 → t.network.HasStart u →
        F.reverse.idxOf u < F.reverse.idxOf s := by
  obtain ⟨after, before, rfl⟩ := List.append_of_mem mem
  obtain ⟨keys, explored, treated⟩ := progress.searched s before (List.suffix_append after _)
  refine ⟨keys, explored, fun u d known negative starts => ?_⟩
  have earlier := treated u d known negative (progress.grown.hasStart_iff.mp starts)
  have other : s ∉ before :=
    (List.nodup_cons.mp (List.nodup_append.mp progress.nodup).2.1).1
  rw [List.reverse_append, List.reverse_cons, List.append_assoc,
    List.idxOf_append_of_mem (List.mem_reverse.mpr earlier),
    List.idxOf_append_of_notMem (by rwa [List.mem_reverse])]
  have := List.idxOf_lt_length_of_mem (List.mem_reverse.mpr earlier)
  omega

theorem Prepared.separated {g h : PlainNetwork} {links : List StnuLink} (prepared : Prepared g h links)
    (raw : ∀ u v, g.case? u v = none) (range : ∀ u v, g.bound u v ≤ Value.posInf)
    (apart : ∀ link, g.IsLink link → link.lower = 0 → (∀ u, 0 ≤ g.bound u link.activation) ∧
      ∀ other, g.IsLink other → other.activation = link.activation → other = link) :
    Separated h links := by
  have isLink : ∀ link ∈ links, g.IsLink link := fun link mem => (prepared.mem_iff link).mp mem
  refine ⟨prepared.carries raw, fun link mem => ?_, fun link mem => ?_, fun link mem none u => ?_,
    fun link mem none other mem' same => ?_⟩
  · obtain ⟨upper, _⟩ := Network.ordinary?_eq_some_iff.mp (isLink link mem).upper
    exact (prepared.link link mem).range.trans_le (upper.symm.trans_le (range _ _))
  · obtain ⟨w, weight, le⟩ := (prepared.link link mem).upper
    rwa [(Network.ordinary?_eq_some_iff.mp weight).1]
  · obtain ⟨nonneg, alone⟩ := apart link (isLink link mem) none
    by_cases finite : h.bound u link.activation = Value.posInf
    · rw [finite]
      decide
    · rcases prepared.ordinary _ _ _ (Network.ordinary?_eq_some_iff.mpr ⟨rfl, finite⟩) with
        ⟨before, _⟩ | ⟨_, zero⟩ | ⟨other, mem', ⟨_, _, same⟩ | ⟨_, into, same⟩⟩
      · rw [← (Network.ordinary?_eq_some_iff.mp before).1]
        exact nonneg u
      · exact zero.ge
      · rw [same]
        exact (prepared.link other mem').nonneg.trans (prepared.link other mem').range.le
      · rw [same, alone other (isLink other mem') into.symm, none]
        exact le_rfl
  · exact (apart link (isLink link mem) none).2 other (isLink other mem') same

/-- A run over the nodes that comes to its end leaves every choice of durations to be realised, if the
constraints are apart. -/
theorem Prepared.exists_durationSchedule {g h : PlainNetwork} {links : List StnuLink}
    (prepared : Prepared g h links) (separated : Separated h links) {durations : Nat → Int}
    (within : ∀ (i : Nat) (link : StnuLink), links[i]? = some link →
      link.lower ≤ durations i ∧ durations i ≤ link.upper)
    (stops : Polls) (statistics : StnuStatistics)
    (accepts : ∀ {ok : Unit → StnuRun NodeStatus → Prop}, Ends (NodeRun.processAll stops)
      (StnuChecker.nodeStart h links statistics) ok (fun _ _ => True) → ∃ s, ok () s) :
    ∃ t, DurationSchedule g links durations t := by
  obtain ⟨separated, durations', within', solves⟩ := separated.ofLinks within
  have lower : ∀ link ∈ (NormalForm.ofLinks h links).2.1, link.lower = 0 := fun link mem =>
    le_antisymm (NormalForm.lower_le_of_mem_ofLinks mem) (separated.carries.nonneg link mem)
  obtain ⟨origin, uniform⟩ := separated.uniform lower
  have explores := NodeRun.processAll_explores
    (s := StnuChecker.nodeStart h links statistics) stops separated.carries.wellFormed
    Array.size_replicate (fun p inside => by
      rw [StnuChecker.nodeStart, StnuRun.start, Array.getElem?_replicate]
      exact if_pos inside) uniform.origin
  obtain ⟨t, F, progress, treated⟩ := accepts explores
  have range' : ∀ (i : Nat) (link : StnuLink), (NormalForm.ofLinks h links).2.1[i]? = some link →
      0 ≤ durations' i ∧ durations' i ≤ link.upper := by
    intro i link listed
    have bounds := within' i link listed
    rwa [lower link (List.mem_of_getElem? listed)] at bounds
  obtain ⟨times, solved⟩ := (uniform.grown progress.grown progress.wellFormed).exists_solves range'
    fun s starts => progress.explores (treated s (progress.grown.hasStart_iff.mp starts))
  have solved' := solves times ⟨fun u v w weight => by
    obtain ⟨w', weight', le⟩ := progress.grown.tightened.ordinary?_le weight
    have := solved.ordinary u v w' weight'
    linarith, solved.lasts⟩
  exact ⟨times, prepared.durationSchedule (.refl (fun _ => True) h) solved'.ordinary solved'.lasts⟩

/-- A consistent verdict of a check over the nodes is right if nothing has to precede the activation
node of a link without a shortest duration, and no other link starts there: then every choice of
durations is realised. -/
theorem exists_durationSchedule_of_consistent_by_nodes (g : PlainNetwork) (wf : g.WellFormed)
    (raw : ∀ u v, g.case? u v = none) (range : ∀ u v, g.bound u v ≤ Value.posInf)
    (options : CheckerOptions) (byNodes : options.algorithm = .morris2014) (stops : Polls)
    (c : StnuChecker) (status : CheckStatus)
    (checked : (StnuChecker.ofNetwork g options).check stops = (c, .ok status))
    (consistent : status.outcome = .consistent) (links : List StnuLink)
    (found : (StnuChecker.ofNetwork g options).initialise.1.links = links)
    (apart : ∀ link, g.IsLink link → link.lower = 0 → (∀ u, 0 ≤ g.bound u link.activation) ∧
      ∀ other, g.IsLink other → other.activation = link.activation → other = link)
    (durations : Nat → Int)
    (within : ∀ (i : Nat) (link : StnuLink), links[i]? = some link →
      link.lower ≤ durations i ∧ durations i ≤ link.upper) :
    (∀ link, link ∈ links ↔ g.IsLink link) ∧ ∃ t, DurationSchedule g links durations t := by
  have ran := StnuChecker.ran_over_nodes wf byNodes checked
  rw [found] at ran
  obtain ⟨h, prepared, statistics, answers⟩ := ran
  refine ⟨prepared.mem_iff, ?_⟩
  exact prepared.exists_durationSchedule (prepared.separated raw range apart) within stops statistics
    fun explores => (answers explores).1 consistent

/-- The node `X` has to follow the end of a link that may take no time by at most two. -/
def promptNetwork : PlainNetwork :=
  (Network.build [.named "Z", .named "A", .named "C", .named "X"]
    [("AC", 1, 2, ⟨.contingent, 3, none⟩), ("CA", 2, 1, ⟨.contingent, 0, none⟩),
      ("CX", 2, 3, ⟨.ordinary, 2, none⟩), ("XC", 3, 2, ⟨.ordinary, 0, none⟩)]).getD .empty

theorem promptNetwork_edge {u v : NodeId} {edge : PlainEdge}
    (joined : promptNetwork.edgeBetween? u v = some edge) :
    edge.case = none ∧ edge.weight ≤ Value.posInf ∧ 0 ≤ edge.weight := by
  have all : ∀ s ∈ promptNetwork.slots.toList, ∀ t, s = some t →
      t.payload.case = none ∧ t.payload.weight ≤ Value.posInf ∧ 0 ≤ t.payload.weight := by
    decide +kernel
  obtain ⟨e, slot, stored, _, _, rfl⟩ :=
    (Network.wellFormed_getD_build _ _).edgeBetween?_eq_some_iff.mp joined
  rw [Network.slot?, Option.join_eq_some_iff] at stored
  exact all _ (Array.mem_toList_iff.mpr (Array.mem_of_getElem? stored)) slot rfl

theorem exists_durationSchedule_of_consistent_by_nodes_prompt : ∃ c status,
    (StnuChecker.ofNetwork promptNetwork ⟨none, false, true, .morris2014⟩).check .never =
        (c, .ok status) ∧ status.outcome = .consistent ∧
      (StnuChecker.ofNetwork promptNetwork ⟨none, false, true, .morris2014⟩).initialise.1.links =
        [⟨1, 2, 0, 3⟩] ∧ ∃ t, DurationSchedule promptNetwork [⟨1, 2, 0, 3⟩] (fun _ => 0) t := by
  have answered : ((StnuChecker.ofNetwork promptNetwork ⟨none, false, true, .morris2014⟩).check
      .never).2.toOption.map CheckStatus.outcome = some .consistent := by decide +kernel
  have found : (StnuChecker.ofNetwork promptNetwork
      ⟨none, false, true, .morris2014⟩).initialise.1.links = [⟨1, 2, 0, 3⟩] := by decide +kernel
  have raw : ∀ u v, promptNetwork.case? u v = none := by
    intro u v
    rw [Network.case?]
    cases joined : promptNetwork.edgeBetween? u v with
    | none => rfl
    | some edge => exact (promptNetwork_edge joined).1
  have range : ∀ u v, promptNetwork.bound u v ≤ Value.posInf ∧ 0 ≤ promptNetwork.bound u v := by
    intro u v
    rw [Network.bound]
    cases joined : promptNetwork.edgeBetween? u v with
    | none => exact ⟨le_rfl, by decide⟩
    | some edge => exact (promptNetwork_edge joined).2
  cases checked : (StnuChecker.ofNetwork promptNetwork ⟨none, false, true, .morris2014⟩).check
      .never with
  | mk c answer =>
    rw [checked] at answered
    cases answer with
    | error e => cases answered
    | ok status =>
      have consistent : status.outcome = .consistent := Option.some.inj answered
      have wf : promptNetwork.WellFormed := Network.wellFormed_getD_build _ _
      obtain ⟨h, prepared, _⟩ := StnuChecker.ran_over_nodes wf rfl checked
      have only : ∀ link, promptNetwork.IsLink link → link = ⟨1, 2, 0, 3⟩ := by
        intro link isLink
        have mem := (prepared.mem_iff link).mpr isLink
        rw [found] at mem
        exact List.mem_singleton.mp mem
      have within : ∀ (i : Nat) (link : StnuLink), [(⟨1, 2, 0, 3⟩ : StnuLink)][i]? = some link →
          link.lower ≤ (0 : Int) ∧ (0 : Int) ≤ link.upper := by
        intro i link listed
        rw [List.mem_singleton.mp (List.mem_of_getElem? listed)]
        decide
      exact ⟨c, status, rfl, consistent, found, (exists_durationSchedule_of_consistent_by_nodes
        promptNetwork wf raw (fun u v => (range u v).1) _ rfl _ c status checked consistent _ found
        (fun link isLink _ => ⟨fun u => (range u _).2, fun other isLink' _ =>
          (only other isLink').trans (only link isLink).symm⟩) (fun _ => 0) within).2⟩

end TemporalNetwork
