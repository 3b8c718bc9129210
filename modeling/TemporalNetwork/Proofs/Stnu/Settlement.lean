import TemporalNetwork.Proofs.Stnu.Durations
import TemporalNetwork.Proofs.Stnu.Verdict

/-!
A network on which a check over the links finds nothing wrong realises every choice of durations. What
a back-propagation has found stays true until the end of the run: the edges that are added later lead
into activation nodes of links that are finished later, and it has not passed any of those, unless its
own contingent node is one of them.
-/

namespace TemporalNetwork

/-- Whether a node activates a link that is not among `before`. -/
def ActivatesLater (links : List StnuLink) (before : List Nat) (n : NodeId) : Prop :=
  ∃ i link, i ∉ before ∧ links[i]? = some link ∧ link.activation = n

/-- No link is started where another one ends. -/
def Unchained (links : List StnuLink) : Prop :=
  ∀ link ∈ links, ∀ other ∈ links, other.activation ≠ link.contingent

/-- What a link finished after the links `before` leaves in a network `g`: a completed
back-propagation in a network `n` that has since been tightened only for this link and later ones. -/
structure Settlement (links : List StnuLink) (g : PlainNetwork) (before : List Nat) (i : Nat)
    (link : StnuLink) (n : PlainNetwork) (distances : NodeId → Option Int)
    (edges : List (NodeId × Value)) : Prop where
  completed : ∃ statuses, (∀ k : Nat, statuses[k]? = some .finished ↔ k ∈ before) ∧
    BackPropagation.Completed ⟨n, links, statuses, i, link⟩ distances edges
  tightened : n.TightenedInto (ActivatesLater links before) g
  added : ∀ v w, (v, w) ∈ edges → g.bound v link.activation ≤ w

def Settled (links : List StnuLink) (g : PlainNetwork) (before : List Nat) (i : Nat) : Prop :=
  ∃ link n distances edges, links[i]? = some link ∧ Settlement links g before i link n distances edges

theorem Settled.tighten {links : List StnuLink} {g h : PlainNetwork} {before : List Nat} {i : Nat}
    (settled : Settled links g before i)
    (tightened : g.TightenedInto (ActivatesLater links before) h) : Settled links h before i := by
  obtain ⟨link, n, distances, edges, listed, settlement⟩ := settled
  exact ⟨link, n, distances, edges, listed, settlement.completed,
    settlement.tightened.trans tightened,
    fun v w mem => (tightened.bound_le v _).trans (settlement.added v w mem)⟩

namespace Network

variable {g h : PlainNetwork}

/-- Tightening edges into other nodes does not change how a path continues. -/
theorem TightenedInto.stepWeight?_eq {into : NodeId → Prop} (tightened : g.TightenedInto into h)
    {u : NodeId} (elsewhere : ¬ into u) (v : NodeId) (d : Int) :
    h.stepWeight? v u d = g.stepWeight? v u d := by
  rw [stepWeight?, tightened.ordinary?_eq elsewhere, tightened.lowerWeight?, stepWeight?]

end Network

namespace Settlement

variable {links : List StnuLink} {g n h : PlainNetwork} {before : List Nat} {i : Nat}
  {link : StnuLink} {distances : NodeId → Option Int} {edges : List (NodeId × Value)}

variable (settlement : Settlement links g before i link n distances edges)
  (unchained : Unchained links) (listed : links[i]? = some link)

include settlement unchained listed in
/-- A node that has been passed does not activate a later link. -/
theorem not_activatesLater {u : NodeId} {d : Int} (found : distances u = some d)
    (passes : link.Passes u d) : ¬ ActivatesLater links before u := by
  rintro ⟨k, other, later, listed', activated⟩
  obtain ⟨statuses, finished, completed⟩ := settlement.completed
  have apart : u ≠ link.contingent := fun origin =>
    unchained link (List.mem_of_getElem? listed) other (List.mem_of_getElem? listed')
      (activated.trans origin)
  obtain ⟨stops, near⟩ := passes.resolve_left apart
  by_cases same : k = i
  · subst same
    rw [listed] at listed'
    cases listed'
    exact stops activated.symm
  · have free := completed.free u d found stops apart near
    exact later ((finished k).mp
      (BackPropagation.Query.unfinishedLinkAt?_none free listed' same activated))

include settlement unchained listed in
/-- What is reached later has been found at a distance that is not greater. -/
theorem exists_distance (tightened : n.TightenedInto (ActivatesLater links before) h) {v : NodeId}
    {d : Int} (reaches : h.Reaches link v d) : ∃ d', distances v = some d' ∧ d' ≤ d := by
  obtain ⟨statuses, _, completed⟩ := settlement.completed
  induction reaches with
  | origin => exact ⟨0, completed.origin, le_rfl⟩
  | @step u v d w _ passes onward weight ih =>
    obtain ⟨d', found, le⟩ := ih
    have passes' := passes.of_le le
    rw [tightened.stepWeight?_eq (settlement.not_activatesLater unchained listed found passes')]
      at weight
    obtain ⟨w', weight', le'⟩ := Network.stepWeight?_le_of_le le weight
    obtain ⟨d'', le'', found'⟩ := completed.closed u v d' w' found passes' onward weight'
    exact ⟨d'', found', by linarith⟩

include settlement unchained listed in
theorem reaches {v : NodeId} {d : Int} (reaches : n.Reaches link v d) : g.Reaches link v d := by
  induction reaches with
  | origin => exact .origin
  | @step u v d w before passes onward weight ih =>
    obtain ⟨d', found, le⟩ := settlement.exists_distance unchained listed (.refl _ n) before
    have elsewhere := settlement.not_activatesLater unchained listed found (passes.of_le le)
    rw [← settlement.tightened.stepWeight?_eq elsewhere] at weight
    exact ih.step passes onward weight

include settlement unchained listed in
/-- A finished link is closed in the network at the end of the run. -/
theorem linkClosed : LinkClosed g links before i link := by
  obtain ⟨statuses, finished, completed⟩ := settlement.completed
  constructor
  · intro v d reaches
    obtain ⟨d', found, le⟩ := settlement.exists_distance unchained listed settlement.tightened reaches
    have reaches' := settlement.reaches unchained listed (completed.reaches v d' found)
    by_cases origin : v = link.contingent
    · exact Or.inl ⟨d', le, reaches', Or.inl origin⟩
    · by_cases stops : v = link.activation
      · exact Or.inr (Or.inl ⟨stops, (completed.activation d' (stops ▸ found)).trans le⟩)
      · by_cases near : d' < link.upper - link.lower
        · exact Or.inl ⟨d', le, reaches', Or.inr ⟨stops, near⟩⟩
        · have mem := completed.exits v d' found stops origin (not_lt.mp near)
          obtain ⟨_, _, finite, _⟩ := completed.listed v _ mem
          have bound := settlement.added v _ mem
          have finite' : g.bound v link.activation ≠ Value.posInf := (bound.trans_lt finite.2).ne
          refine Or.inr (Or.inr ⟨_, Network.ordinary?_eq_some_iff.mpr ⟨rfl, finite'⟩, ?_⟩)
          exact bound.trans (sub_le_sub_right le _)
  · intro v d reaches stops origin near k other listed' activated apart
    obtain ⟨d', found, le⟩ := settlement.exists_distance unchained listed settlement.tightened reaches
    have free := completed.free v d' found stops origin (lt_of_le_of_lt le near)
    exact (finished k).mp
      (BackPropagation.Query.unfinishedLinkAt?_none free listed' apart activated)

end Settlement

namespace LinkStage

variable {links : List StnuLink} {first : PlainNetwork} {stage : LinkStage}

theorem Reachable.tightened (runnable : Runnable links first)
    (reachable : Reachable links first stage) :
    first.TightenedInto (fun _ => True) stage.network := by
  induction reachable with
  | begin => exact .refl _ first
  | start _ _ tightened => exact tightened
  | interrupt _ _ _ tightened => exact tightened
  | finish before listed completes _ tightened =>
    obtain ⟨_, after⟩ := (before.progress runnable).tightens listed completes
    exact (tightened.trans (after.tightened.mono fun _ _ => trivial)).trans
      ((Network.sameEdges_setPotentials _ _).tightenedInto _)

theorem Reachable.settled (runnable : Runnable links first)
    (reachable : Reachable links first stage) :
    ∀ i before, (i :: before) <:+ stage.finished → Settled links stage.network before i := by
  induction reachable with
  | begin => exact fun i before suffix => absurd (List.suffix_nil.mp suffix) (List.cons_ne_nil _ _)
  | start _ _ settled => exact settled
  | interrupt _ _ _ settled => exact settled
  | @finish g statuses finished rest i link edges p reachable listed completes _ settled =>
    have progress := reachable.progress runnable
    obtain ⟨⟨distances, completed⟩, after⟩ := progress.tightens listed completes
    have same := Network.sameEdges_setPotentials
      (Network.tightenEach link.activation g edges).1 p
    have unfinished : i ∉ finished := by
      intro mem
      have started := progress.status_top
      rw [(progress.done i).mpr mem] at started
      cases started
    have tightened : ∀ before : List Nat, i ∉ before → g.TightenedInto (ActivatesLater links before)
        ((Network.tightenEach link.activation g edges).1.setPotentials p) := by
      intro before later
      refine (after.tightened.mono ?_).trans (same.tightenedInto _)
      rintro v rfl
      exact ⟨i, link, later, listed, rfl⟩
    intro j before suffix
    rcases List.suffix_cons_iff.mp suffix with here | earlier
    · cases here
      refine ⟨link, g, distances, edges, listed, ⟨statuses, progress.done, completed⟩,
        tightened finished unfinished, fun v w mem => ?_⟩
      rw [same.bound]
      exact after.bound_le v w mem
    · refine (settled j before earlier).tighten (tightened before fun mem => unfinished ?_)
      exact earlier.subset (List.mem_cons_of_mem _ mem)

end LinkStage

theorem LinkPrepared.of_tightened {g h : PlainNetwork} {link : StnuLink} {into : NodeId → Prop}
    (prepared : LinkPrepared g link) (tightened : g.TightenedInto into h) : LinkPrepared h link := by
  refine ⟨?_, prepared.apart, prepared.nonneg, prepared.range, ?_, ?_⟩
  · rw [tightened.nodeCount]
    exact prepared.inside
  · rw [tightened.lowerWeight?]
    exact prepared.lower
  · obtain ⟨w, weight, le⟩ := prepared.upper
    obtain ⟨w', weight', le'⟩ := tightened.ordinary?_le weight
    exact ⟨w', weight', le'.trans le⟩

section finished

variable {g h first k : PlainNetwork} {links : List StnuLink} {statuses : Array LinkStatus}
  {finished : List Nat}

theorem Prepared.allClosed (prepared : Prepared g h links) (unchained : Unchained links)
    (runnable : Runnable links first) (same : h.SameEdges first)
    (reachable : LinkStage.Reachable links first ⟨k, statuses, finished, []⟩)
    (complete : ∀ i, i < links.length → i ∈ finished) : AllClosed k links finished := by
  have progress := reachable.progress runnable
  have tightened := (same.tightenedInto _).trans (reachable.tightened runnable)
  constructor
  · exact progress.relaxed.valid
  · intro i link listed
    exact (prepared.link link (List.mem_of_getElem? listed)).of_tightened tightened
  · intro i j link other listed listed' same
    have distinct := prepared.distinct
    obtain ⟨inside, _⟩ := List.getElem?_eq_some_iff.mp listed
    refine (List.getElem?_inj (by simpa using inside) distinct).mp ?_
    rw [List.getElem?_map, List.getElem?_map, listed, listed', Option.map_some, Option.map_some, same]
  · exact progress.distinct
  · exact complete
  · intro i before suffix
    obtain ⟨link, n, distances, edges, listed, settlement⟩ :=
      reachable.settled runnable i before suffix
    exact ⟨link, listed, settlement.linkClosed unchained listed⟩

end finished

/-- Times for a network whose links take the given durations: no node is before the reference node,
and the constraints that are not those of a link hold. -/
structure DurationSchedule (g : PlainNetwork) (links : List StnuLink) (durations : Nat → Int)
    (t : NodeId → Int) : Prop where
  first : ∀ n, g.Scheduled n → t g.origin ≤ t n
  constraint : ∀ u v edge w, g.edgeBetween? u v = some edge → edge.kind ≠ .contingent →
    edge.value? = some w → t v ≤ t u + w
  lasts : ∀ (i : Nat) (link : StnuLink), links[i]? = some link →
    t link.contingent = t link.activation + durations i

/-- Times that satisfy a tightened network are a schedule for the network before its preparation. -/
theorem Prepared.durationSchedule {g h k : PlainNetwork} {links : List StnuLink}
    (prepared : Prepared g h links) {into : NodeId → Prop} (tightened : h.TightenedInto into k)
    {durations : Nat → Int} {t : NodeId → Int}
    (ordinary : ∀ u v w, k.ordinary? u v = some w → t v ≤ t u + w)
    (lasts : ∀ (i : Nat) (link : StnuLink), links[i]? = some link →
      t link.contingent = t link.activation + durations i) :
    DurationSchedule g links durations t := by
  have kept : ∀ u v w, h.ordinary? u v = some w → t v ≤ t u + w := by
    intro u v w weight
    obtain ⟨w', weight', le⟩ := tightened.ordinary?_le weight
    have := ordinary u v w' weight'
    linarith
  refine ⟨fun n scheduled => ?_, fun u v edge w joined _ stored => ?_, lasts⟩
  · by_cases same : n = g.origin
    · rw [same]
    · have inside := (scheduled.resolve_right same).trans_le prepared.nodeCount_le
      have early := prepared.first n inside same
      have finite : h.bound n g.origin ≠ Value.posInf := (early.trans_lt (by decide)).ne
      have := kept n g.origin _ (Network.ordinary?_eq_some_iff.mpr ⟨rfl, finite⟩)
      linarith
  · have weight : g.ordinary? u v = some w := by
      rw [← Network.bind_value?, joined, Option.bind_some, stored]
    obtain ⟨w', weight', le⟩ := prepared.kept u v w weight
    have := kept u v w' weight'
    linarith

/-- A consistent verdict of a check over the links is right if no link is started where another one
ends, and if the lower-case values that the back-propagations leave out would not lead to smaller
distances: then every choice of durations is realised. -/
theorem exists_durationSchedule_of_consistent (g : PlainNetwork) (wf : g.WellFormed)
    (options : CheckerOptions) (byLinks : options.algorithm ≠ .morris2014) (stops : Polls)
    (c : StnuChecker) (status : CheckStatus)
    (checked : (StnuChecker.ofNetwork g options).check stops = (c, .ok status))
    (consistent : status.outcome = .consistent) (unchained : Unchained c.links)
    (covered : LowerCasesCovered c.network c.links) (durations : Nat → Int)
    (within : ∀ (i : Nat) (link : StnuLink), c.links[i]? = some link →
      link.lower ≤ durations i ∧ durations i ≤ link.upper) :
    (∀ link, link ∈ c.links ↔ g.IsLink link) ∧ ∃ t, DurationSchedule g c.links durations t := by
  obtain ⟨h, prepared, ran⟩ := StnuChecker.ran_of_check wf byLinks checked
  obtain ⟨first, statuses, finished, runnable, same, reachable, complete⟩ := ran.consistent consistent
  have all := prepared.allClosed unchained runnable same reachable complete
  have tightened := (same.tightenedInto _).trans (reachable.tightened runnable)
  obtain ⟨t, ordinary, lasts⟩ := exists_realises all covered within
  exact ⟨prepared.mem_iff, t, prepared.durationSchedule tightened ordinary lasts⟩

/-- The node `X` has to follow the end of a link by at most two. -/
def followingNetwork : PlainNetwork :=
  (Network.build [.named "Z", .named "A", .named "C", .named "X"]
    [("AC", 1, 2, ⟨.contingent, 3, none⟩), ("CA", 2, 1, ⟨.contingent, -1, none⟩),
      ("CX", 2, 3, ⟨.ordinary, 2, none⟩), ("XC", 3, 2, ⟨.ordinary, 0, none⟩)]).getD .empty

theorem exists_durationSchedule_of_consistent_following : ∃ c status,
    (StnuChecker.ofNetwork followingNetwork ⟨none, false, true, .rul2020⟩).check .never =
        (c, .ok status) ∧ status.outcome = .consistent ∧ c.links = [⟨1, 2, 1, 3⟩] ∧
      Unchained c.links ∧ LowerCasesCovered c.network c.links ∧
      ∃ t, DurationSchedule followingNetwork c.links (fun _ => 2) t := by
  have answered : ((StnuChecker.ofNetwork followingNetwork ⟨none, false, true, .rul2020⟩).check
      .never).2.toOption.map CheckStatus.outcome = some .consistent := by decide +kernel
  have found : ((StnuChecker.ofNetwork followingNetwork ⟨none, false, true, .rul2020⟩).check
      .never).1.links = [⟨1, 2, 1, 3⟩] := by decide +kernel
  cases checked : (StnuChecker.ofNetwork followingNetwork ⟨none, false, true, .rul2020⟩).check
      .never with
  | mk c answer =>
    rw [checked] at answered found
    cases answer with
    | error e => cases answered
    | ok status =>
      have consistent : status.outcome = .consistent := Option.some.inj answered
      dsimp only at found
      -- With a single link there is nothing to chain, and no lower case that another link covers.
      have only : ∀ (i : Nat) (link : StnuLink), c.links[i]? = some link →
          i = 0 ∧ link = ⟨1, 2, 1, 3⟩ := by
        intro i link listed
        rw [found, List.getElem?_singleton] at listed
        split at listed
        · rename_i first
          exact ⟨first, (Option.some.inj listed).symm⟩
        · cases listed
      have unchained : Unchained c.links := by
        rw [found]
        unfold Unchained
        decide
      have covered : LowerCasesCovered c.network c.links := by
        intro i k link other d listed listed' apart
        exact absurd ((only k other listed').1.trans (only i link listed).1.symm) apart
      have within : ∀ (i : Nat) (link : StnuLink), c.links[i]? = some link →
          link.lower ≤ (2 : Int) ∧ (2 : Int) ≤ link.upper := by
        intro i link listed
        rw [(only i link listed).2]
        decide
      exact ⟨c, status, rfl, consistent, found, unchained, covered,
        (exists_durationSchedule_of_consistent followingNetwork (Network.wellFormed_getD_build _ _)
          _ (by decide) _ c status checked consistent unchained covered (fun _ => 2) within).2⟩

end TemporalNetwork
