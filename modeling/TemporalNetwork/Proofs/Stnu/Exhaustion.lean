import TemporalNetwork.Proofs.Stnu.Settlement

/-!
A network that has been checked over the links is exhausted: when every link is finished, the
back-propagation of each of them runs to its end once more, and the edges it leads to are in the network
already. Edges that are added into the activation node of a later link do not shorten a path which an
earlier link relies on, so what has been found for a link is what is found again.
-/

namespace TemporalNetwork

/-- The statuses of links that have all been finished. -/
def allFinished (links : List StnuLink) : Array LinkStatus := Array.replicate links.length .finished

/-- Whether a back-propagation of the link at place `i`, with every link finished, is completed and
leads to no edge that would tighten the network. -/
def Exhausted (g : PlainNetwork) (links : List StnuLink) (i : Nat) (link : StnuLink) : Prop :=
  ∃ edges, BackPropagation.ofLink g links (allFinished links) i link = .completed edges ∧
    ∀ v w, (v, w) ∈ edges → (g.tighten v link.activation w).2 = false

theorem getElem?_allFinished {links : List StnuLink} {i : Nat} {link : StnuLink}
    (listed : links[i]? = some link) : (allFinished links)[i]? = some .finished := by
  obtain ⟨inside, _⟩ := List.getElem?_eq_some_iff.mp listed
  simp [allFinished, inside]

theorem BackPropagation.Query.not_waits_allFinished {g : PlainNetwork} {links : List StnuLink}
    {i next : Nat} {link other : StnuLink} {d : Int} :
    ¬ Waits ⟨g, links, allFinished links, i, link⟩ next other d :=
  fun waits => waits.unfinished (getElem?_allFinished waits.listed)

namespace Settlement

variable {links : List StnuLink} {g n : PlainNetwork} {before : List Nat} {i : Nat}
  {link : StnuLink} {distances : NodeId → Option Int} {edges : List (NodeId × Value)}

variable (settlement : Settlement links g before i link n distances edges)
  (unchained : Unchained links) (listed : links[i]? = some link)

include settlement unchained listed in
/-- The least distance in the final network is the one that has been found. -/
theorem distance_eq {v : NodeId} {d : Int} (reaches : g.Reaches link v d)
    (least : ∀ d', g.Reaches link v d' → d ≤ d') : distances v = some d := by
  obtain ⟨statuses, _, completed⟩ := settlement.completed
  obtain ⟨d', found, le⟩ := settlement.exists_distance unchained listed settlement.tightened reaches
  have reaches' := settlement.reaches unchained listed (completed.reaches v d' found)
  rw [found, le_antisymm le (least d' reaches')]

include settlement unchained listed in
/-- Where a path ends at a least distance that is far enough, the edge it leads to is finite, and has
been added. -/
theorem bound_le {v : NodeId} {d : Int} (reaches : g.Reaches link v d)
    (least : ∀ d', g.Reaches link v d' → d ≤ d') (stops : v ≠ link.activation)
    (onward : v ≠ link.contingent) (far : link.upper - link.lower ≤ d) :
    Value.IsFinite (d - link.upper) ∧ g.bound v link.activation ≤ d - link.upper := by
  have found := settlement.distance_eq unchained listed reaches least
  obtain ⟨statuses, _, completed⟩ := settlement.completed
  have mem := completed.exits v d found stops onward far
  obtain ⟨_, _, finite, _⟩ := completed.listed v _ mem
  exact ⟨finite, settlement.added v _ mem⟩

include settlement unchained listed in
theorem upper_le {d : Int} (reaches : g.Reaches link link.activation d) : link.upper ≤ d := by
  obtain ⟨d', found, le⟩ := settlement.exists_distance unchained listed settlement.tightened reaches
  obtain ⟨statuses, _, completed⟩ := settlement.completed
  exact (completed.activation d' found).trans le

include settlement unchained listed in
theorem exhausted (wf : g.WellFormed) (valid : g.Admits g.potential)
    (prepared : LinkPrepared g link) : Exhausted g links i link := by
  have explained := BackPropagation.ofLink_spec wf valid links (allFinished links) i prepared.inside.2
    prepared.apart
  unfold Exhausted
  cases outcome : BackPropagation.ofLink g links (allFinished links) i link with
  | interrupted next =>
    rw [outcome] at explained
    obtain ⟨_, other, d, waits⟩ := explained
    exact absurd waits BackPropagation.Query.not_waits_allFinished
  | failed reason =>
    rw [outcome] at explained
    cases reason with
    | notControllable =>
      rcases explained with ⟨d, reaches, close⟩ | ⟨next, other, d, waits, _⟩
      · exact absurd (settlement.upper_le unchained listed reaches) (not_le.mpr close)
      · exact absurd waits BackPropagation.Query.not_waits_allFinished
    | timeout => exact explained.elim
    | range e =>
      obtain ⟨v, d, overflow⟩ := explained
      exact absurd (settlement.bound_le unchained listed overflow.reaches overflow.least
        overflow.activation overflow.origin overflow.far).1 overflow.infinite
  | completed edges' =>
    rw [outcome] at explained
    obtain ⟨distances', completed⟩ := explained
    refine ⟨edges', rfl, fun v w mem => ?_⟩
    obtain ⟨stops, onward, finite, d, found, far, rfl⟩ := completed.listed v w mem
    have reaches := completed.reaches v d found
    have least : ∀ d', g.Reaches link v d' → d ≤ d' := by
      intro d' reaches'
      obtain ⟨d'', found', le⟩ := completed.exists_distance reaches'
      rw [found] at found'
      exact Option.some.inj found' ▸ le
    have inside : v < g.nodeCount := lt_of_reaches wf prepared.inside.2 reaches
    have bound := (settlement.bound_le unchained listed reaches least stops onward far).2
    rw [← Bool.not_eq_true, Network.tighten_changed_iff wf inside prepared.inside.1]
    exact not_lt.mpr bound

end Settlement

/-- After a consistent verdict of a check over the links, every link is exhausted if no link is started
where another one ends: checking a link once more would find no rejection and derive nothing. -/
theorem exhausted_of_consistent (g : PlainNetwork) (wf : g.WellFormed) (options : CheckerOptions)
    (byLinks : options.algorithm ≠ .morris2014) (stops : Polls) (c : StnuChecker)
    (status : CheckStatus)
    (checked : (StnuChecker.ofNetwork g options).check stops = (c, .ok status))
    (consistent : status.outcome = .consistent) (unchained : Unchained c.links) :
    ∀ (i : Nat) (link : StnuLink), c.links[i]? = some link → Exhausted c.network c.links i link := by
  obtain ⟨h, prepared, ran⟩ := StnuChecker.ran_of_check wf byLinks checked
  obtain ⟨first, statuses, finished, runnable, same, reachable, complete⟩ := ran.consistent consistent
  have progress := reachable.progress runnable
  have all := prepared.allClosed unchained runnable same reachable complete
  intro i link listed
  obtain ⟨inside, _⟩ := List.getElem?_eq_some_iff.mp listed
  obtain ⟨later, before, order⟩ := List.append_of_mem (complete i inside)
  obtain ⟨link', n, distances, edges, listed', settlement⟩ :=
    reachable.settled runnable i before ⟨later, order.symm⟩
  rw [listed] at listed'
  cases listed'
  exact settlement.exhausted unchained listed progress.wellFormed all.valid
    (all.prepared i link listed)

/-- The link may end two after X at the latest, so it is started before X. -/
def boundedNetwork : PlainNetwork :=
  (Network.build [.named "Z", .named "A", .named "C", .named "X"]
    [("AC", 1, 2, ⟨.contingent, 3, none⟩), ("CA", 2, 1, ⟨.contingent, -1, none⟩),
      ("XC", 3, 2, ⟨.ordinary, 2, none⟩)]).getD .empty

/-- The edge from X to A has been derived, and is not derived again. -/
theorem exhausted_of_consistent_bounded : ∃ c status,
    (StnuChecker.ofNetwork boundedNetwork ⟨none, false, true, .rul2020⟩).check .never =
        (c, .ok status) ∧ status.outcome = .consistent ∧ status.stnu.derivedEdges = 1 ∧
      c.links = [⟨1, 2, 1, 3⟩] ∧ Unchained c.links ∧ Exhausted c.network c.links 0 ⟨1, 2, 1, 3⟩ := by
  have answered : ((StnuChecker.ofNetwork boundedNetwork ⟨none, false, true, .rul2020⟩).check
      .never).2.toOption.map (fun s => (s.outcome, s.stnu.derivedEdges)) = some (.consistent, 1) := by
    decide +kernel
  have found : ((StnuChecker.ofNetwork boundedNetwork ⟨none, false, true, .rul2020⟩).check
      .never).1.links = [⟨1, 2, 1, 3⟩] := by decide +kernel
  cases checked : (StnuChecker.ofNetwork boundedNetwork ⟨none, false, true, .rul2020⟩).check
      .never with
  | mk c answer =>
    rw [checked] at answered found
    cases answer with
    | error e => cases answered
    | ok status =>
      obtain ⟨consistent, derived⟩ : status.outcome = .consistent ∧ status.stnu.derivedEdges = 1 := by
        simpa [Except.toOption] using answered
      dsimp only at found
      have unchained : Unchained c.links := by
        rw [found]
        unfold Unchained
        decide
      exact ⟨c, status, rfl, consistent, derived, found, unchained,
        exhausted_of_consistent boundedNetwork (Network.wellFormed_getD_build _ _) _ (by decide) _ c
          status checked consistent unchained 0 _ (by rw [found]; rfl)⟩

end TemporalNetwork
