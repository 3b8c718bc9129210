import TemporalNetwork.Proofs.Stnu.Relaxation
import TemporalNetwork.Proofs.Stnu.Search

/-!
A back-propagation finds the least distances by which its rules lead from the contingent node of a link,
if no other link is to be waited for. These depend on the edges only, so it does not matter along which
potential the nodes are settled.
-/

namespace TemporalNetwork

namespace Network

variable {g h : PlainNetwork} {link : StnuLink} {u v : NodeId} {d : Int}

/-- The least distance at which a node is reached from the contingent node of a link. -/
def Distance (g : PlainNetwork) (link : StnuLink) (v : NodeId) (d : Int) : Prop :=
  IsLeast {x | g.Reaches link v x} d

theorem SameEdges.stepWeight? (same : g.SameEdges h) (v u : NodeId) (d : Int) :
    h.stepWeight? v u d = g.stepWeight? v u d := by
  rw [Network.stepWeight?, ordinary?, same.bound, ← ordinary?, lowerWeight?, same.case?,
    ← lowerWeight?, Network.stepWeight?]

theorem SameEdges.reaches (same : g.SameEdges h) (reaches : h.Reaches link v d) :
    g.Reaches link v d := by
  induction reaches with
  | origin => exact .origin
  | step _ passes onward weight ih =>
    rw [same.stepWeight?] at weight
    exact ih.step passes onward weight

theorem SameEdges.reaches_iff (same : g.SameEdges h) :
    h.Reaches link v d ↔ g.Reaches link v d := ⟨same.reaches, same.symm.reaches⟩

theorem SameEdges.distance (same : g.SameEdges h) : h.Distance link = g.Distance link := by
  funext v d
  simp only [Distance, same.reaches_iff]

theorem Admits.exists_distance {p : NodeId → Int} (valid : g.Admits p)
    (reaches : g.Reaches link v d) : ∃ d', g.Distance link v d' ∧ d' ≤ d := by
  have below : BddBelow {x | g.Reaches link v x} := by
    refine ⟨p link.contingent - p v, fun x reaches => ?_⟩
    have := reaches.le_potential valid
    omega
  exact ⟨_, ⟨Int.csInf_mem ⟨d, reaches⟩ below, fun x mem => csInf_le below mem⟩,
    csInf_le below reaches⟩

end Network

namespace BackPropagation

variable {q : Query}

theorem Completed.distance_iff {distances : NodeId → Option Int} {edges : List (NodeId × Value)}
    (completed : Completed q distances edges) {v : NodeId} {d : Int} :
    distances v = some d ↔ q.network.Distance q.link v d := by
  have least : ∀ x, distances v = some x → q.network.Distance q.link v x := by
    intro x found
    refine ⟨completed.reaches v x found, fun y reaches => ?_⟩
    obtain ⟨x', found', le⟩ := completed.exists_distance reaches
    rw [found] at found'
    cases found'
    exact le
  refine ⟨least d, fun distance => ?_⟩
  obtain ⟨x, found, _⟩ := completed.exists_distance distance.1
  rw [found, (least x found).unique distance]

namespace Query

/-- The nodes that wait are nodes of the network that have not been settled. -/
structure Fresh (q : Query) (queue : MinQueue) (settled : Array Bool) : Prop where
  wellFormed : queue.WellFormed
  size : settled.size = q.network.nodeCount
  waiting : ∀ n k, queue.value? n = some k → n < q.network.nodeCount ∧ settled.getD n false = false

theorem Fresh.extend? {queue extended : MinQueue} {settled : Array Bool} {distance : Int}
    (fresh : q.Fresh queue settled) {entering : List (NodeId × EdgeId)}
    (inside : ∀ m e, (m, e) ∈ entering → m < q.network.nodeCount)
    (onward : q.extend? distance settled entering queue = some extended) :
    q.Fresh extended settled := by
  induction entering generalizing queue with
  | nil =>
    cases onward
    exact fresh
  | cons first rest ih =>
    obtain ⟨m, e⟩ := first
    have later := fun m e mem => inside m e (List.mem_cons_of_mem _ mem)
    rw [Query.extend?] at onward
    split at onward
    · exact ih fresh later onward
    · rename_i unmarked
      split at onward
      · exact ih fresh later onward
      · dsimp only at onward
        split at onward
        · split at onward
          · cases onward
          · exact ih fresh later onward
        · refine ih ⟨?_, fresh.size, fun n k present => ?_⟩ later onward
          · exact (MinQueue.insertOrDecrease_spec fresh.wellFormed _ _).1
          · rw [(MinQueue.insertOrDecrease_spec fresh.wellFormed _ _).2.1] at present
            split at present
            · rename_i same
              exact same ▸ ⟨inside m e List.mem_cons_self, by simpa using unmarked⟩
            · exact fresh.waiting n k present

theorem Fresh.pop {queue rest : MinQueue} {settled : Array Bool} {n : NodeId} {key : Int}
    (fresh : q.Fresh queue settled) (pop : queue.popMin = some ((n, key), rest)) :
    n < q.network.nodeCount ∧ settled.getD n false = false ∧
      q.Fresh rest (settled.setIfInBounds n true) ∧
      ∀ m, (settled.setIfInBounds n true).getD m false =
        if m = n then true else settled.getD m false := by
  obtain ⟨present, _, wellFormed, values⟩ := MinQueue.popMin_spec fresh.wellFormed pop
  obtain ⟨hn, unmarked⟩ := fresh.waiting n key present
  have marks := fun m => SearchFront.getD_setIfInBounds (by rw [fresh.size]; exact hn) m
  refine ⟨hn, unmarked, ⟨wellFormed, ?_, fun m k waits => ?_⟩, marks⟩
  · rw [Array.size_setIfInBounds, fresh.size]
  · rw [values] at waits
    split at waits
    · cases waits
    · rename_i other
      rw [marks, if_neg other]
      exact fresh.waiting m k waits

/-- No node is settled twice, so each gets one edge. -/
theorem nodup_of_settle (wf : q.network.WellFormed) (fuel : Nat) (queue : MinQueue)
    (settled : Array Bool) (edges result : List (NodeId × Value)) (fresh : q.Fresh queue settled)
    (marked : ∀ v w, (v, w) ∈ edges → settled.getD v false = true)
    (single : (edges.map Prod.fst).Nodup)
    (completes : q.settle fuel queue settled edges = .completed result) :
    (result.map Prod.fst).Nodup := by
  have reversed : ∀ edges : List (NodeId × Value), (edges.map Prod.fst).Nodup →
      (edges.reverse.map Prod.fst).Nodup := by
    intro edges single
    rw [List.map_reverse]
    exact List.nodup_reverse.mpr single
  induction fuel generalizing queue settled edges with
  | zero =>
    cases completes
    exact reversed edges single
  | succ fuel ih =>
    rw [settle] at completes
    cases pop : queue.popMin with
    | none =>
      rw [pop] at completes
      cases completes
      exact reversed edges single
    | some popped =>
      obtain ⟨⟨n, key⟩, rest⟩ := popped
      obtain ⟨hn, unmarked, popped, marks⟩ := fresh.pop pop
      -- Listed nodes are marked, and what comes out of the queue is not.
      have unlisted : n ∉ edges.map Prod.fst := by
        intro mem
        obtain ⟨⟨v, w⟩, listed, rfl⟩ := List.mem_map.mp mem
        have := marked v w listed
        rw [unmarked] at this
        cases this
      have marked' : ∀ v w, (v, w) ∈ edges → (settled.setIfInBounds n true).getD v false = true :=
        by
        intro v w mem
        rw [marks]
        split
        · rfl
        · exact marked v w mem
      have continues : ∀ extended, q.extend? (q.distance n key) (settled.setIfInBounds n true)
          (q.network.inEdges n) rest = some extended →
          q.settle fuel extended (settled.setIfInBounds n true) edges =
            BackPropagation.completed result → (result.map Prod.fst).Nodup := by
        intro extended onward completes
        refine ih _ _ edges (popped.extend? (fun m e mem => ?_) onward) marked' single completes
        exact (wf.lt_of_findEdge? ((wf.mem_inEdges hn).mp mem)).1
      rw [pop] at completes
      dsimp only at completes
      split at completes
      · split at completes
        · cases completes
        · exact ih _ _ edges popped marked' single completes
      · split at completes
        · split at completes
          · cases completes
          · rename_i extended onward
            exact continues extended onward completes
        · split at completes
          · split at completes
            · cases completes
            · refine ih _ _ _ popped (fun v w mem => ?_) ?_ completes
              · rcases List.mem_cons.mp mem with here | before
                · rw [marks, if_pos (congrArg Prod.fst here)]
                · exact marked' v w before
              · exact List.nodup_cons.mpr ⟨unlisted, single⟩
          · split at completes
            · split at completes
              · cases completes
              · rename_i extended onward
                exact continues extended onward completes
            · split at completes <;> cases completes

end Query

variable {g h : PlainNetwork} {links : List StnuLink} {statuses : Array LinkStatus} {index : Nat}
  {link : StnuLink}

theorem nodup_of_completed (wf : g.WellFormed) (inside : link.contingent < g.nodeCount)
    {edges : List (NodeId × Value)}
    (completes : ofLink g links statuses index link = .completed edges) :
    (edges.map Prod.fst).Nodup := by
  refine Query.nodup_of_settle wf _ _ _ _ _ ⟨?_, Array.size_replicate, fun n k waits => ?_⟩
    (fun v w mem => absurd mem List.not_mem_nil) List.nodup_nil completes
  · exact (MinQueue.insertOrDecrease_spec MinQueue.wellFormed_empty _ _).1
  · have front := SearchFront.start g.nodeCount link.contingent inside 0
    obtain ⟨hn, _⟩ := front.waiting n k waits
    refine ⟨hn, ?_⟩
    have : n < g.nodeCount := hn
    simp [Array.getD_eq_getD_getElem?, this]

/-- A link whose activation node is its contingent node, and which takes some time, contradicts itself
at once. -/
theorem ofLink_of_same (same : link.activation = link.contingent) (positive : 0 < link.upper)
    (inside : link.contingent < g.nodeCount) :
    ofLink g links statuses index link = .failed .notControllable := by
  have front := SearchFront.start g.nodeCount link.contingent inside 0
  rw [ofLink, Query.settle]
  cases pop : (MinQueue.empty.insertOrDecrease link.contingent 0).1.popMin with
  | none =>
    have := front.origin_of_empty pop (SearchFront.startsFrom link.contingent)
    cases this
  | some popped =>
    obtain ⟨⟨n, key⟩, rest⟩ := popped
    have value := (MinQueue.popMin_spec front.wellFormed pop).1
    rcases SearchFront.startsFrom link.contingent with settled | ⟨_, only⟩
    · cases settled
    · obtain ⟨rfl, rfl⟩ := (only n key).mp value
      dsimp only
      rw [if_pos same.symm, if_pos]
      rwa [Int.zero_sub, neg_add_cancel]

/-- What a back-propagation that waits for no other link tells by its outcome. -/
def Measures (g : PlainNetwork) (link : StnuLink) : BackPropagation → Prop
  | .completed edges => (∀ d, g.Distance link link.activation d → link.upper ≤ d) ∧
      (edges.map Prod.fst).Nodup ∧
      ∀ v w, (v, w) ∈ edges ↔ v ≠ link.activation ∧ v ≠ link.contingent ∧
        ∃ d, g.Distance link v d ∧ link.upper - link.lower ≤ d ∧ w = d - link.upper
  | .interrupted _ => False
  | .failed .notControllable => ∃ d, g.Distance link link.activation d ∧ d < link.upper
  | .failed .timeout => False
  | .failed (.range _) => ∃ v d, v ≠ link.activation ∧ v ≠ link.contingent ∧
      g.Distance link v d ∧ link.upper - link.lower ≤ d ∧ ¬ Value.IsFinite (d - link.upper)

theorem measures_of_explains (valid : q.network.Admits q.network.potential)
    (others : ∀ i, i < q.links.length → i ≠ q.index → q.statuses[i]? = some .finished)
    {outcome : BackPropagation} (explains : q.Explains outcome)
    (single : ∀ edges, outcome = .completed edges → (edges.map Prod.fst).Nodup) :
    Measures q.network q.link outcome := by
  have unimpeded : ∀ next other d, ¬ q.Waits next other d := by
    rintro next other d waits
    obtain ⟨inside, _⟩ := List.getElem?_eq_some_iff.mp waits.listed
    exact waits.unfinished (others next inside waits.apart)
  cases outcome with
  | completed edges =>
    obtain ⟨distances, completed⟩ := explains
    refine ⟨fun d distance => completed.activation d (completed.distance_iff.mpr distance),
      single edges rfl, fun v w => ⟨fun mem => ?_, ?_⟩⟩
    · obtain ⟨other, notOrigin, _, d, found, far, rfl⟩ := completed.listed v w mem
      exact ⟨other, notOrigin, d, completed.distance_iff.mp found, far, rfl⟩
    · rintro ⟨other, notOrigin, d, distance, far, rfl⟩
      exact completed.exits v d (completed.distance_iff.mpr distance) other notOrigin far
  | interrupted next =>
    obtain ⟨_, other, d, waits⟩ := explains
    exact unimpeded next other d waits
  | failed i =>
    cases i with
    | notControllable =>
      rcases explains with ⟨d, reaches, close⟩ | ⟨next, other, d, waits, _⟩
      · obtain ⟨d', distance, le⟩ := valid.exists_distance reaches
        exact ⟨d', distance, lt_of_le_of_lt le close⟩
      · exact absurd waits (unimpeded next other d)
    | timeout => exact explains
    | range e =>
      obtain ⟨v, d, overflows⟩ := explains
      exact ⟨v, d, overflows.activation, overflows.origin,
        ⟨overflows.reaches, fun x reaches => overflows.least x reaches⟩, overflows.far,
        overflows.infinite⟩

theorem measures_ofLink (wf : g.WellFormed) (valid : g.Admits g.potential)
    (inside : link.contingent < g.nodeCount)
    (proper : link.activation = link.contingent → 0 < link.upper)
    (others : ∀ i, i < links.length → i ≠ index → statuses[i]? = some .finished) :
    Measures g link (ofLink g links statuses index link) := by
  by_cases apart : link.activation = link.contingent
  · rw [ofLink_of_same apart (proper apart) inside]
    have start : g.Reaches link link.contingent 0 := .origin
    obtain ⟨d, distance, le⟩ := valid.exists_distance start
    rw [← apart] at distance
    exact ⟨d, distance, lt_of_le_of_lt le (proper apart)⟩
  · exact measures_of_explains (q := ⟨g, links, statuses, index, link⟩) valid others
      (ofLink_spec wf valid links statuses index inside apart)
      fun edges completes => nodup_of_completed wf inside completes

/-- Where all other links are finished, a back-propagation is exact whatever valid potential the nodes
hold: unless the weight of some edge it has to add is out of range, it fails if the activation node is
closer to the contingent node than the link may last; else it lists one edge for each node that is
reached and at least as far as the uncertainty of the link. -/
theorem ofLink_exact (wf : g.WellFormed) (same : g.SameEdges h) (valid : h.Admits h.potential)
    (inside : link.contingent < g.nodeCount)
    (proper : link.activation = link.contingent → 0 < link.upper)
    (others : ∀ i, i < links.length → i ≠ index → statuses[i]? = some .finished) :
    (∀ v d, g.Reaches link v d → ∃ d', g.Distance link v d') ∧
    (∀ e, ofLink h links statuses index link = .failed (.range e) →
      ∃ v d, v ≠ link.activation ∧ v ≠ link.contingent ∧ g.Distance link v d ∧
        link.upper - link.lower ≤ d ∧ ¬ Value.IsFinite (d - link.upper)) ∧
    ((∀ e, ofLink h links statuses index link ≠ .failed (.range e)) →
      (ofLink h links statuses index link = .failed .notControllable ↔
        ∃ d, g.Distance link link.activation d ∧ d < link.upper) ∧
      ((∀ d, g.Distance link link.activation d → link.upper ≤ d) →
        ∃ edges, ofLink h links statuses index link = .completed edges ∧
          (edges.map Prod.fst).Nodup ∧
          ∀ v w, (v, w) ∈ edges ↔ v ≠ link.activation ∧ v ≠ link.contingent ∧
            ∃ d, g.Distance link v d ∧ link.upper - link.lower ≤ d ∧ w = d - link.upper)) := by
  refine ⟨fun v d reaches => ?_, ?_⟩
  · obtain ⟨d', distance, _⟩ := valid.exists_distance (same.symm.reaches reaches)
    exact ⟨d', same.distance ▸ distance⟩
  have measures : Measures g link (ofLink h links statuses index link) := by
    have measures := measures_ofLink (same.wellFormed wf) valid (same.nodeCount.symm ▸ inside) proper
      others
    unfold Measures at measures ⊢
    rwa [same.distance] at measures
  generalize ofLink h links statuses index link = outcome at measures ⊢
  cases outcome with
  | completed edges =>
    obtain ⟨far, single, listed⟩ := measures
    refine ⟨nofun, fun _ => ⟨⟨nofun, fun ⟨d, distance, close⟩ => ?_⟩,
      fun _ => ⟨edges, rfl, single, listed⟩⟩⟩
    exact absurd close (not_lt.mpr (far d distance))
  | interrupted next => exact measures.elim
  | failed i =>
    cases i with
    | notControllable =>
      obtain ⟨d, distance, close⟩ := measures
      refine ⟨nofun, fun _ => ⟨⟨fun _ => ⟨d, distance, close⟩, fun _ => rfl⟩, fun far => ?_⟩⟩
      exact absurd close (not_lt.mpr (far d distance))
    | timeout => exact measures.elim
    | range e => exact ⟨fun _ _ => measures, fun finite => absurd rfl (finite e)⟩

/-- Two links: the one from A ends at least one before X, where the one from Y ends; V precedes Y. -/
def relayedNetwork : PlainNetwork :=
  (Network.build [.named "Z", .named "A", .named "C", .named "X", .named "Y", .named "V"]
    [("AC", 1, 2, ⟨.contingent, 3, some ⟨.lower, 2, 1⟩⟩),
      ("CA", 2, 1, ⟨.contingent, -1, some ⟨.upper, 2, -3⟩⟩), ("XC", 3, 2, ⟨.ordinary, -1, none⟩),
      ("YX", 4, 3, ⟨.contingent, 4, some ⟨.lower, 3, 1⟩⟩),
      ("XY", 3, 4, ⟨.contingent, -1, some ⟨.upper, 3, -4⟩⟩),
      ("VY", 5, 4, ⟨.ordinary, 2, none⟩)]).getD .empty

/-- The lower-case value is used between X and Y, since X is at the distance −1, so V is as far from C as
the uncertainty of the link. -/
theorem ofLink_exact_relayed :
    ofLink (relayedNetwork.setPotentials #[0, -3, -2, -1, -2, 0]) [⟨1, 2, 1, 3⟩, ⟨4, 3, 1, 4⟩]
        #[.started, .finished] 0 ⟨1, 2, 1, 3⟩ = .completed [(5, -1)] ∧
      relayedNetwork.Distance ⟨1, 2, 1, 3⟩ 5 2 := by
  have wf : relayedNetwork.WellFormed := Network.wellFormed_getD_build _ _
  have same := Network.sameEdges_setPotentials relayedNetwork #[0, -3, -2, -1, -2, 0]
  have valid : (relayedNetwork.setPotentials #[0, -3, -2, -1, -2, 0]).Admits
      (relayedNetwork.setPotentials #[0, -3, -2, -1, -2, 0]).potential := by
    have all : ∀ edge ∈ (relayedNetwork.setPotentials #[0, -3, -2, -1, -2, 0]).weightedEdges,
        (relayedNetwork.setPotentials #[0, -3, -2, -1, -2, 0]).potential edge.2.1 ≤
          (relayedNetwork.setPotentials #[0, -3, -2, -1, -2, 0]).potential edge.1 + edge.2.2 := by
      decide +kernel
    exact (Potential.fits_weightedEdges_iff (same.wellFormed wf)).mp fun u v w mem => all _ mem
  have completes : ofLink (relayedNetwork.setPotentials #[0, -3, -2, -1, -2, 0])
      [⟨1, 2, 1, 3⟩, ⟨4, 3, 1, 4⟩] #[.started, .finished] 0 ⟨1, 2, 1, 3⟩ =
        .completed [(5, -1)] := by decide +kernel
  have others : ∀ i, i < [(⟨1, 2, 1, 3⟩ : StnuLink), ⟨4, 3, 1, 4⟩].length → i ≠ 0 →
      (#[.started, .finished] : Array LinkStatus)[i]? = some .finished := by decide
  have inside : (⟨1, 2, 1, 3⟩ : StnuLink).contingent < relayedNetwork.nodeCount := by decide +kernel
  obtain ⟨-, -, outcome⟩ := ofLink_exact wf same valid inside (by decide) others
  rw [completes] at outcome
  obtain ⟨fails, lists⟩ := outcome nofun
  obtain ⟨edges, listed, -, mem_iff⟩ := lists fun d distance => by
    by_contra close
    cases fails.mpr ⟨d, distance, not_le.mp close⟩
  cases listed
  obtain ⟨-, -, d, distance, -, value⟩ := (mem_iff 5 (-1)).mp List.mem_cons_self
  refine ⟨completes, ?_⟩
  rwa [show d = 2 by change (-1 : Int) = d - 3 at value; omega] at distance

end BackPropagation

end TemporalNetwork
