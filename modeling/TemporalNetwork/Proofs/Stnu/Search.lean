import TemporalNetwork.Proofs.Queue.SearchFront
import TemporalNetwork.Proofs.Stnu.Weights

/-!
What a back-propagation that runs to its end has found: the least distances to the contingent node
over paths that lower-case values extend only while they are negative, and that end at the activation
node and where the distance is at least the uncertainty of the link.
-/

namespace TemporalNetwork

/-- Whether a path continues beyond a node at a distance. -/
def StnuLink.Passes (link : StnuLink) (n : NodeId) (distance : Int) : Prop :=
  n = link.contingent ∨ n ≠ link.activation ∧ distance < link.upper - link.lower

theorem StnuLink.Passes.of_le {link : StnuLink} {u : NodeId} {d d' : Int} (passes : link.Passes u d)
    (le : d' ≤ d) : link.Passes u d' :=
  passes.imp_right fun ⟨other, near⟩ => ⟨other, lt_of_le_of_lt le near⟩

namespace Network

variable {g : PlainNetwork}

/-- The weight with which the edge from `v` to `u` extends a path of length `distance` from `u`. -/
def stepWeight? (g : PlainNetwork) (v u : NodeId) (distance : Int) : Option Value :=
  PlainEdge.lesser (g.ordinary? v u) (if distance < 0 then g.lowerWeight? v u else none)

/-- The distances at which nodes are reached from the contingent node of a link. -/
inductive Reaches (g : PlainNetwork) (link : StnuLink) : NodeId → Int → Prop
  | origin : Reaches g link link.contingent 0
  | step {u v : NodeId} {d : Int} {w : Value} (before : Reaches g link u d)
      (passes : link.Passes u d) (onward : v ≠ link.contingent)
      (weight : g.stepWeight? v u d = some w) : Reaches g link v (d + w)

theorem bind_stepWeight? (g : PlainNetwork) (v u : NodeId) (distance : Int) :
    ((g.edgeBetween? v u).bind fun edge =>
      BackPropagation.Query.stepWeight? edge distance) = g.stepWeight? v u distance := by
  rw [stepWeight?, ← bind_value?, ← bind_lower?]
  cases g.edgeBetween? v u with
  | none =>
    simp only [Option.bind_none, ite_self]
    rfl
  | some edge => rfl

theorem stepWeight?_cases {v u : NodeId} {distance : Int} {w : Value}
    (h : g.stepWeight? v u distance = some w) :
    g.ordinary? v u = some w ∨ distance < 0 ∧ g.lowerWeight? v u = some w := by
  rcases PlainEdge.lesser_cases h with ordinary | lower
  · exact Or.inl ordinary
  · split at lower
    · rename_i negative
      exact Or.inr ⟨negative, lower⟩
    · cases lower

theorem stepWeight?_le_of_ordinary {v u : NodeId} {x : Value} (h : g.ordinary? v u = some x)
    (distance : Int) : ∃ w, g.stepWeight? v u distance = some w ∧ w ≤ x :=
  PlainEdge.lesser_le_left h

theorem stepWeight?_le_of_lower {v u : NodeId} {x : Value} (h : g.lowerWeight? v u = some x)
    {distance : Int} (negative : distance < 0) :
    ∃ w, g.stepWeight? v u distance = some w ∧ w ≤ x :=
  PlainEdge.lesser_le_right (by rw [if_pos negative, h])

theorem stepWeight?_le_of_le {v u : NodeId} {d d' : Int} {w : Value} (le : d' ≤ d)
    (weight : g.stepWeight? v u d = some w) : ∃ w', g.stepWeight? v u d' = some w' ∧ w' ≤ w := by
  rcases stepWeight?_cases weight with ordinary | ⟨negative, lower⟩
  · exact stepWeight?_le_of_ordinary ordinary d'
  · exact stepWeight?_le_of_lower lower (lt_of_le_of_lt le negative)

theorem Admits.le_of_stepWeight {p : NodeId → Int} (valid : g.Admits p) {v u : NodeId}
    {distance : Int} {w : Value} (h : g.stepWeight? v u distance = some w) : p u ≤ p v + w := by
  rcases stepWeight?_cases h with ordinary | ⟨_, lower⟩
  · exact valid.le_of_ordinary ordinary
  · exact valid.le_of_lowerWeight lower

theorem lt_of_stepWeight? (wf : g.WellFormed) {v u : NodeId} {distance : Int} {w : Value}
    (h : g.stepWeight? v u distance = some w) : v < g.nodeCount ∧ u < g.nodeCount := by
  rw [← bind_stepWeight?] at h
  obtain ⟨payload, joined, _⟩ := Option.bind_eq_some_iff.mp h
  exact wf.lt_of_edgeBetween? joined

theorem Reaches.le_potential {link : StnuLink} {p : NodeId → Int} (valid : g.Admits p)
    {v : NodeId} {d : Int} (reaches : g.Reaches link v d) : p link.contingent ≤ p v + d := by
  induction reaches with
  | origin => omega
  | step _ _ _ weight ih =>
    have := valid.le_of_stepWeight weight
    linarith

end Network

namespace BackPropagation

/-- The least distances found by a completed back-propagation, and the edges they lead to. -/
structure Completed (q : Query) (distances : NodeId → Option Int) (edges : List (NodeId × Value)) :
    Prop where
  origin : distances q.link.contingent = some 0
  reaches : ∀ v d, distances v = some d → q.network.Reaches q.link v d
  closed : ∀ u v d w, distances u = some d → q.link.Passes u d → v ≠ q.link.contingent →
    q.network.stepWeight? v u d = some w → ∃ d', d' ≤ d + w ∧ distances v = some d'
  activation : ∀ d, distances q.link.activation = some d → q.link.upper ≤ d
  exits : ∀ v d, distances v = some d → v ≠ q.link.activation → v ≠ q.link.contingent →
    q.link.upper - q.link.lower ≤ d → (v, d - q.link.upper) ∈ edges
  listed : ∀ v w, (v, w) ∈ edges → v ≠ q.link.activation ∧ v ≠ q.link.contingent ∧
    Value.IsFinite w ∧ ∃ d, distances v = some d ∧ q.link.upper - q.link.lower ≤ d ∧
      w = d - q.link.upper
  free : ∀ v d, distances v = some d → v ≠ q.link.activation → v ≠ q.link.contingent →
    d < q.link.upper - q.link.lower → q.unfinishedLinkAt? v = none

/-- No path is shorter than the distance found. -/
theorem Completed.exists_distance {q : Query} {distances : NodeId → Option Int}
    {edges : List (NodeId × Value)} (completed : Completed q distances edges) {v : NodeId} {d : Int}
    (reaches : q.network.Reaches q.link v d) : ∃ d', distances v = some d' ∧ d' ≤ d := by
  induction reaches with
  | origin => exact ⟨0, completed.origin, le_rfl⟩
  | @step u v d w _ passes onward weight ih =>
    obtain ⟨d', found, le⟩ := ih
    obtain ⟨w', weight', le'⟩ := Network.stepWeight?_le_of_le le weight
    obtain ⟨d'', le'', found'⟩ := completed.closed u v d' w' found (passes.of_le le) onward weight'
    exact ⟨d'', found', by linarith⟩

namespace Query

variable {q : Query}

/-- The distance of a node from its key, the reduced distance. -/
def distance (q : Query) (n : NodeId) (key : Int) : Int :=
  key - q.network.potential n + q.network.potential q.link.contingent

theorem distance_origin (q : Query) : q.distance q.link.contingent 0 = 0 := by
  unfold distance
  omega

def key (q : Query) (n : NodeId) (distance : Int) : Int :=
  distance + q.network.potential n - q.network.potential q.link.contingent

/-- The node that is offered for an entering edge of a node passed at a distance. -/
def previousKey? (q : Query) (distance : Int) (settled : Array Bool) (entering : NodeId × EdgeId) :
    Option (Nat × Int) :=
  if settled.getD entering.1 false then none
  else ((q.network.edge? entering.2).bind fun edge => stepWeight? edge distance).map fun w =>
    (entering.1, q.key entering.1 (distance + w))

/-- Once the contingent node is settled no cycle is closed there. -/
theorem extend?_eq (distance : Int) {settled : Array Bool}
    (origin : settled.getD q.link.contingent false = true) (entering : List (NodeId × EdgeId))
    (queue : MinQueue) :
    q.extend? distance settled entering queue =
      some (queue.offer (entering.filterMap (q.previousKey? distance settled))) := by
  induction entering generalizing queue with
  | nil => rfl
  | cons first rest ih =>
    obtain ⟨m, e⟩ := first
    rw [extend?, List.filterMap_cons, previousKey?]
    dsimp only
    cases mark : settled.getD m false with
    | true => simpa using ih queue
    | false =>
      have other : m ≠ q.link.contingent := by
        intro same
        rw [same, origin] at mark
        cases mark
      cases (q.network.edge? e).bind fun edge => stepWeight? edge distance with
      | none => simpa using ih queue
      | some w =>
        simp only [Bool.false_eq_true, if_false, other, Option.map_some]
        exact ih _

theorem mem_previousKey? (wf : q.network.WellFormed) {n : NodeId} (hn : n < q.network.nodeCount)
    {distance : Int} {settled : Array Bool} {m : NodeId} {k : Int} :
    (m, k) ∈ (q.network.inEdges n).filterMap (q.previousKey? distance settled) ↔
      settled.getD m false = false ∧ ∃ w, q.network.stepWeight? m n distance = some w ∧
        k = q.key m (distance + w) := by
  simp only [previousKey?, List.mem_filterMap, Prod.exists, wf.mem_inEdges hn]
  constructor
  · rintro ⟨source, e, found, offered⟩
    split at offered
    · cases offered
    · rename_i unmarked
      obtain ⟨w, weight, same⟩ := Option.map_eq_some_iff.mp offered
      cases same
      refine ⟨by simpa using unmarked, w, ?_, rfl⟩
      rw [← Network.bind_stepWeight?, Network.edgeBetween?, found]
      exact weight
  · rintro ⟨unmarked, w, weight, rfl⟩
    rw [← Network.bind_stepWeight?] at weight
    obtain ⟨payload, joined, weighs⟩ := Option.bind_eq_some_iff.mp weight
    obtain ⟨e, found, stored⟩ := Option.bind_eq_some_iff.mp joined
    refine ⟨m, e, found, ?_⟩
    rw [unmarked, stored, Option.bind_some, weighs, Option.map_some, if_neg (by simp)]

/-- What is known of the keys while nodes are settled. -/
structure Explored (q : Query) (keys : NodeId → Option Int) (queue : MinQueue) : Prop where
  starts : StartsFrom keys queue q.link.contingent
  sound : ∀ v k, keys v = some k ∨ queue.value? v = some k →
    q.network.Reaches q.link v (q.distance v k)
  closed : ∀ u v k w, keys u = some k → q.link.Passes u (q.distance u k) →
    v ≠ q.link.contingent → q.network.stepWeight? v u (q.distance u k) = some w →
    Covers keys queue v (q.key v (q.distance u k + w))

/-- A path leads to a node that has been settled at no greater distance, or past one that waits. -/
theorem Explored.settled_or_waits (valid : q.network.Admits q.network.potential)
    {keys : NodeId → Option Int} {queue : MinQueue} (known : q.Explored keys queue) {v : NodeId}
    {d : Int} (reaches : q.network.Reaches q.link v d) :
    (∃ k, keys v = some k ∧ q.distance v k ≤ d) ∨
      ∃ x k, queue.value? x = some k ∧ k ≤ q.key v d := by
  induction reaches with
  | origin =>
    rcases known.starts with settled | ⟨_, only⟩
    · exact Or.inl ⟨0, settled, q.distance_origin.le⟩
    · refine Or.inr ⟨_, 0, (only _ 0).mpr ⟨rfl, rfl⟩, ?_⟩
      unfold Query.key
      omega
  | @step u v d w _ passes onward weight ih =>
    rcases ih with ⟨k, settled, le⟩ | ⟨x, k, waits, le⟩
    · obtain ⟨w', weight', le'⟩ := Network.stepWeight?_le_of_le le weight
      obtain ⟨k', below, covered⟩ :=
        known.closed u v k w' settled (passes.of_le le) onward weight'
      rcases covered with settled' | waits
      · refine Or.inl ⟨k', settled', ?_⟩
        unfold Query.key at below
        rw [distance]
        linarith
      · refine Or.inr ⟨v, k', waits, below.trans ?_⟩
        unfold Query.key
        linarith
    · have := valid.le_of_stepWeight weight
      refine Or.inr ⟨x, k, waits, le.trans ?_⟩
      unfold Query.key
      linarith

/-- The node that comes out of the queue is not reached by a shorter path. -/
theorem Explored.distance_le (valid : q.network.Admits q.network.potential)
    {keys : NodeId → Option Int} {queue rest : MinQueue} {settled : Array Bool} {least key : Int}
    {n : NodeId} (known : q.Explored keys queue)
    (front : SearchFront q.network.nodeCount keys queue settled least)
    (pop : queue.popMin = some ((n, key), rest)) {d : Int}
    (reaches : q.network.Reaches q.link n d) : q.distance n key ≤ d := by
  obtain ⟨_, fresh, _⟩ := front.popped pop
  obtain ⟨_, minimal, _⟩ := MinQueue.popMin_spec front.wellFormed pop
  rcases known.settled_or_waits valid reaches with ⟨k, settled, _⟩ | ⟨x, k, waits, le⟩
  · rw [fresh] at settled
    cases settled
  · have := (minimal x k waits).trans le
    unfold Query.key at this
    rw [distance]
    linarith

/-- What is known of a settled node. -/
structure Judged (q : Query) (edges : List (NodeId × Value)) (v : NodeId) (d : Int) : Prop where
  activation : v = q.link.activation → q.link.upper ≤ d
  exit : v ≠ q.link.activation → v ≠ q.link.contingent → q.link.upper - q.link.lower ≤ d →
    (v, d - q.link.upper) ∈ edges
  free : v ≠ q.link.activation → v ≠ q.link.contingent → d < q.link.upper - q.link.lower →
    q.unfinishedLinkAt? v = none

/-- What is known of an edge to be added. -/
def Listed (q : Query) (keys : NodeId → Option Int) (v : NodeId) (w : Value) : Prop :=
  v ≠ q.link.activation ∧ v ≠ q.link.contingent ∧ Value.IsFinite w ∧
    ∃ k, keys v = some k ∧ q.link.upper - q.link.lower ≤ q.distance v k ∧
      w = q.distance v k - q.link.upper

theorem Explored.advance (wf : q.network.WellFormed)
    (valid : q.network.Admits q.network.potential) {keys : NodeId → Option Int}
    {queue rest : MinQueue} {settled : Array Bool} {least key : Int} {n : NodeId}
    (known : q.Explored keys queue)
    (front : SearchFront q.network.nodeCount keys queue settled least)
    (pop : queue.popMin = some ((n, key), rest)) (candidates : List (Nat × Int))
    (offers : ∀ m k, (m, k) ∈ candidates ↔ q.link.Passes n (q.distance n key) ∧
      (settled.setIfInBounds n true).getD m false = false ∧
      ∃ w, q.network.stepWeight? m n (q.distance n key) = some w ∧
        k = q.key m (q.distance n key + w)) :
    SearchFront q.network.nodeCount (settleKey keys n key) (rest.offer candidates)
      (settled.setIfInBounds n true) key ∧
    q.Explored (settleKey keys n key) (rest.offer candidates) := by
  obtain ⟨hn, fresh, le⟩ := front.popped pop
  obtain ⟨value, _, restWf, values⟩ := MinQueue.popMin_spec front.wellFormed pop
  have reached := known.sound n key (Or.inr value)
  -- The potential makes the reduced lengths nonnegative, so no offer is below the key just settled.
  have above : ∀ m w, q.network.stepWeight? m n (q.distance n key) = some w →
      key ≤ q.key m (q.distance n key + w) := by
    intro m w weight
    have := valid.le_of_stepWeight weight
    unfold Query.key distance
    linarith
  have advanced := front.advance pop candidates (by
    intro m k mem
    obtain ⟨_, unmarked, w, weight, rfl⟩ := (offers m k).mp mem
    exact ⟨(Network.lt_of_stepWeight? wf weight).1, unmarked, above m w weight⟩)
  have first := front.origin_settled pop known.starts
  refine ⟨advanced, Or.inl first, ?_, ?_⟩
  · intro v k present
    rcases front.known_or_offered pop candidates present with before | offered
    · exact known.sound v k before
    · obtain ⟨passes, unmarked, w, weight, rfl⟩ := (offers v k).mp offered
      have onward : v ≠ q.link.contingent := by
        rintro rfl
        have marked := (advanced.marked _ (Network.lt_of_stepWeight? wf weight).1).mpr
          (by rw [first]; rfl)
        rw [unmarked] at marked
        cases marked
      have same : q.distance v (q.key v (q.distance n key + w)) = q.distance n key + w := by
        unfold Query.key Query.distance
        linarith
      rw [same]
      exact reached.step passes onward weight
  · intro u v k w settled passes onward weight
    rcases SearchFront.settleKey_cases settled with ⟨rfl, rfl⟩ | before
    · exact front.covers_next pop _ (Network.lt_of_stepWeight? wf weight).1 (above v w weight)
        fun unmarked => (offers v _).mpr ⟨passes, unmarked, w, weight, rfl⟩
    · exact front.covers_advance pop _ (known.closed u v k w before passes onward weight)

theorem Judged.mono {edges edges' : List (NodeId × Value)} {v : NodeId} {d : Int}
    (judged : q.Judged edges v d) (more : edges ⊆ edges') : q.Judged edges' v d :=
  ⟨judged.activation, fun other notOrigin far => more (judged.exit other notOrigin far),
    judged.free⟩

theorem Listed.settleKey {keys : NodeId → Option Int} {n : NodeId} (fresh : keys n = none)
    (key : Int) {v : NodeId} {w : Value} (listed : q.Listed keys v w) :
    q.Listed (settleKey keys n key) v w := by
  obtain ⟨other, notOrigin, finite, k, settled, rest⟩ := listed
  refine ⟨other, notOrigin, finite, k, ?_, rest⟩
  rw [TemporalNetwork.settleKey, if_neg]
  · exact settled
  · intro same
    rw [same, fresh] at settled
    cases settled

/-- Another link is not finished although its activation node is reached within the uncertainty of
the link, which cannot be passed before. -/
structure Waits (q : Query) (next : Nat) (other : StnuLink) (d : Int) : Prop where
  listed : q.links[next]? = some other
  apart : next ≠ q.index
  unfinished : q.statuses[next]? ≠ some .finished
  reaches : q.network.Reaches q.link other.activation d
  near : d < q.link.upper - q.link.lower

/-- The least distance of a node leads to an edge that is not finite. -/
structure Overflows (q : Query) (n : NodeId) (d : Int) : Prop where
  activation : n ≠ q.link.activation
  origin : n ≠ q.link.contingent
  far : q.link.upper - q.link.lower ≤ d
  reaches : q.network.Reaches q.link n d
  least : ∀ d', q.network.Reaches q.link n d' → d ≤ d'
  infinite : ¬ Value.IsFinite (d - q.link.upper)

/-- What a back-propagation tells by its outcome. -/
def Explains (q : Query) : BackPropagation → Prop
  | .completed edges => ∃ distances, Completed q distances edges
  | .interrupted next => q.statuses[next]? ≠ some .started ∧ ∃ other d, q.Waits next other d
  | .failed .notControllable =>
    (∃ d, q.network.Reaches q.link q.link.activation d ∧ d < q.link.upper) ∨
      ∃ next other d, q.Waits next other d ∧ q.statuses[next]? = some .started
  | .failed .timeout => False
  | .failed (.range _) => ∃ n d, q.Overflows n d

theorem unfinishedLinkAt?_some {n : NodeId} {next : Nat} (h : q.unfinishedLinkAt? n = some next) :
    ∃ other, q.links[next]? = some other ∧ other.activation = n ∧ next ≠ q.index ∧
      q.statuses[next]? ≠ some .finished := by
  have holds := List.find?_some h
  simp only [Bool.and_eq_true, bne_iff_ne, ne_eq] at holds
  obtain ⟨⟨apart, activated⟩, unfinished⟩ := holds
  obtain ⟨other, listed, same⟩ := (Option.any_eq_true _ _).mp activated
  exact ⟨other, listed, beq_iff_eq.mp same, apart, unfinished⟩

theorem unfinishedLinkAt?_none {n : NodeId} (h : q.unfinishedLinkAt? n = none) {i : Nat}
    {other : StnuLink} (listed : q.links[i]? = some other) (apart : i ≠ q.index)
    (activated : other.activation = n) : q.statuses[i]? = some .finished := by
  have inside : i < q.links.length := by
    obtain ⟨inside, _⟩ := List.getElem?_eq_some_iff.mp listed
    exact inside
  have none := List.find?_eq_none.mp h i (List.mem_range.mpr inside)
  simp only [listed, Option.any_some, activated, beq_self_eq_true, Bool.and_true, Bool.and_eq_true,
    bne_iff_ne, ne_eq, not_and, Decidable.not_not] at none
  exact none apart

theorem weight?_ok {distance : Int} {w : Value} (h : weight? distance = .ok w) :
    w = distance ∧ Value.IsFinite w := by
  unfold weight? at h
  split at h
  · rename_i finite
    cases h
    exact ⟨rfl, finite⟩
  · cases h

theorem weight?_error {distance : Int} {e : RangeError} (h : weight? distance = .error e) :
    ¬ Value.IsFinite distance := by
  unfold weight? at h
  split at h
  · cases h
  · assumption

/-- What is known of a search between two turns. -/
structure Searched (q : Query) (keys : NodeId → Option Int) (queue : MinQueue) (settled : Array Bool)
    (least : Int) (edges : List (NodeId × Value)) : Prop where
  known : q.Explored keys queue
  front : SearchFront q.network.nodeCount keys queue settled least
  judged : ∀ v k, keys v = some k → q.Judged edges v (q.distance v k)
  listed : ∀ v w, (v, w) ∈ edges → q.Listed keys v w

section Turn

variable {keys : NodeId → Option Int} {queue rest : MinQueue} {settled : Array Bool}
  {least key : Int} {edges edges' : List (NodeId × Value)} {n : NodeId}

theorem Searched.completed (searched : q.Searched keys queue settled least edges)
    (pop : queue.popMin = none) :
    Completed q (fun v => (keys v).map (q.distance v)) edges.reverse := by
  obtain ⟨known, front, judged, listed⟩ := searched
  have origin := front.origin_of_empty pop known.starts
  constructor
  · rw [origin, Option.map_some, distance_origin]
  · intro v d found
    obtain ⟨k, settled, rfl⟩ := Option.map_eq_some_iff.mp found
    exact known.sound v k (Or.inl settled)
  · intro u v d w found passes onward weight
    obtain ⟨k, settled, rfl⟩ := Option.map_eq_some_iff.mp found
    obtain ⟨k', le, settled'⟩ := front.settled_of_covers pop
      (known.closed u v k w settled passes onward weight)
    refine ⟨q.distance v k', ?_, by rw [settled', Option.map_some]⟩
    unfold Query.key at le
    rw [distance]
    linarith
  · intro d found
    obtain ⟨k, settled, rfl⟩ := Option.map_eq_some_iff.mp found
    exact (judged _ k settled).activation rfl
  · intro v d found other notOrigin far
    obtain ⟨k, settled, rfl⟩ := Option.map_eq_some_iff.mp found
    exact List.mem_reverse.mpr ((judged v k settled).exit other notOrigin far)
  · intro v w mem
    obtain ⟨other, notOrigin, finite, k, settled, far, same⟩ := listed v w (List.mem_reverse.mp mem)
    exact ⟨other, notOrigin, finite, q.distance v k, by rw [settled, Option.map_some], far, same⟩
  · intro v d found other notOrigin near
    obtain ⟨k, settled, rfl⟩ := Option.map_eq_some_iff.mp found
    exact (judged v k settled).free other notOrigin near

theorem Searched.reaches (searched : q.Searched keys queue settled least edges)
    (pop : queue.popMin = some ((n, key), rest)) :
    q.network.Reaches q.link n (q.distance n key) :=
  searched.known.sound n key
    (Or.inr (MinQueue.popMin_spec searched.front.wellFormed pop).1)

theorem Searched.advance (wf : q.network.WellFormed)
    (valid : q.network.Admits q.network.potential)
    (searched : q.Searched keys queue settled least edges)
    (pop : queue.popMin = some ((n, key), rest)) (candidates : List (Nat × Int))
    (offers : ∀ m k, (m, k) ∈ candidates ↔ q.link.Passes n (q.distance n key) ∧
      (settled.setIfInBounds n true).getD m false = false ∧
      ∃ w, q.network.stepWeight? m n (q.distance n key) = some w ∧
        k = q.key m (q.distance n key + w))
    (more : edges ⊆ edges') (judged : q.Judged edges' n (q.distance n key))
    (listed : ∀ v w, (v, w) ∈ edges' → (v, w) ∈ edges ∨ q.Listed (settleKey keys n key) v w) :
    q.Searched (settleKey keys n key) (rest.offer candidates) (settled.setIfInBounds n true) key
      edges' := by
  obtain ⟨_, fresh, _⟩ := searched.front.popped pop
  obtain ⟨front, known⟩ := searched.known.advance wf valid searched.front pop candidates offers
  refine ⟨known, front, ?_, ?_⟩
  · intro v k found
    rcases SearchFront.settleKey_cases found with ⟨rfl, rfl⟩ | before
    · exact judged
    · exact (searched.judged v k before).mono more
  · intro v w mem
    rcases listed v w mem with before | new
    · exact (searched.listed v w before).settleKey fresh key
    · exact new

theorem Searched.stop (wf : q.network.WellFormed) (valid : q.network.Admits q.network.potential)
    (searched : q.Searched keys queue settled least edges)
    (pop : queue.popMin = some ((n, key), rest)) (stops : ¬ q.link.Passes n (q.distance n key))
    (more : edges ⊆ edges') (judged : q.Judged edges' n (q.distance n key))
    (listed : ∀ v w, (v, w) ∈ edges' → (v, w) ∈ edges ∨ q.Listed (settleKey keys n key) v w) :
    q.Searched (settleKey keys n key) rest (settled.setIfInBounds n true) key edges' :=
  searched.advance wf valid pop [] (fun m k => by simp [stops]) more judged listed

theorem Searched.pass (wf : q.network.WellFormed) (valid : q.network.Admits q.network.potential)
    (searched : q.Searched keys queue settled least edges)
    (pop : queue.popMin = some ((n, key), rest)) (passes : q.link.Passes n (q.distance n key))
    (judged : q.Judged edges n (q.distance n key)) :
    ∃ onward, q.extend? (q.distance n key) (settled.setIfInBounds n true) (q.network.inEdges n) rest =
      some onward ∧
    q.Searched (settleKey keys n key) onward (settled.setIfInBounds n true) key edges := by
  obtain ⟨inside, _⟩ := searched.front.popped pop
  refine ⟨_, extend?_eq _ (searched.front.origin_marked pop searched.known.starts) _ rest, ?_⟩
  refine searched.advance wf valid pop _ (fun m k => ?_) (List.Subset.refl _) judged
    (fun _ _ => Or.inl)
  rw [mem_previousKey? wf inside]
  simp only [passes, true_and]

theorem Searched.activated (wf : q.network.WellFormed)
    (valid : q.network.Admits q.network.potential)
    (apart : q.link.activation ≠ q.link.contingent)
    (searched : q.Searched keys queue settled least edges)
    (pop : queue.popMin = some ((n, key), rest)) (activation : n = q.link.activation)
    (far : q.link.upper ≤ q.distance n key) :
    q.Searched (settleKey keys n key) rest (settled.setIfInBounds n true) key edges := by
  refine searched.stop wf valid pop ?_ (List.Subset.refl _) ⟨fun _ => far, ?_, ?_⟩ (fun _ _ => Or.inl)
  · rintro (origin | ⟨other, _⟩)
    · exact apart (activation.symm.trans origin)
    · exact other activation
  · intro other
    exact absurd activation other
  · intro other
    exact absurd activation other

/-- The path leaves the uncertainty of the link at the node. -/
theorem Searched.exit (wf : q.network.WellFormed) (valid : q.network.Admits q.network.potential)
    (searched : q.Searched keys queue settled least edges)
    (pop : queue.popMin = some ((n, key), rest)) (other : n ≠ q.link.activation)
    (notOrigin : n ≠ q.link.contingent) (far : q.link.upper - q.link.lower ≤ q.distance n key)
    (finite : Value.IsFinite (q.distance n key - q.link.upper)) :
    q.Searched (settleKey keys n key) rest (settled.setIfInBounds n true) key
      ((n, q.distance n key - q.link.upper) :: edges) := by
  refine searched.stop wf valid pop ?_ (List.subset_cons_self _ _)
    ⟨fun same => absurd same other, ?_, ?_⟩ ?_
  · rintro (origin | ⟨_, near⟩)
    · exact notOrigin origin
    · exact absurd far (not_le.mpr near)
  · intro _ _ _
    exact List.mem_cons_self
  · intro _ _ near
    exact absurd far (not_le.mpr near)
  · intro v w mem
    rcases List.mem_cons.mp mem with here | before
    · cases here
      exact Or.inr ⟨other, notOrigin, finite, key, if_pos rfl, far, rfl⟩
    · exact Or.inl before

theorem Searched.overflows (valid : q.network.Admits q.network.potential)
    (searched : q.Searched keys queue settled least edges)
    (pop : queue.popMin = some ((n, key), rest)) (other : n ≠ q.link.activation)
    (notOrigin : n ≠ q.link.contingent) (far : q.link.upper - q.link.lower ≤ q.distance n key)
    (infinite : ¬ Value.IsFinite (q.distance n key - q.link.upper)) :
    q.Overflows n (q.distance n key) :=
  ⟨other, notOrigin, far, searched.reaches pop,
    fun _ reaches => searched.known.distance_le valid searched.front pop reaches, infinite⟩

theorem Searched.waits (searched : q.Searched keys queue settled least edges)
    (pop : queue.popMin = some ((n, key), rest)) (near : q.distance n key < q.link.upper - q.link.lower)
    {next : Nat} (found : q.unfinishedLinkAt? n = some next) :
    ∃ other, q.Waits next other (q.distance n key) := by
  obtain ⟨other, listed, rfl, apart, unfinished⟩ := unfinishedLinkAt?_some found
  exact ⟨other, listed, apart, unfinished, searched.reaches pop, near⟩

theorem settle_spec (wf : q.network.WellFormed) (valid : q.network.Admits q.network.potential)
    (apart : q.link.activation ≠ q.link.contingent) (fuel : Nat)
    (searched : q.Searched keys queue settled least edges) (enough : unsettled settled < fuel) :
    q.Explains (q.settle fuel queue settled edges) := by
  induction fuel generalizing keys queue settled least edges with
  | zero => omega
  | succ fuel ih =>
    rw [settle]
    cases pop : queue.popMin with
    | none => exact ⟨_, searched.completed pop⟩
    | some popped =>
      obtain ⟨⟨n, key⟩, rest⟩ := popped
      have fewer := searched.front.unsettled_lt pop
      have less : unsettled (settled.setIfInBounds n true) < fuel := by omega
      -- one case for each branch of the turn
      change q.Explains (if n = q.link.activation then
        (if q.distance n key < q.link.upper then _ else _) else if n = q.link.contingent then _
        else if q.link.upper - q.link.lower ≤ q.distance n key then _ else _)
      split
      · rename_i activation
        split
        · rename_i close
          exact Or.inl ⟨_, activation ▸ searched.reaches pop, close⟩
        · rename_i far
          exact ih (searched.activated wf valid apart pop activation (not_lt.mp far)) less
      · rename_i other
        split
        · rename_i origin
          obtain ⟨onward, extended, searched'⟩ := searched.pass wf valid pop (Or.inl origin)
            ⟨fun same => absurd same other, fun _ notOrigin => absurd origin notOrigin,
              fun _ notOrigin => absurd origin notOrigin⟩
          dsimp only [distance] at extended ⊢
          rw [extended]
          exact ih searched' less
        · rename_i notOrigin
          split
          · rename_i far
            split
            · rename_i e infinite
              exact ⟨n, _, searched.overflows valid pop other notOrigin far (weight?_error infinite)⟩
            · rename_i w finite
              obtain ⟨rfl, finite⟩ := weight?_ok finite
              exact ih (searched.exit wf valid pop other notOrigin far finite) less
          · rename_i near
            split
            · rename_i free
              obtain ⟨onward, extended, searched'⟩ := searched.pass wf valid pop
                (Or.inr ⟨other, not_le.mp near⟩)
                ⟨fun same => absurd same other, fun _ _ far => absurd far near, fun _ _ _ => free⟩
              dsimp only [distance] at extended ⊢
              rw [extended]
              exact ih searched' less
            · rename_i next found
              obtain ⟨link, waits⟩ := searched.waits pop (not_le.mp near) found
              split
              · rename_i started
                exact Or.inr ⟨next, link, _, waits, started⟩
              · rename_i notStarted
                exact ⟨notStarted, link, _, waits⟩

end Turn

end Query

theorem Query.Searched.start {q : Query} (inside : q.link.contingent < q.network.nodeCount) :
    q.Searched (fun _ => none) (MinQueue.empty.insertOrDecrease q.link.contingent 0).1
      (Array.replicate q.network.nodeCount false) 0 [] := by
  refine ⟨⟨SearchFront.startsFrom q.link.contingent, ?_, ?_⟩, SearchFront.start _ _ inside 0, ?_, ?_⟩
  · intro v k present
    rcases SearchFront.startsFrom q.link.contingent with settled | ⟨_, only⟩
    · cases settled
    · rcases present with settled | waits
      · cases settled
      · obtain ⟨rfl, rfl⟩ := (only v k).mp waits
        rw [q.distance_origin]
        exact .origin
  · intro u v k w settled
    cases settled
  · intro v k settled
    cases settled
  · intro v w mem
    cases mem

theorem ofLink_spec {g : PlainNetwork} (wf : g.WellFormed) (valid : g.Admits g.potential)
    (links : List StnuLink) (statuses : Array LinkStatus) (index : Nat) {link : StnuLink}
    (inside : link.contingent < g.nodeCount) (apart : link.activation ≠ link.contingent) :
    Query.Explains ⟨g, links, statuses, index, link⟩ (ofLink g links statuses index link) := by
  have all : unsettled (Array.replicate g.nodeCount false) = g.nodeCount := by
    simp [unsettled, Array.countP_replicate]
  exact Query.settle_spec wf valid apart _
    (Query.Searched.start inside) (by omega)

end BackPropagation

end TemporalNetwork
