import TemporalNetwork.Proofs.Queue.SearchFront
import TemporalNetwork.Proofs.Stnu.Relaxation

/-!
Repairing the greatest potential. After edges into one node have been tightened, lowering the nodes
close to it again gives the greatest potential, and where an edge is still violated it closes a
negative cycle.
-/

namespace TemporalNetwork

namespace Network

variable {g : PlainNetwork}

theorem potential_modifyNode (g : PlainNetwork) (n : NodeId) (p : Int) (m : NodeId)
    (inside : n < g.nodeCount) :
    (g.modifyNode n fun node => { node with potential := p }).potential m =
      if n = m then p else g.potential m := by
  unfold nodeCount at inside
  rw [potential, nodeD, node?_modifyNode]
  split
  · rename_i same
    subst same
    simp [node?, inside]
  · rfl

theorem setPotentials_setPotentials (g : PlainNetwork) (p q : Array Int) :
    (g.setPotentials p).setPotentials q = g.setPotentials q := by
  unfold setPotentials
  congr 1
  refine Array.ext (by simp) fun i hp hq => ?_
  simp

theorem modifyNode_eq_setPotentials (g : PlainNetwork) (n : NodeId) (x : Int) :
    (g.modifyNode n fun node => { node with potential := x }) =
      g.setPotentials ((g.nodes.map Node.potential).setIfInBounds n x) := by
  unfold modifyNode setPotentials
  congr 1
  refine Array.ext (by simp) fun i hp hq => ?_
  have inside : i < g.nodes.size := by simpa using hq
  rw [Array.getElem_mapIdx, Array.getElem_modify]
  by_cases same : n = i
  · subst same
    simp [inside]
  · simp [same, inside]

end Network

namespace Potential

/-- The nodes that are offered when `n` is settled. -/
def nextKeys (g : PlainNetwork) (decrease : Int) (n : NodeId) (key : Int) (settled : Array Bool) :
    List (Nat × Int) :=
  (g.outEdges n).filterMap fun (successor, e) =>
    if settled.getD successor false then none
    else
      ((g.edge? e).bind PlainEdge.lowerOrOrdinary?).bind fun w =>
        if key + (w + g.potential n - g.potential successor) < decrease then
          some (successor, key + (w + g.potential n - g.potential successor))
        else none

theorem lowered_succ (g : PlainNetwork) (decrease : Int) (fuel : Nat) (queue : MinQueue)
    (settled : Array Bool) :
    lowered g decrease (fuel + 1) queue settled =
      match queue.popMin with
      | none => []
      | some ((n, key), rest) =>
        (n, g.potential n - (decrease - key)) ::
          lowered g decrease fuel
            (rest.offer (nextKeys g decrease n key (settled.setIfInBounds n true)))
            (settled.setIfInBounds n true) := by
  rw [lowered]
  cases queue.popMin with
  | none => rfl
  | some popped =>
    obtain ⟨⟨n, key⟩, rest⟩ := popped
    dsimp only
    congr 2
    rw [MinQueue.offer, nextKeys, List.foldl_filterMap]
    congr 1
    funext q edge
    obtain ⟨successor, e⟩ := edge
    dsimp only
    cases (settled.setIfInBounds n true).getD successor false with
    | true => rfl
    | false =>
      cases (g.edge? e).bind PlainEdge.lowerOrOrdinary? with
      | none => rfl
      | some w =>
        simp only [Bool.false_eq_true, if_false, Option.bind_some]
        split <;> rfl

variable {g : PlainNetwork} {decrease : Int} {origin : NodeId}

theorem mem_nextKeys (wf : g.WellFormed) {n : NodeId} (hn : n < g.nodeCount) {key : Int}
    {settled : Array Bool} {m : NodeId} {k : Int} :
    (m, k) ∈ nextKeys g decrease n key settled ↔ settled.getD m false = false ∧
      ∃ w, g.weightBetween? n m = some w ∧ k = key + (w + g.potential n - g.potential m) ∧
        k < decrease := by
  simp only [nextKeys, List.mem_filterMap, Prod.exists, wf.mem_outEdges hn]
  constructor
  · rintro ⟨successor, e, found, offered⟩
    split at offered
    · cases offered
    · rename_i unmarked
      obtain ⟨w, weight, near⟩ := Option.bind_eq_some_iff.mp offered
      split at near
      · rename_i close
        cases near
        refine ⟨by simpa using unmarked, w, ?_, rfl, close⟩
        rw [Network.weightBetween?, Network.edgeBetween?, found]
        exact weight
      · cases near
  · rintro ⟨unmarked, w, weight, rfl, close⟩
    obtain ⟨payload, joined, weighs⟩ := Option.bind_eq_some_iff.mp weight
    obtain ⟨e, found, stored⟩ := Option.bind_eq_some_iff.mp joined
    refine ⟨m, e, found, ?_⟩
    rw [unmarked, stored, Option.bind_some, weighs, Option.bind_some, if_neg (by simp),
      if_pos close]

/-- A key is the reduced length of a path from the origin, which no valid potential exceeds. -/
def Attained (g : PlainNetwork) (origin n : NodeId) (key : Int) : Prop :=
  ∀ q, g.Admits q → q n ≤ q origin + (key + g.potential n - g.potential origin)

theorem Attained.step {n : NodeId} {key : Int} (attained : Attained g origin n key) {m : NodeId}
    {w : Int} (weight : g.weightBetween? n m = some w) :
    Attained g origin m (key + (w + g.potential n - g.potential m)) := by
  intro q valid
  have := attained q valid
  have := valid n m w weight
  omega

/-- What is known of the keys while the nodes closer than `decrease` are settled. -/
structure Lowering (g : PlainNetwork) (decrease : Int) (origin : NodeId)
    (keys : NodeId → Option Int) (queue : MinQueue) : Prop where
  starts : StartsFrom keys queue origin
  nonneg : ∀ n k, keys n = some k → 0 ≤ k
  near : ∀ n k, keys n = some k ∨ queue.value? n = some k → k < decrease
  closed : ∀ u v w k, keys u = some k → g.weightBetween? u v = some w → v ≠ origin →
    k + (w + g.potential u - g.potential v) < decrease →
    Covers keys queue v (k + (w + g.potential u - g.potential v))
  attained : ∀ n k, keys n = some k ∨ queue.value? n = some k → Attained g origin n k

/-- What is known of the keys in the end. -/
structure Lowered (g : PlainNetwork) (decrease : Int) (origin : NodeId)
    (keys : NodeId → Option Int) : Prop where
  first : keys origin = some 0
  range : ∀ n k, keys n = some k → n < g.nodeCount ∧ 0 ≤ k ∧ k < decrease
  closed : ∀ u v w k, keys u = some k → g.weightBetween? u v = some w → v ≠ origin →
    k + (w + g.potential u - g.potential v) < decrease →
    ∃ k', k' ≤ k + (w + g.potential u - g.potential v) ∧ keys v = some k'
  attained : ∀ n k, keys n = some k → Attained g origin n k

/-- Settling one node keeps what is known. The edges into the origin may violate the potential, but
the origin is settled first. -/
theorem Lowering.advance (wf : g.WellFormed)
    (valid : ∀ u v w, g.weightBetween? u v = some w → v ≠ origin →
      g.potential v ≤ g.potential u + w)
    {keys : NodeId → Option Int} {queue rest : MinQueue} {settled : Array Bool} {least key : Int}
    {n : NodeId} (known : Lowering g decrease origin keys queue)
    (front : SearchFront g.nodeCount keys queue settled least) (above : 0 ≤ least)
    (pop : queue.popMin = some ((n, key), rest)) :
    SearchFront g.nodeCount (settleKey keys n key)
      (rest.offer (nextKeys g decrease n key (settled.setIfInBounds n true)))
      (settled.setIfInBounds n true) key ∧
    Lowering g decrease origin (settleKey keys n key)
      (rest.offer (nextKeys g decrease n key (settled.setIfInBounds n true))) := by
  obtain ⟨hn, fresh, le⟩ := front.popped pop
  obtain ⟨value, _, restWf, values⟩ := MinQueue.popMin_spec front.wellFormed pop
  have first := front.origin_settled pop known.starts
  have marked := front.origin_marked pop known.starts
  -- Reduced lengths are not negative away from the origin, and the origin has its mark by now.
  have reduced : ∀ m w, g.weightBetween? n m = some w →
      (settled.setIfInBounds n true).getD m false = false →
      key ≤ key + (w + g.potential n - g.potential m) := by
    intro m w weight unmarked
    have notOrigin : m ≠ origin := by
      intro same
      rw [same, marked] at unmarked
      cases unmarked
    have := valid n m w weight notOrigin
    omega
  have advanced := front.advance pop (nextKeys g decrease n key (settled.setIfInBounds n true))
    (by
      intro m k mem
      obtain ⟨unmarked, w, weight, rfl, _⟩ := (mem_nextKeys wf hn).mp mem
      exact ⟨(Network.lt_of_weightBetween? wf weight).2, unmarked, reduced m w weight unmarked⟩)
  refine ⟨advanced, Or.inl first, ?_, ?_, ?_, ?_⟩
  · intro m k settled
    rcases SearchFront.settleKey_cases settled with ⟨rfl, rfl⟩ | before
    · omega
    · exact known.nonneg m k before
  · intro m k present
    rcases front.known_or_offered pop _ present with before | offered
    · exact known.near m k before
    · obtain ⟨_, w, _, _, close⟩ := (mem_nextKeys wf hn).mp offered
      exact close
  · intro u v w k settled weight notOrigin close
    rcases SearchFront.settleKey_cases settled with ⟨rfl, rfl⟩ | before
    · have positive := valid u v w weight notOrigin
      exact front.covers_next pop _ (Network.lt_of_weightBetween? wf weight).2 (by omega)
        fun unmarked => (mem_nextKeys wf hn).mpr ⟨unmarked, w, weight, rfl, close⟩
    · exact front.covers_advance pop _ (known.closed u v w k before weight notOrigin close)
  · intro m k present
    rcases front.known_or_offered pop _ present with before | offered
    · exact known.attained m k before
    · obtain ⟨_, w, weight, rfl, _⟩ := (mem_nextKeys wf hn).mp offered
      exact (known.attained n key (Or.inr value)).step weight

theorem lowered_spec (wf : g.WellFormed)
    (valid : ∀ u v w, g.weightBetween? u v = some w → v ≠ origin →
      g.potential v ≤ g.potential u + w)
    (fuel : Nat) (keys : NodeId → Option Int) (queue : MinQueue) (settled : Array Bool)
    (least : Int) (known : Lowering g decrease origin keys queue)
    (front : SearchFront g.nodeCount keys queue settled least) (above : 0 ≤ least)
    (enough : unsettled settled < fuel) :
    ∃ final, Lowered g decrease origin final ∧
      (∀ n k, keys n = some k → final n = some k) ∧
      ∀ n p, (n, p) ∈ lowered g decrease fuel queue settled ↔
        keys n = none ∧ ∃ k, final n = some k ∧ p = g.potential n - (decrease - k) := by
  induction fuel generalizing keys queue settled least with
  | zero => omega
  | succ fuel ih =>
    rw [lowered_succ]
    cases pop : queue.popMin with
    | none =>
      refine ⟨keys, ⟨front.origin_of_empty pop known.starts, ?_, ?_,
        fun n k settled => known.attained n k (Or.inl settled)⟩, fun _ _ h => h, ?_⟩
      · intro n k settled
        exact ⟨(front.passed n k settled).1, known.nonneg n k settled,
          known.near n k (Or.inl settled)⟩
      · intro u v w k settled weight notOrigin close
        exact front.settled_of_covers pop (known.closed u v w k settled weight notOrigin close)
      · intro n p
        simp only [List.not_mem_nil, false_iff, not_and]
        rintro fresh ⟨k, settled, _⟩
        rw [fresh] at settled
        cases settled
    | some popped =>
      obtain ⟨⟨n, key⟩, rest⟩ := popped
      obtain ⟨_, fresh, le⟩ := front.popped pop
      -- Each turn settles a node, so the fuel outlasts the nodes.
      have fewer := front.unsettled_lt pop
      obtain ⟨front', known'⟩ := known.advance wf valid front above pop
      obtain ⟨final, done, kept, listed⟩ := ih _ _ _ key known' front' (by omega) (by omega)
      have here : final n = some key := kept n key (if_pos rfl)
      refine ⟨final, done, fun m k settled => kept m k ?_, fun m p => ?_⟩
      · rw [settleKey, if_neg]
        · exact settled
        · intro same
          rw [same, fresh] at settled
          cases settled
      · rw [List.mem_cons, Prod.mk.injEq, listed, settleKey]
        by_cases same : m = n
        · subst same
          simp [fresh, here]
        · simp [same]

theorem leastOver_le (g : PlainNetwork) (n : NodeId) (sources : List NodeId) :
    leastOver g n sources ≤ g.potential n ∧ ∀ u w, u ∈ sources →
      g.weightBetween? u n = some w → leastOver g n sources ≤ g.potential u + w := by
  have folds : ∀ (values : List Int) (start : Int), values.foldl min start ≤ start ∧
      ∀ v ∈ values, values.foldl min start ≤ v := by
    intro values
    induction values with
    | nil => simp
    | cons first rest ih =>
      intro start
      obtain ⟨below, each⟩ := ih (min start first)
      rw [List.foldl_cons]
      refine ⟨by omega, fun v mem => ?_⟩
      rcases List.mem_cons.mp mem with rfl | later
      · omega
      · exact each v later
  obtain ⟨below, each⟩ := folds
    (sources.filterMap fun s => (g.weightBetween? s n).map fun w => g.potential s + w)
    (g.potential n)
  refine ⟨below, fun u w mem weight => each _ ?_⟩
  rw [List.mem_filterMap]
  exact ⟨u, mem, by rw [weight]; rfl⟩

theorem leastOver_cases (g : PlainNetwork) (n : NodeId) (sources : List NodeId) :
    leastOver g n sources = g.potential n ∨ ∃ u w, u ∈ sources ∧
      g.weightBetween? u n = some w ∧ leastOver g n sources = g.potential u + w := by
  have folds : ∀ (values : List Int) (start : Int), values.foldl min start = start ∨
      values.foldl min start ∈ values := by
    intro values
    induction values with
    | nil => exact fun _ => Or.inl rfl
    | cons first rest ih =>
      intro start
      rw [List.foldl_cons]
      rcases ih (min start first) with least | later
      · rw [least]
        rcases min_choice start first with kept | taken
        · exact Or.inl kept
        · rw [taken]
          exact Or.inr List.mem_cons_self
      · exact Or.inr (List.mem_cons_of_mem _ later)
  refine (folds _ (g.potential n)).imp_right fun mem => ?_
  obtain ⟨u, source, value⟩ := List.mem_filterMap.mp mem
  obtain ⟨w, weight, same⟩ := Option.map_eq_some_iff.mp value
  exact ⟨u, w, source, weight, same.symm⟩

theorem le_leastOver {n : NodeId} {sources : List NodeId} {x : Int} (here : x ≤ g.potential n)
    (each : ∀ u w, g.weightBetween? u n = some w → x ≤ g.potential u + w) :
    x ≤ leastOver g n sources := by
  rcases leastOver_cases g n sources with same | ⟨u, w, _, weight, same⟩
  · exact same ▸ here
  · exact same ▸ each u w weight

theorem exists_of_leastOver_lt {n : NodeId} {sources : List NodeId}
    (below : leastOver g n sources < g.potential n) :
    ∃ u w, u ∈ sources ∧ g.weightBetween? u n = some w ∧ g.potential u + w < g.potential n := by
  rcases leastOver_cases g n sources with same | ⟨u, w, mem, weight, same⟩
  · exact absurd same below.ne
  · exact ⟨u, w, mem, weight, same ▸ below⟩

theorem potential_updates (updates : List (NodeId × Int))
    (inside : ∀ n p, (n, p) ∈ updates → n < g.nodeCount)
    (single : ∀ n p p', (n, p) ∈ updates → (n, p') ∈ updates → p = p') :
    (∃ p, updates.foldl
      (fun g (m, p) => g.modifyNode m fun node => { node with potential := p }) g =
        g.setPotentials p) ∧
    ∀ n, (∀ p, (n, p) ∈ updates → (updates.foldl
        (fun g (m, p) => g.modifyNode m fun node => { node with potential := p }) g).potential n =
          p) ∧
      ((∀ p, (n, p) ∉ updates) → (updates.foldl
        (fun g (m, p) => g.modifyNode m fun node => { node with potential := p }) g).potential n =
          g.potential n) := by
  induction updates generalizing g with
  | nil =>
    exact ⟨⟨_, g.setPotentials_self.symm⟩,
      fun n => ⟨fun p mem => absurd mem List.not_mem_nil, fun _ => rfl⟩⟩
  | cons update rest ih =>
    obtain ⟨m, p⟩ := update
    have hm := inside m p List.mem_cons_self
    have changed := g.modifyNode_eq_setPotentials m p
    have counted : (g.modifyNode m fun node => { node with potential := p }).nodeCount =
        g.nodeCount := by simp [Network.nodeCount, Network.modifyNode]
    obtain ⟨⟨r, same⟩, potentials⟩ := ih (g := g.modifyNode m fun node => { node with potential := p })
      (fun n q mem => by rw [counted]; exact inside n q (List.mem_cons_of_mem _ mem))
      (fun n q q' mem mem' => single n q q' (List.mem_cons_of_mem _ mem)
        (List.mem_cons_of_mem _ mem'))
    rw [List.foldl_cons]
    refine ⟨⟨r, by rw [same, changed, Network.setPotentials_setPotentials]⟩, fun n => ?_⟩
    obtain ⟨listed, unlisted⟩ := potentials n
    have first := g.potential_modifyNode m p n hm
    constructor
    · intro q mem
      -- A node that occurs twice has the same value both times.
      by_cases later : (n, q) ∈ rest
      · exact listed q later
      · rcases List.mem_cons.mp mem with here | there
        · cases here
          refine (unlisted fun q' mem' => later ?_).trans (first.trans (if_pos rfl))
          rwa [single m p q' List.mem_cons_self (List.mem_cons_of_mem _ mem')]
        · exact absurd there later
    · intro absent
      refine (unlisted fun q mem => absent q (List.mem_cons_of_mem _ mem)).trans
        (first.trans (if_neg ?_))
      rintro rfl
      exact absent p List.mem_cons_self

/-- The potentials after nodes have been lowered are valid but for the edges into the origin. -/
theorem Lowered.valid {keys : NodeId → Option Int} (done : Lowered g decrease origin keys)
    {p : NodeId → Int} (settled : ∀ n k, keys n = some k → p n = g.potential n - (decrease - k))
    (others : ∀ n, keys n = none → p n = g.potential n) {u v : NodeId} {w : Int}
    (weight : g.weightBetween? u v = some w) (before : g.potential v ≤ g.potential u + w) :
    p v ≤ p u + w := by
  have lower : p v ≤ g.potential v := by
    cases hv : keys v with
    | none => exact (others v hv).le
    | some k =>
      have range := done.range v k hv
      have := settled v k hv
      omega
  cases hu : keys u with
  | none =>
    have := others u hu
    omega
  | some k =>
    have here := settled u k hu
    have range := done.range u k hu
    by_cases atOrigin : v = origin
    · have first := done.first
      rw [← atOrigin] at first
      have := settled v 0 first
      omega
    · by_cases close : k + (w + g.potential u - g.potential v) < decrease
      · obtain ⟨k', le, hv⟩ := done.closed u v w k hu weight atOrigin close
        have := settled v k' hv
        omega
      · omega

/-- The network after the nodes close to `n` have been lowered. -/
def lowerFrom (g : PlainNetwork) (decrease : Int) (n : NodeId) : PlainNetwork :=
  (lowered g decrease (g.nodeCount + 1) (MinQueue.empty.insertOrDecrease n 0).1
    (Array.replicate g.nodeCount false)).foldl
      (fun g (m, p) => g.modifyNode m fun node => { node with potential := p }) g

theorem sameEdges_lowerFrom (g : PlainNetwork) (decrease : Int) (n : NodeId) :
    g.SameEdges (lowerFrom g decrease n) := by
  have each : ∀ (updates : List (NodeId × Int)) (g : PlainNetwork), g.SameEdges (updates.foldl
      (fun g (m, p) => g.modifyNode m fun node => { node with potential := p }) g) := by
    intro updates
    induction updates with
    | nil => exact .refl
    | cons update rest ih =>
      intro g
      obtain ⟨m, p⟩ := update
      refine .trans ?_ (ih _)
      dsimp only
      rw [Network.modifyNode_eq_setPotentials]
      exact Network.sameEdges_setPotentials g _
  exact each _ g

/-- What lowering the nodes close to `origin` does: what has been lowered is as far below the origin
as a path from there is long. -/
structure LoweredFrom (g : PlainNetwork) (decrease : Int) (origin : NodeId) (h : PlainNetwork) :
    Prop where
  potentials : ∃ p, h = g.setPotentials p
  first : h.potential origin = g.potential origin - decrease
  le : ∀ n, h.potential n ≤ g.potential n
  valid : ∀ u v w, g.weightBetween? u v = some w → g.potential v ≤ g.potential u + w →
    h.potential v ≤ h.potential u + w
  attained : ∀ n, h.potential n = g.potential n ∨ ∀ q, g.Admits q →
    q n ≤ q origin + (h.potential n - h.potential origin)

theorem lowerFrom_spec (wf : g.WellFormed) (inside : origin < g.nodeCount)
    (positive : 0 < decrease)
    (valid : ∀ u v w, g.weightBetween? u v = some w → v ≠ origin →
      g.potential v ≤ g.potential u + w) :
    LoweredFrom g decrease origin (lowerFrom g decrease origin) := by
  have known : Lowering g decrease origin (fun _ => none)
      (MinQueue.empty.insertOrDecrease origin 0).1 := by
    rcases SearchFront.startsFrom origin with settled | ⟨_, only⟩
    · cases settled
    · refine ⟨SearchFront.startsFrom origin, fun n k settled => (nomatch settled), ?_,
        fun u v w k settled => (nomatch settled), ?_⟩
      · rintro n k (settled | waits)
        · cases settled
        · rw [((only n k).mp waits).2]
          exact positive
      · rintro n k (settled | waits)
        · cases settled
        · obtain ⟨rfl, rfl⟩ := (only n k).mp waits
          intro q _
          omega
  have all : unsettled (Array.replicate g.nodeCount false) = g.nodeCount := by
    simp [unsettled, Array.countP_replicate]
  obtain ⟨final, done, _, listed⟩ := lowered_spec wf valid (g.nodeCount + 1) _ _ _ 0 known
    (SearchFront.start g.nodeCount origin inside 0) le_rfl (by omega)
  obtain ⟨potentials, updated⟩ := potential_updates (g := g)
    (lowered g decrease (g.nodeCount + 1) (MinQueue.empty.insertOrDecrease origin 0).1
      (Array.replicate g.nodeCount false))
    (by
      intro n p mem
      obtain ⟨_, k, settled, _⟩ := (listed n p).mp mem
      exact (done.range n k settled).1)
    (by
      intro n p p' mem mem'
      obtain ⟨_, k, settled, rfl⟩ := (listed n p).mp mem
      obtain ⟨_, k', settled', rfl⟩ := (listed n p').mp mem'
      rw [settled] at settled'
      cases settled'
      rfl)
  -- What the search lists is written to the nodes, and every other node keeps its potential.
  have lowers : ∀ n k, final n = some k →
      (lowerFrom g decrease origin).potential n = g.potential n - (decrease - k) :=
    fun n k settled => (updated n).1 _ ((listed n _).mpr ⟨rfl, k, settled, rfl⟩)
  have keeps : ∀ n, final n = none →
      (lowerFrom g decrease origin).potential n = g.potential n := by
    intro n absent
    refine (updated n).2 fun p mem => ?_
    obtain ⟨_, k, settled, _⟩ := (listed n p).mp mem
    rw [absent] at settled
    cases settled
  have first := lowers origin 0 done.first
  constructor
  · exact potentials
  · omega
  · intro n
    cases key : final n with
    | none => exact (keeps n key).le
    | some k =>
      have := lowers n k key
      have := done.range n k key
      omega
  · exact fun u v w weight before => done.valid lowers keeps weight before
  · intro n
    cases key : final n with
    | none => exact Or.inl (keeps n key)
    | some k =>
      refine Or.inr fun q admits => ?_
      have := done.attained n k key q admits
      have := lowers n k key
      omega

/-- The edges into a node from some others are the only ones that may violate the potential, which
is otherwise not positive and above the valid ones. -/
structure Disturbed (g : PlainNetwork) (n : NodeId) (sources : List NodeId) : Prop where
  violated : ∀ u v w, g.weightBetween? u v = some w →
    g.potential v ≤ g.potential u + w ∨ v = n ∧ u ∈ sources
  nonpos : ∀ m, m < g.nodeCount → g.potential m ≤ 0
  above : ∀ p, g.Admits p → (∀ m, m < g.nodeCount → p m ≤ 0) →
    ∀ m, m < g.nodeCount → p m ≤ g.potential m

/-- No valid potential is above the least one that the tightened edges leave. -/
theorem Disturbed.le_leastOver {n : NodeId} {sources : List NodeId}
    (disturbed : Disturbed g n sources) (wf : g.WellFormed) (inside : n < g.nodeCount)
    {p : NodeId → Int} (valid : g.Admits p) (nonpos : ∀ m, m < g.nodeCount → p m ≤ 0) :
    p n ≤ leastOver g n sources := by
  refine Potential.le_leastOver (disturbed.above p valid nonpos n inside) fun u w weight => ?_
  have := valid u n w weight
  have := disturbed.above p valid nonpos u (Network.lt_of_weightBetween? wf weight).1
  omega

/-- An edge that is still violated after the nodes have been lowered closes a negative cycle. -/
theorem LoweredFrom.not_admits {h : PlainNetwork} {n : NodeId} {sources : List NodeId}
    (lowered : LoweredFrom g (g.potential n - leastOver g n sources) n h)
    (violated : leastOver h n sources < h.potential n) (p : NodeId → Int) : ¬ g.Admits p := by
  intro valid
  obtain ⟨q, same⟩ := lowered.potentials
  have edges : g.SameEdges h := same ▸ Network.sameEdges_setPotentials g q
  obtain ⟨u, w, mem, weight, below⟩ := exists_of_leastOver_lt violated
  rw [edges.weightBetween?] at weight
  have first := lowered.first
  rcases lowered.attained u with kept | reached
  · have := (leastOver_le g n sources).2 u w mem weight
    omega
  · have := reached p valid
    have := valid u n w weight
    omega

theorem LoweredFrom.relaxed {h : PlainNetwork} (wf : g.WellFormed) {n : NodeId}
    (inside : n < g.nodeCount) {sources : List NodeId} (disturbed : Disturbed g n sources)
    (lowered : LoweredFrom g (g.potential n - leastOver g n sources) n h)
    (satisfied : h.potential n ≤ leastOver h n sources) : h.Relaxed := by
  obtain ⟨q, same⟩ := lowered.potentials
  have edges : g.SameEdges h := same ▸ Network.sameEdges_setPotentials g q
  constructor
  · intro u v w weight
    have weight' := weight
    rw [edges.weightBetween?] at weight'
    rcases disturbed.violated u v w weight' with valid | ⟨rfl, tightened⟩
    · exact lowered.valid u v w weight' valid
    · exact satisfied.trans ((leastOver_le h v sources).2 u w tightened weight)
  · intro m hm
    rw [edges.nodeCount] at hm
    exact (lowered.le m).trans (disturbed.nonpos m hm)
  · intro p valid nonpos m hm
    rw [edges.nodeCount] at hm nonpos
    replace valid := edges.symm.admits valid
    rcases lowered.attained m with kept | reached
    · exact kept ▸ disturbed.above p valid nonpos m hm
    · have := disturbed.le_leastOver wf inside valid nonpos
      have := reached p valid
      have := lowered.first
      omega

theorem repair_eq {σ : Type} (n : NodeId) (sources : List NodeId) :
    (Potential.repair n sources : StnuM σ Unit) = (do
      let g ← StnuM.network
      if g.potential n - leastOver g n sources ≤ 0 then return
      StnuM.count fun s => { s with potentialUpdates := s.potentialUpdates + 1 }
      let h := lowerFrom g (g.potential n - leastOver g n sources) n
      StnuM.modifyNetwork fun _ => h
      if leastOver h n sources < h.potential n then throw .notControllable) := rfl

/-- If the repair succeeds the potential is the greatest again; it fails if there is none. -/
theorem repair_ends {σ : Type} {s : StnuRun σ} (wf : s.network.WellFormed) {n : NodeId}
    (hn : n < s.network.nodeCount) {sources : List NodeId}
    (disturbed : Disturbed s.network n sources) :
    Ends (Potential.repair n sources) s (fun _ t => Refreshed s t ∧ t.network.Relaxed)
      fun e t => e = .notControllable ∧ Alike s t ∧ ∀ p, ¬ s.network.Admits p := by
  obtain ⟨below, each⟩ := leastOver_le s.network n sources
  rw [repair_eq]
  unfold StnuM.network StnuM.count StnuM.modifyNetwork
  rw [ends_bind, ends_bind, ends_get, ends_pure]
  dsimp only
  split
  · rename_i satisfied
    refine ⟨.refl s, fun u v w weight => ?_, disturbed.nonpos, disturbed.above⟩
    rcases disturbed.violated u v w weight with valid | ⟨rfl, tightened⟩
    · exact valid
    · have := each u w tightened weight
      omega
  · rename_i drops
    have lowered := lowerFrom_spec wf hn (not_le.mp drops) fun u v w weight other =>
      (disturbed.violated u v w weight).resolve_right fun into => other into.1
    rw [ends_bind, ends_modify, ends_bind, ends_modify]
    generalize lowerFrom s.network (s.network.potential n - leastOver s.network n sources) n = h
      at lowered ⊢
    obtain ⟨p, same⟩ := lowered.potentials
    have edges : s.network.SameEdges h := same ▸ Network.sameEdges_setPotentials s.network p
    split
    · rename_i violated
      exact ⟨rfl, ⟨edges, rfl, rfl, rfl, rfl, rfl, rfl⟩, lowered.not_admits violated⟩
    · rename_i satisfied
      exact ⟨⟨⟨edges, rfl, rfl, rfl, rfl, rfl, rfl⟩, p, same⟩,
        lowered.relaxed wf hn disturbed (not_lt.mp satisfied)⟩

theorem repair_alike {σ : Type} (s : StnuRun σ) (n : NodeId) (sources : List NodeId) :
    Ends (Potential.repair n sources) s (fun _ => Alike s) fun _ => Alike s := by
  rw [repair_eq]
  unfold StnuM.network StnuM.count StnuM.modifyNetwork
  rw [ends_bind, ends_bind, ends_get, ends_pure]
  dsimp only
  split
  · exact .refl s
  · rw [ends_bind, ends_modify, ends_bind, ends_modify]
    have edges := sameEdges_lowerFrom s.network
      (s.network.potential n - leastOver s.network n sources) n
    split
    · exact ⟨edges, rfl, rfl, rfl, rfl, rfl, rfl⟩
    · exact ⟨edges, rfl, rfl, rfl, rfl, rfl, rfl⟩

end Potential

end TemporalNetwork
