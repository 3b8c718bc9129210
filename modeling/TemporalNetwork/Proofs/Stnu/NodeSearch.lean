import Mathlib.Data.Set.Finite.Lattice
import TemporalNetwork.Proofs.Queue.SearchFront
import TemporalNetwork.Proofs.Stnu.NodeRun

/-!
What the back-propagation of a node has found when it is done. The distances are closed under the
extensions of negative paths, no path returns to the node while it is negative, and what is reached at a
distance that is not negative has been made an edge. A node on the way with negative incoming edges was
treated before.
-/

namespace TemporalNetwork

namespace Network

/-- The nodes with negative incoming edges. -/
def HasStart (g : PlainNetwork) (n : NodeId) : Prop := ∃ u w o, g.Start n u w o

/-- `h` differs from `g` in weights into some nodes, which are lower but not negative. -/
structure Grown (into : NodeId → Prop) (g h : PlainNetwork) : Prop where
  tightened : g.TightenedInto into h
  nonneg : ∀ u v, h.bound u v = g.bound u v ∨ 0 ≤ h.bound u v

namespace Grown

variable {into into' : NodeId → Prop} {g h k : PlainNetwork} {s u v : NodeId} {w : Value}
  {o : Option NodeId}

theorem refl (into : NodeId → Prop) (g : PlainNetwork) : g.Grown into g :=
  ⟨.refl into g, fun _ _ => Or.inl rfl⟩

theorem mono (grown : g.Grown into h) (more : ∀ v, into v → into' v) : g.Grown into' h :=
  ⟨grown.tightened.mono more, grown.nonneg⟩

theorem trans (first : g.Grown into h) (second : h.Grown into k) : g.Grown into k := by
  refine ⟨first.tightened.trans second.tightened, fun u v => ?_⟩
  rcases second.nonneg u v with same | nonneg
  · rw [same]
    exact first.nonneg u v
  · exact Or.inr nonneg

theorem start_iff (grown : g.Grown into h) : h.Start s u w o ↔ g.Start s u w o := by
  constructor <;> intro start
  · cases start with
    | ordinary weight negative =>
      obtain ⟨rfl, finite⟩ := ordinary?_eq_some_iff.mp weight
      rcases grown.nonneg u s with same | nonneg
      · exact .ordinary (ordinary?_eq_some_iff.mpr ⟨same.symm, finite⟩) negative
      · exact absurd negative (not_lt.mpr nonneg)
    | upper held negative => exact .upper (by rwa [← grown.tightened.case?]) negative
  · cases start with
    | ordinary weight negative =>
      obtain ⟨rfl, finite⟩ := ordinary?_eq_some_iff.mp weight
      rcases grown.nonneg u s with same | nonneg
      · exact .ordinary (ordinary?_eq_some_iff.mpr ⟨same, finite⟩) negative
      · have le := grown.tightened.bound_le u s
        exact absurd negative (not_lt.mpr (nonneg.trans le))
    | upper held negative => exact .upper (by rwa [grown.tightened.case?]) negative

theorem hasStart_iff (grown : g.Grown into h) : h.HasStart s ↔ g.HasStart s := by
  simp only [HasStart, grown.start_iff]

theorem extension?_eq (grown : g.Grown into h) (elsewhere : ¬ into u) (v : NodeId)
    (o : Option NodeId) : h.extension? v u o = g.extension? v u o := by
  rw [Network.extension?_eq, Network.extension?_eq, grown.tightened.ordinary?_eq elsewhere,
    grown.tightened.case?]

end Grown

theorem grown_tighten {g : PlainNetwork} (wf : g.WellFormed) {u v : NodeId} (hu : u < g.nodeCount)
    (hv : v < g.nodeCount) {value : Value} (finite : value < Value.posInf) (nonneg : 0 ≤ value) :
    g.Grown (fun n => n = v) (g.tighten u v value).1 := by
  refine ⟨tightenedInto_tighten wf hu hv finite, fun a b => ?_⟩
  rw [bound_tighten wf hu hv]
  split
  · rename_i same
    rw [← same.1, ← same.2]
    rcases min_choice value (g.bound u v) with least | least
    · rw [least]
      exact Or.inr nonneg
    · exact Or.inl least
  · exact Or.inl rfl

end Network

namespace NodeRun

/-- What a back-propagation from `s` knows. The distances are those of the nodes it has settled; the
others wait in the queue. -/
structure Explored (g : PlainNetwork) (s : NodeId) (o : Option NodeId) (keys : NodeId → Option Int)
    (queue : MinQueue) : Prop where
  starts : ∀ u w o', g.Start s u w o' → Covers keys queue u w
  closed : ∀ u d v w, keys u = some d → d < 0 → g.extension? v u o = some w →
    Covers keys queue v (d + w)
  source : ∀ d, keys s = some d → 0 ≤ d
  edges : ∀ n d, keys n = some d → 0 ≤ d → n ≠ s → ∃ e, g.ordinary? n s = some e ∧ e ≤ d
  above : ∀ n d, keys n = some d → ∃ u w o', g.Start s u w o' ∧ w ≤ d

namespace Explored

variable {g h : PlainNetwork} {s n : NodeId} {o : Option NodeId} {keys : NodeId → Option Int}
  {queue rest : MinQueue} {settled : Array Bool} {least d : Int} {into : NodeId → Prop} {size : Nat}

/-- One more node is settled; the network may have been tightened into nodes that are not passed. -/
theorem settle (explored : Explored g s o keys queue)
    (front : SearchFront size keys queue settled least)
    (pop : queue.popMin = some ((n, d), rest)) (candidates : List (Nat × Int))
    (grown : g.Grown into h) (passed : ∀ u d, keys u = some d → d < 0 → ¬ into u)
    (offered : d < 0 → ∀ v w, h.extension? v n o = some w → v < size ∧
      ((settled.setIfInBounds n true).getD v false = false → (v, d + w) ∈ candidates))
    (source : n = s → 0 ≤ d)
    (edge : 0 ≤ d → n ≠ s → ∃ e, h.ordinary? n s = some e ∧ e ≤ d)
    (above : ∃ u w o', g.Start s u w o' ∧ w ≤ d) :
    Explored h s o (settleKey keys n d) (rest.offer candidates) := by
  constructor
  · intro u w o' start
    exact front.covers_advance pop candidates (explored.starts u w o' (grown.start_iff.mp start))
  · intro u k v w known negative weight
    rcases SearchFront.settleKey_cases known with ⟨rfl, rfl⟩ | old
    · obtain ⟨inside, offer⟩ := offered negative v w weight
      have nonneg := (Network.extension?_cases weight).1
      exact front.covers_next pop candidates inside (by linarith) offer
    · rw [grown.extension?_eq (passed u k old negative)] at weight
      exact front.covers_advance pop candidates (explored.closed u k v w old negative weight)
  · intro k known
    rcases SearchFront.settleKey_cases known with ⟨rfl, rfl⟩ | old
    · exact source rfl
    · exact explored.source k old
  · intro m k known nonneg other
    rcases SearchFront.settleKey_cases known with ⟨rfl, rfl⟩ | old
    · exact edge nonneg other
    · obtain ⟨e, weight, le⟩ := explored.edges m k old nonneg other
      obtain ⟨e', weight', le'⟩ := grown.tightened.ordinary?_le weight
      exact ⟨e', weight', le'.trans le⟩
  · intro m k known
    have before : ∃ u w o', g.Start s u w o' ∧ w ≤ k := by
      rcases SearchFront.settleKey_cases known with ⟨rfl, rfl⟩ | old
      · exact above
      · exact explored.above m k old
    simpa only [grown.start_iff] using before

theorem finish (explored : Explored g s o keys queue)
    (front : SearchFront size keys queue settled least) (done : queue.popMin = none) :
    Explored g s o keys .empty := by
  have covers : ∀ {v k}, Covers keys queue v k → Covers keys .empty v k := by
    intro v k covered
    obtain ⟨k', le, known⟩ := front.settled_of_covers done covered
    exact ⟨k', le, Or.inl known⟩
  exact ⟨fun u w o' start => covers (explored.starts u w o' start),
    fun u d v w known negative weight => covers (explored.closed u d v w known negative weight),
    explored.source, explored.edges, explored.above⟩

theorem grown (explored : Explored g s o keys .empty) (grown : g.Grown into h)
    (passed : ∀ u d, keys u = some d → d < 0 → ¬ into u) : Explored h s o keys .empty := by
  constructor
  · exact fun u w o' start => explored.starts u w o' (grown.start_iff.mp start)
  · intro u d v w known negative weight
    rw [grown.extension?_eq (passed u d known negative)] at weight
    exact explored.closed u d v w known negative weight
  · exact explored.source
  · intro n d known nonneg other
    obtain ⟨e, weight, le⟩ := explored.edges n d known nonneg other
    obtain ⟨e', weight', le'⟩ := grown.tightened.ordinary?_le weight
    exact ⟨e', weight', le'.trans le⟩
  · simpa only [grown.start_iff] using explored.above

theorem known {v : NodeId} {k : Int} (covered : Covers keys .empty v k) :
    ∃ d, keys v = some d ∧ d ≤ k := by
  obtain ⟨d, le, known | waits⟩ := covered
  · exact ⟨d, known, le⟩
  · rw [MinQueue.value?_empty] at waits
    cases waits

end Explored

variable {first : PlainNetwork} {origin : NodeId → Option NodeId} {s t r : StnuRun NodeStatus}
  {F F' F'' : List NodeId} {into : NodeId → Prop} {source : NodeId}

/-- The state of a run in which some nodes are done, the latest first. -/
structure Progress (first : PlainNetwork) (origin : NodeId → Option NodeId) (t : StnuRun NodeStatus)
    (finished : List NodeId) : Prop where
  wellFormed : t.network.WellFormed
  size : t.statuses.size = t.network.nodeCount
  grown : first.Grown first.HasStart t.network
  done : ∀ n, t.statuses[n]? = some .done ↔ n ∈ finished
  nodup : finished.Nodup
  searched : ∀ n before, n :: before <:+ finished → ∃ keys,
    Explored t.network n (origin n) keys .empty ∧
      ∀ u d, keys u = some d → d < 0 → first.HasStart u → u ∈ before

def Waits (t : StnuRun NodeStatus) (n : NodeId) : Prop := t.statuses[n]? = some .inProgress

/-- The nodes that a run may treat although others are in progress. -/
def Open (first : PlainNetwork) (s : StnuRun NodeStatus) (finished : List NodeId) (n : NodeId) : Prop :=
  first.HasStart n ∧ n ∉ finished ∧ ¬ Waits s n

/-- What a part of a run does to a state: it treats further nodes. -/
structure Advanced (first : PlainNetwork) (origin : NodeId → Option NodeId) (into : NodeId → Prop)
    (s : StnuRun NodeStatus) (F : List NodeId) (t : StnuRun NodeStatus) (F' : List NodeId) : Prop where
  progress : Progress first origin t F'
  suffix : F <:+ F'
  grown : s.network.Grown into t.network
  waiting : ∀ p, Waits t p ↔ Waits s p

namespace Advanced

theorem refl (progress : Progress first origin s F) (into : NodeId → Prop) :
    Advanced first origin into s F s F :=
  ⟨progress, List.suffix_rfl, .refl into _, fun _ => Iff.rfl⟩

theorem trans (before : Advanced first origin into s F t F')
    (after : Advanced first origin (Open first t F') t F' r F'')
    (kept : ∀ v, Open first t F' v → into v) : Advanced first origin into s F r F'' :=
  ⟨after.progress, before.suffix.trans after.suffix, before.grown.trans (after.grown.mono kept),
    fun p => (after.waiting p).trans (before.waiting p)⟩

theorem isOpen (before : Advanced first origin into s F t F') {v : NodeId}
    (later : Open first t F' v) : Open first s F v :=
  ⟨later.1, fun mem => later.2.1 (before.suffix.subset mem),
    fun waits => later.2.2 ((before.waiting v).mpr waits)⟩

end Advanced

theorem Advanced.notMem (advanced : Advanced first origin into s F t F') (waits : Waits s source) :
    source ∉ F' := by
  intro mem
  have done := (advanced.progress.done source).mpr mem
  rw [(advanced.waiting source).mpr waits] at done
  cases done

/-- The nodes that no back-propagation has reached. -/
def unvisited (s : StnuRun NodeStatus) : Finset NodeId :=
  (Finset.range s.statuses.size).filter fun n => s.statuses[n]? = some .unvisited

namespace Progress

/-- A node that is in progress or done is changed no more by those that are treated later. -/
theorem grow (progress : Progress first origin s F) (wf : t.network.WellFormed)
    (grown : s.network.Grown (fun v => first.HasStart v ∧ v ∉ F) t.network)
    (same : t.statuses = s.statuses) : Progress first origin t F := by
  refine ⟨wf, ?_, progress.grown.trans (grown.mono fun v h => h.1), ?_, progress.nodup,
    fun n before suffix => ?_⟩
  · rw [same, progress.size, grown.tightened.nodeCount]
  · rw [same]
    exact progress.done
  · obtain ⟨keys, explored, treated⟩ := progress.searched n before suffix
    refine ⟨keys, explored.grown grown ?_, treated⟩
    rintro u d known negative ⟨starts, fresh⟩
    exact fresh (suffix.subset (List.mem_cons_of_mem _ (treated u d known negative starts)))

theorem lt_size (progress : Progress first origin s F) (inside : source < first.nodeCount) :
    source < s.statuses.size := by
  rw [progress.size, progress.grown.tightened.nodeCount]
  exact inside

theorem begun (progress : Progress first origin s F) (inside : source < first.nodeCount)
    (fresh : source ∉ F) : Progress first origin (begun s source) F := by
  refine ⟨progress.wellFormed, (Array.size_setIfInBounds).trans progress.size, progress.grown,
    fun n => ?_, progress.nodup, progress.searched⟩
  rw [statuses_begun (progress.lt_size inside)]
  split
  · rename_i same
    subst same
    exact iff_of_false nofun fresh
  · exact progress.done n

theorem ended (progress : Progress first origin t F) (inside : source < first.nodeCount)
    (fresh : source ∉ F) {keys : NodeId → Option Int}
    (explored : Explored t.network source (origin source) keys .empty)
    (treated : ∀ u d, keys u = some d → d < 0 → first.HasStart u → u ∈ F) :
    Progress first origin (ended t source) (source :: F) := by
  refine ⟨progress.wellFormed, (Array.size_setIfInBounds).trans progress.size, progress.grown,
    fun n => ?_, List.nodup_cons.mpr ⟨fresh, progress.nodup⟩, fun n before suffix => ?_⟩
  · rw [statuses_ended (progress.lt_size inside), List.mem_cons]
    split
    · rename_i same
      exact iff_of_true rfl (Or.inl same)
    · rename_i other
      rw [progress.done]
      exact ⟨Or.inr, fun mem => mem.resolve_left other⟩
  · rcases List.suffix_cons_iff.mp suffix with whole | earlier
    · cases whole
      exact ⟨keys, explored, treated⟩
    · exact progress.searched n before earlier

end Progress

theorem Advanced.unvisited_subset (progress : Progress first origin s F)
    (advanced : Advanced first origin into s F t F') : unvisited t ⊆ unvisited s := by
  intro n mem
  obtain ⟨inside, status⟩ := Finset.mem_filter.mp mem
  have sizes : t.statuses.size = s.statuses.size := by
    rw [advanced.progress.size, progress.size, advanced.grown.tightened.nodeCount]
  rw [Finset.mem_range, sizes] at inside
  refine Finset.mem_filter.mpr ⟨Finset.mem_range.mpr inside, ?_⟩
  cases before : s.statuses[n]? with
  | none => exact absurd inside (not_lt.mpr (Array.getElem?_eq_none_iff.mp before))
  | some x =>
    cases x with
    | unvisited => rfl
    | inProgress =>
      have waits : t.statuses[n]? = some .inProgress := (advanced.waiting n).mpr before
      rw [status] at waits
      cases waits
    | done =>
      have done := (advanced.progress.done n).mpr (advanced.suffix.subset ((progress.done n).mp before))
      rw [status] at done
      cases done

/-- A back-propagation in progress, and the frontier it has reached. -/
structure Draining (first : PlainNetwork) (origin : NodeId → Option NodeId) (source : NodeId)
    (s : StnuRun NodeStatus) (F : List NodeId) (t : StnuRun NodeStatus) (f : Frontier)
    (F' : List NodeId) (keys : NodeId → Option Int) (least : Int) : Prop where
  advanced : Advanced first origin (fun v => v = source ∨ Open first s F v) s F t F'
  front : SearchFront first.nodeCount keys f.queue f.settled least
  traced : f.Traced first.nodeCount fun _ k o =>
    o = origin source ∧ ∃ u w o', first.Start source u w o' ∧ w ≤ k
  explored : Explored t.network source (origin source) keys f.queue
  treated : ∀ u d, keys u = some d → d < 0 → first.HasStart u → u ∈ F'

namespace Draining

variable {f : Frontier} {keys : NodeId → Option Int} {least : Int}

theorem start (uniform : ∀ s u w o, first.Start s u w o → o = origin s)
    (progress : Progress first origin s F) (inside : source < first.nodeCount) :
    ∃ least, Draining first origin source s F s (Frontier.ofSource s.network source) F
      (fun _ => none) least := by
  have nodeCount := progress.grown.tightened.nodeCount
  have inside' : source < s.network.nodeCount := by rwa [nodeCount]
  have mem : ∀ {n k o}, (n, k, o) ∈ Frontier.startsInto s.network source ↔
      s.network.Start source n k o := Frontier.mem_startsInto progress.wellFormed inside'
  obtain ⟨least, below⟩ :=
    ((Frontier.startsInto s.network source).map fun c => c.2.1).toFinset.bddBelow
  have queue : (Frontier.ofSource s.network source).queue =
      MinQueue.empty.offer ((Frontier.startsInto s.network source).map fun c => (c.1, c.2.1)) := by
    rw [Frontier.ofSource_eq, Frontier.queue_offerAll]
    rfl
  have range : ∀ {n k o}, s.network.Start source n k o → n < first.nodeCount := by
    intro n k o start
    rw [← nodeCount]
    exact (start.lt progress.wellFormed).1
  have front : SearchFront first.nodeCount (fun _ => none) (Frontier.ofSource s.network source).queue
      (Frontier.ofSource s.network source).settled least := by
    rw [queue, Frontier.ofSource_eq, Frontier.settled_offerAll, Frontier.blank, nodeCount]
    refine SearchFront.start_offer fun n k offered => ?_
    obtain ⟨⟨m, d, o⟩, listed, same⟩ := List.mem_map.mp offered
    cases same
    refine ⟨range (mem.mp listed), below (Finset.mem_coe.mpr (List.mem_toFinset.mpr ?_))⟩
    exact List.mem_map.mpr ⟨_, listed, rfl⟩
  -- Nothing is settled yet: what is waiting are the starts, and the rest is vacuous.
  refine ⟨least, .refl progress _, front, ?_, ⟨fun u w o start => ?_, ?_, ?_, ?_, ?_⟩, ?_⟩
  · rw [Frontier.ofSource_eq, nodeCount]
    refine (Frontier.traced_blank _ _).offerAll fun n k o offered => ?_
    have start := mem.mp offered
    have start' := progress.grown.start_iff.mp start
    exact ⟨range start, uniform _ _ _ _ start', n, k, o, start', le_rfl⟩
  · have offered : (u, w) ∈ (Frontier.startsInto s.network source).map fun c => (c.1, c.2.1) :=
      List.mem_map.mpr ⟨(u, w, o), mem.mpr start, rfl⟩
    obtain ⟨k', le, present⟩ :=
      (MinQueue.offer_spec MinQueue.wellFormed_empty _).2.2 u w (Or.inr offered)
    rw [queue]
    exact ⟨k', le, Or.inr present⟩
  · rintro _ _ _ _ ⟨⟩
  · rintro _ ⟨⟩
  · rintro _ _ ⟨⟩
  · rintro _ _ ⟨⟩
  · rintro _ _ ⟨⟩

/-- One more node is settled, and others are offered with the origin they share. -/
theorem next (draining : Draining first origin source s F t f F' keys least) {n : NodeId} {d : Int}
    {rest : MinQueue} (pop : f.queue.popMin = some ((n, d), rest))
    (later : Advanced first origin (fun v => v = source ∨ Open first s F v) s F r F'')
    (grown : t.network.Grown (fun v => first.HasStart v ∧ v ∉ F') r.network) (more : F' ⊆ F'')
    (candidates : List (NodeId × Int × Option NodeId))
    (sound : ∀ m k o, (m, k, o) ∈ candidates → m < first.nodeCount ∧
      (settled f rest n).settled.getD m false = false ∧ d ≤ k ∧ o = origin source)
    (complete : d < 0 → ∀ m w, r.network.extension? m n (origin source) = some w →
      m < first.nodeCount ∧ ((settled f rest n).settled.getD m false = false →
        (m, d + w, origin source) ∈ candidates))
    (back : n = source → 0 ≤ d)
    (edge : 0 ≤ d → n ≠ source → ∃ e, r.network.ordinary? n source = some e ∧ e ≤ d)
    (treated : d < 0 → first.HasStart n → n ∈ F'') :
    Draining first origin source s F r ((settled f rest n).offerAll candidates) F''
      (settleKey keys n d) d := by
  obtain ⟨⟨_, same, start⟩, traced⟩ := draining.traced.pop pop (settled f rest n).settled
  have start' : ∃ u w o', t.network.Start source u w o' ∧ w ≤ d := by
    simpa only [draining.advanced.progress.grown.start_iff] using start
  refine ⟨later, ?_, traced.offerAll fun m k o mem => ?_, ?_, fun u k known negative starts => ?_⟩
  · rw [Frontier.queue_offerAll, Frontier.settled_offerAll]
    refine draining.front.advance pop _ fun m k mem => ?_
    obtain ⟨⟨m, k, o⟩, listed, same⟩ := List.mem_map.mp mem
    cases same
    obtain ⟨inside, fresh, le, _⟩ := sound m k o listed
    exact ⟨inside, fresh, le⟩
  · obtain ⟨inside, _, le, same⟩ := sound m k o mem
    obtain ⟨u, w, o', start, below⟩ := start
    exact ⟨inside, same, u, w, o', start, below.trans le⟩
  · rw [Frontier.queue_offerAll]
    refine draining.explored.settle draining.front pop _ grown ?_ (fun negative m w weight => ?_) back
      edge start'
    · rintro u k known negative ⟨starts, fresh⟩
      exact fresh (draining.treated u k known negative starts)
    · obtain ⟨inside, offered⟩ := complete negative m w weight
      exact ⟨inside, fun fresh => List.mem_map.mpr ⟨_, offered fresh, rfl⟩⟩
  · rcases SearchFront.settleKey_cases known with ⟨rfl, rfl⟩ | known
    · exact treated negative starts
    · exact more (draining.treated u k known negative starts)

section settle

variable {n : NodeId} {d : Int} {rest : MinQueue}
  (draining : Draining first origin source s F t f F' keys least)
  (pop : f.queue.popMin = some ((n, d), rest))

include draining pop in
theorem inside : n < first.nodeCount := (draining.traced.pop pop f.settled).1.1

include draining pop in
theorem back (same : n = source) (nonneg : 0 ≤ d) :
    Draining first origin source s F t (settled f rest n) F' (settleKey keys n d) d :=
  draining.next pop draining.advanced (.refl _ _) (List.Subset.refl _) [] nofun
    (fun negative => absurd negative (not_lt.mpr nonneg)) (fun _ => nonneg)
    (fun _ other => absurd same other) fun negative => absurd negative (not_lt.mpr nonneg)

include draining pop in
/-- The edge that a path becomes leads into the node itself. -/
theorem far (inside : source < first.nodeCount) (starts : first.HasStart source)
    (waits : Waits s source) (apart : n ≠ source) (nonneg : 0 ≤ d) (finite : Value.IsFinite d) :
    Draining first origin source s F (derived t n source d) (settled f rest n) F'
      (settleKey keys n d) d := by
  have advanced := draining.advanced
  have wf := advanced.progress.wellFormed
  have hn := draining.inside pop
  rw [← advanced.progress.grown.tightened.nodeCount] at hn inside
  have bound := Network.bound_tighten wf hn inside d n source
  rw [if_pos ⟨rfl, rfl⟩] at bound
  have le : (derived t n source d).network.bound n source ≤ d := bound.trans_le (min_le_left _ _)
  have grown := Network.grown_tighten wf hn inside finite.2 nonneg
  have grown' : t.network.Grown (fun v => first.HasStart v ∧ v ∉ F')
      (derived t n source d).network := grown.mono fun v same => by
    rw [same]
    exact ⟨starts, advanced.notMem waits⟩
  refine draining.next pop (r := derived t n source d) ⟨?_, advanced.suffix,
    advanced.grown.trans (grown.mono fun v => Or.inl), advanced.waiting⟩ grown' (List.Subset.refl _)
    [] nofun (fun negative => absurd negative (not_lt.mpr nonneg)) (fun same => absurd same apart)
    (fun _ _ => ⟨_, Network.ordinary?_eq_some_iff.mpr ⟨rfl, (le.trans_lt finite.2).ne⟩, le⟩)
    fun negative => absurd negative (not_lt.mpr nonneg)
  exact advanced.progress.grow (wf.tighten hn inside d) grown' rfl

include draining pop in
theorem near (visited : Advanced first origin (Open first t F') t F' r F'')
    (treated : first.HasStart n → n ∈ F'') (apart : n ≠ source) (negative : d < 0) :
    Draining first origin source s F r ((settled f rest n).extend r.network n d) F''
      (settleKey keys n d) d := by
  obtain ⟨⟨hn, same, _⟩, _⟩ := draining.traced.pop pop f.settled
  have advanced := draining.advanced
  have later := advanced.trans visited fun v isOpen => Or.inr (advanced.isOpen isOpen)
  have wf := later.progress.wellFormed
  have nodeCount := later.progress.grown.tightened.nodeCount
  rw [← nodeCount] at hn
  have mem : ∀ {m k o}, (m, k, o) ∈ Frontier.extensions r.network (settled f rest n).settled
      (f.origins.getD n none) n d ↔ (settled f rest n).settled.getD m false = false ∧
        ∃ w, r.network.extension? m n (f.origins.getD n none) = some w ∧ k = d + w ∧
          o = f.origins.getD n none := Frontier.mem_extensions wf hn
  rw [same] at mem
  have range : ∀ {m w}, r.network.extension? m n (origin source) = some w →
      m < first.nodeCount := by
    intro m w weight
    rw [← nodeCount]
    exact (Network.lt_of_extension? wf weight).1
  rw [Frontier.extend_eq, show (settled f rest n).origins.getD n none = origin source from same]
  refine draining.next pop later (visited.grown.mono fun v isOpen => ⟨isOpen.1, isOpen.2.1⟩)
    visited.suffix.subset _ (fun m k o offered => ?_)
    (fun _ m w weight => ⟨range weight, fun unmarked => mem.mpr ⟨unmarked, w, weight, rfl, rfl⟩⟩)
    (fun same => absurd same apart) (fun nonneg => absurd negative (not_lt.mpr nonneg))
    fun _ => treated
  obtain ⟨unmarked, w, weight, rfl, rfl⟩ := mem.mp offered
  have := (Network.extension?_cases weight).1
  exact ⟨range weight, unmarked, by linarith, rfl⟩

end settle

end Draining

/-- What a run to the end of a back-propagation finds, if the nodes it visits are treated. -/
theorem drain_explores {visit : NodeId → NodeRun Unit}
    (uniform : ∀ s u w o, first.Start s u w o → o = origin s)
    (visits : ∀ n t F', n < first.nodeCount → first.HasStart n →
      Advanced first origin (fun v => v = source ∨ Open first s F v) s F t F' →
      Ends (visit n) t (fun _ t' => ∃ F'', Advanced first origin (Open first t F') t F' t' F'' ∧
        n ∈ F'') fun _ _ => True)
    (progress : Progress first origin s F) (inside : source < first.nodeCount)
    (starts : first.HasStart source) (waits : Waits s source) :
    Ends (drain visit source (s.network.nodeCount + 1) (Frontier.ofSource s.network source)) s
      (fun _ t => ∃ F' keys,
        Advanced first origin (fun v => v = source ∨ Open first s F v) s F t F' ∧
          Explored t.network source (origin source) keys .empty ∧
          ∀ u d, keys u = some d → d < 0 → first.HasStart u → u ∈ F')
      fun _ _ => True := by
  obtain ⟨least, start⟩ := Draining.start uniform progress inside
  -- The fuel exceeds the nodes that are not settled, so the drain ends with an empty queue.
  refine drain_ends (I := fun fuel t f => unsettled f.settled < fuel ∧
    ∃ F' keys least, Draining first origin source s F t f F' keys least) (fun _ _ => trivial)
    (fun _ _ holds => absurd holds.1 (Nat.not_lt_zero _)) ?_ ?_ ?_ ?_ _ s _ ⟨?_, F, _, least, start⟩
  · rintro _ t f ⟨_, F', keys, least, draining⟩ done
    exact ⟨F', keys, draining.advanced, draining.explored.finish draining.front done,
      draining.treated⟩
  · rintro fuel t f d rest ⟨enough, F', keys, least, draining⟩ pop
    have fewer : unsettled (settled f rest source).settled + 1 = _ :=
      draining.front.unsettled_lt pop
    split
    · rename_i nonneg
      exact ⟨by omega, F', _, d, draining.back pop rfl nonneg⟩
    · trivial
  · rintro fuel t f n d rest ⟨enough, F', keys, least, draining⟩ pop apart nonneg finite
    have fewer : unsettled (settled f rest n).settled + 1 = _ := draining.front.unsettled_lt pop
    exact ⟨by omega, F', _, d, draining.far pop inside starts waits apart nonneg finite⟩
  · rintro fuel t f n d rest ⟨enough, F', keys, least, draining⟩ pop apart negative
    have fewer : unsettled (settled f rest n).settled + 1 = _ := draining.front.unsettled_lt pop
    have same : ∀ r : StnuRun NodeStatus, ((settled f rest n).extend r.network n d).settled =
        (settled f rest n).settled := fun r => by
      rw [Frontier.extend_eq, Frontier.settled_offerAll]
    have progress' := draining.advanced.progress
    have hn : n < t.network.nodeCount := by
      rw [progress'.grown.tightened.nodeCount]
      exact draining.inside pop
    have negativeIn := Network.hasNegativeInEdge_iff progress'.wellFormed hn
    change _ ↔ t.network.HasStart n at negativeIn
    rw [progress'.grown.hasStart_iff] at negativeIn
    split
    · rename_i has
      refine (visits n t F' (draining.inside pop) (negativeIn.mp has) draining.advanced).mono ?_
        fun _ _ _ => trivial
      rintro _ r ⟨F'', visited, treated⟩
      exact ⟨by rw [same]; omega, F'', _, d, draining.near pop visited (fun _ => treated) apart negative⟩
    · rename_i none
      exact ⟨by rw [same]; omega, F', _, d, draining.near pop (.refl progress' _)
        (fun has => absurd (negativeIn.mpr has) none) apart negative⟩
  · rw [Frontier.ofSource_eq, Frontier.settled_offerAll, Frontier.blank]
    simp [unsettled, Array.countP_replicate]

theorem card_unvisited_le (s : StnuRun NodeStatus) : (unvisited s).card ≤ s.statuses.size :=
  (Finset.card_filter_le _ _).trans_eq (Finset.card_range _)

theorem card_unvisited_begun (within : source < s.statuses.size)
    (notDone : s.statuses[source]? ≠ some .done) (notWaiting : ¬ Waits s source) :
    (unvisited (begun s source)).card < (unvisited s).card := by
  refine Finset.card_lt_card ((Finset.ssubset_iff_of_subset fun p mem => ?_).mpr ⟨source, ?_, ?_⟩)
  · obtain ⟨inside, status⟩ := Finset.mem_filter.mp mem
    rw [statuses_begun within] at status
    split at status
    · cases status
    · rw [begun, Array.size_setIfInBounds] at inside
      exact Finset.mem_filter.mpr ⟨inside, status⟩
  · refine Finset.mem_filter.mpr ⟨Finset.mem_range.mpr within, ?_⟩
    rw [Waits] at notWaiting
    rw [Array.getElem?_eq_getElem within] at notDone notWaiting ⊢
    cases status : s.statuses[source] with
    | unvisited => rfl
    | inProgress => exact absurd (congrArg some status) notWaiting
    | done => exact absurd (congrArg some status) notDone
  · intro mem
    have status := (Finset.mem_filter.mp mem).2
    rw [statuses_begun within, if_pos rfl] at status
    cases status

theorem backPropagate_explores (uniform : ∀ s u w o, first.Start s u w o → o = origin s)
    (stops : Polls) (depth : Nat) (source : NodeId) (s : StnuRun NodeStatus) (F : List NodeId)
    (progress : Progress first origin s F) (inside : source < first.nodeCount)
    (starts : first.HasStart source) (enough : (unvisited s).card < depth) :
    Ends (backPropagate stops depth source) s
      (fun _ t => ∃ F', Advanced first origin (Open first s F) s F t F' ∧ source ∈ F')
      fun _ _ => True := by
  induction depth generalizing source s F with
  | zero => exact absurd enough (Nat.not_lt_zero _)
  | succ depth ih =>
    refine backPropagate_ends (fun _ => trivial)
      (fun done => ⟨F, .refl progress _, (progress.done source).mp done⟩) (fun _ => trivial)
      fun notDone notWaiting => ?_
    have fresh : source ∉ F := fun mem => notDone ((progress.done source).mpr mem)
    have within := progress.lt_size inside
    have progress' := progress.begun inside fresh
    have waits : Waits (begun s source) source := by rw [Waits, statuses_begun within, if_pos rfl]
    have waits_iff : ∀ p, p ≠ source → (Waits (begun s source) p ↔ Waits s p) := by
      intro p other
      rw [Waits, statuses_begun within, if_neg other, Waits]
    -- The nodes visited on the way are treated by the induction: the source is no longer unvisited.
    refine (drain_explores uniform ?_ progress' inside starts waits).mono ?_ fun _ _ _ => trivial
    · intro n t F' hn starts' advanced
      refine ih n t F' advanced.progress hn starts' ?_
      have := Finset.card_le_card (advanced.unvisited_subset progress')
      have := card_unvisited_begun within notDone notWaiting
      omega
    · rintro _ t ⟨F', keys, advanced, explored, treated⟩
      have fresh' := advanced.notMem waits
      refine ⟨source :: F', ⟨advanced.progress.ended inside fresh' explored treated,
        advanced.suffix.trans (List.suffix_cons _ _), advanced.grown.mono ?_, fun p => ?_⟩,
        List.mem_cons_self⟩
      · rintro v (rfl | ⟨starts', fresh'', notWaiting'⟩)
        · exact ⟨starts, fresh, notWaiting⟩
        · by_cases same : v = source
          · rw [same]
            exact ⟨starts, fresh, notWaiting⟩
          · exact ⟨starts', fresh'', by rwa [← waits_iff v same]⟩
      · rw [Waits, statuses_ended (advanced.progress.lt_size inside)]
        split
        · rename_i same
          rw [same]
          exact iff_of_false nofun notWaiting
        · rename_i other
          exact (advanced.waiting p).trans (waits_iff p other)

theorem processAll_explores (stops : Polls) (wf : s.network.WellFormed)
    (size : s.statuses.size = s.network.nodeCount)
    (unvisited : ∀ p < s.network.nodeCount, s.statuses[p]? = some .unvisited)
    (uniform : ∀ n u w o, s.network.Start n u w o → o = origin n) :
    Ends (processAll stops) s
      (fun _ t => ∃ F, Progress s.network origin t F ∧ ∀ n, s.network.HasStart n → n ∈ F)
      fun _ _ => True := by
  have progress : Progress s.network origin s [] := by
    refine ⟨wf, size, .refl _ _, fun n => iff_of_false (fun done => ?_) List.not_mem_nil,
      List.nodup_nil, fun n before suffix => ?_⟩
    · obtain ⟨inside, _⟩ := Array.getElem?_eq_some_iff.mp done
      rw [unvisited n (size ▸ inside)] at done
      cases done
    · cases List.suffix_nil.mp suffix
  -- Never more nodes are unvisited than there are, so the depth never decides.
  have range : ∀ t F, Advanced s.network origin (Open s.network s []) s [] t F →
      (NodeRun.unvisited t).card < s.network.nodeCount + 1 := by
    intro t F advanced
    have bounded := card_unvisited_le t
    rw [advanced.progress.size, advanced.progress.grown.tightened.nodeCount] at bounded
    exact Nat.lt_succ_of_le bounded
  unfold processAll
  rw [ends_bind]
  change Ends (List.forM _ _) s _ _
  refine (ends_forM (fun todo t => ∃ F, Advanced s.network origin (Open s.network s []) s [] t F ∧
    (∀ n ∈ todo, n < s.network.nodeCount ∧ s.network.HasStart n) ∧
      ∀ n, s.network.HasStart n → n ∈ F ∨ n ∈ todo) ?_ _ s
    ⟨[], .refl progress _, fun n mem => ?_, fun n starts => Or.inr ?_⟩).mono ?_ fun _ _ h => h
  · rintro n rest t ⟨F, advanced, todo, covered⟩
    obtain ⟨inside, starts⟩ := todo n List.mem_cons_self
    refine (backPropagate_explores uniform stops _ n t F advanced.progress inside starts
      (range t F advanced)).mono ?_ fun _ _ h => h
    rintro _ t' ⟨F', advanced', treated⟩
    refine ⟨F', advanced.trans advanced' fun v isOpen => advanced.isOpen isOpen,
      fun m mem => todo m (List.mem_cons_of_mem _ mem), fun m starts' => ?_⟩
    rcases covered m starts' with done | waiting
    · exact Or.inl (advanced'.suffix.subset done)
    · rcases List.mem_cons.mp waiting with rfl | later
      · exact Or.inl treated
      · exact Or.inr later
  · obtain ⟨inside, negative⟩ := List.mem_filter.mp mem
    have inside' := List.mem_range.mp inside
    exact ⟨inside', (Network.hasNegativeInEdge_iff wf inside').mp negative⟩
  · obtain ⟨u, w, o, start⟩ := starts
    have inside := (start.lt wf).2
    exact List.mem_filter.mpr ⟨List.mem_range.mpr inside,
      (Network.hasNegativeInEdge_iff wf inside).mpr ⟨u, w, o, start⟩⟩
  · rintro _ t ⟨F, advanced, _, covered⟩
    exact ⟨F, advanced.progress, fun n starts => (covered n starts).resolve_right List.not_mem_nil⟩

end NodeRun

end TemporalNetwork
