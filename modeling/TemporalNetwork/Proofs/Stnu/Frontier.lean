import TemporalNetwork.Proofs.Queue.MinQueue
import TemporalNetwork.Proofs.Stnu.Weights
import TemporalNetwork.Stnu.NegativeEdge

/-!
The frontier of a back-propagation from a node: what is offered to it at the start, and when a node is
passed. A waiting node keeps the contingent node of the upper-case edge its path ends with.
-/

namespace TemporalNetwork

namespace Network

variable {g : PlainNetwork} {s u v : NodeId} {w : Value} {o : Option NodeId}

/-- The negative edges into a node; an upper-case edge comes with its contingent node. -/
inductive Start (g : PlainNetwork) (s : NodeId) : NodeId → Value → Option NodeId → Prop
  | ordinary {u : NodeId} {w : Value} (weight : g.ordinary? u s = some w) (negative : w < 0) :
    Start g s u w none
  | upper {u c : NodeId} {w : Value} (held : g.case? u s = some ⟨.upper, c, w⟩) (negative : w < 0) :
    Start g s u w (some c)

theorem Start.negative (start : g.Start s u w o) : w < 0 := by
  cases start with
  | ordinary _ negative => exact negative
  | upper _ negative => exact negative

theorem start_iff : g.Start s u w o ↔
    ∃ edge, g.edgeBetween? u s = some edge ∧ (w, o) ∈ edge.negativeStarts := by
  have members : ∀ edge : PlainEdge, (w, o) ∈ edge.negativeStarts ↔
      o = none ∧ edge.value? = some w ∧ w < 0 ∨
        ∃ c, o = some c ∧ edge.case = some ⟨.upper, c, w⟩ ∧ w < 0 := by
    intro edge
    rw [PlainEdge.negativeStarts, List.mem_append, Option.mem_toList, Option.mem_toList,
      Option.map_eq_some_iff, Option.map_eq_some_iff]
    refine or_congr ⟨?_, ?_⟩ ⟨?_, ?_⟩
    · rintro ⟨x, found, same⟩
      obtain ⟨found, negative⟩ := Option.filter_eq_some_iff.mp found
      cases same
      exact ⟨rfl, found, by simpa using negative⟩
    · rintro ⟨rfl, found, negative⟩
      exact ⟨w, Option.filter_eq_some_iff.mpr ⟨found, by simpa using negative⟩, rfl⟩
    · rintro ⟨c, found, same⟩
      obtain ⟨found, negative⟩ := Option.filter_eq_some_iff.mp found
      obtain ⟨found, upper⟩ := Option.filter_eq_some_iff.mp found
      obtain ⟨kind, contingent, value⟩ := c
      obtain rfl : kind = .upper := by simpa using upper
      cases same
      exact ⟨contingent, rfl, found, by simpa using negative⟩
    · rintro ⟨c, rfl, found, negative⟩
      refine ⟨⟨.upper, c, w⟩, Option.filter_eq_some_iff.mpr ⟨?_, by simpa using negative⟩, rfl⟩
      exact Option.filter_eq_some_iff.mpr ⟨found, rfl⟩
  simp only [members]
  constructor
  · intro start
    cases start with
    | ordinary weight negative =>
      rw [← bind_value?] at weight
      obtain ⟨edge, joined, stored⟩ := Option.bind_eq_some_iff.mp weight
      exact ⟨edge, joined, Or.inl ⟨rfl, stored, negative⟩⟩
    | upper held negative =>
      obtain ⟨edge, joined, stored⟩ := Option.bind_eq_some_iff.mp held
      exact ⟨edge, joined, Or.inr ⟨_, rfl, stored, negative⟩⟩
  · rintro ⟨edge, joined, ⟨rfl, stored, negative⟩ | ⟨c, rfl, stored, negative⟩⟩
    · exact .ordinary (by rw [← bind_value?, joined, Option.bind_some, stored]) negative
    · exact .upper (by rw [case?, joined, Option.bind_some, stored]) negative

theorem Start.lt (wf : g.WellFormed) (start : g.Start s u w o) :
    u < g.nodeCount ∧ s < g.nodeCount := by
  obtain ⟨edge, joined, _⟩ := start_iff.mp start
  exact wf.lt_of_edgeBetween? joined

theorem hasNegativeInEdge_iff (wf : g.WellFormed) {n : NodeId} (hn : n < g.nodeCount) :
    g.hasNegativeInEdge n = true ↔ ∃ u w o, g.Start n u w o := by
  simp only [hasNegativeInEdge, List.any_eq_true, Prod.exists, wf.mem_inEdges hn, start_iff]
  constructor
  · rintro ⟨u, e, found, negative⟩
    obtain ⟨edge, stored, nonempty⟩ := (Option.any_eq_true _ _).mp negative
    obtain ⟨⟨w, o⟩, mem⟩ := List.exists_mem_of_ne_nil edge.negativeStarts (by simpa using nonempty)
    exact ⟨u, w, o, edge, by rw [edgeBetween?, found, Option.bind_some, stored], mem⟩
  · rintro ⟨u, w, o, edge, joined, mem⟩
    obtain ⟨e, found, stored⟩ := Option.bind_eq_some_iff.mp joined
    refine ⟨u, e, found, (Option.any_eq_true _ _).mpr ⟨edge, stored, ?_⟩⟩
    simpa using List.ne_nil_of_mem mem

/-- The value with which the edge from `v` to `u` extends a path that ends with the upper-case edge of
`o`. -/
def extension? (g : PlainNetwork) (v u : NodeId) (o : Option NodeId) : Option Value :=
  (g.edgeBetween? v u).bind fun edge => edge.extension? o

theorem extension?_eq (g : PlainNetwork) (v u : NodeId) (o : Option NodeId) :
    g.extension? v u o = PlainEdge.lesser ((g.ordinary? v u).filter (0 ≤ ·))
      ((((g.case? v u).filter fun c => c.kind == .lower).filter
        fun c => 0 ≤ c.value ∧ some c.contingent ≠ o).map CaseValue.value) := by
  rw [extension?, ← bind_value?, case?]
  cases g.edgeBetween? v u <;> rfl

theorem extension?_cases (h : g.extension? v u o = some w) : 0 ≤ w ∧
    (g.ordinary? v u = some w ∨ ∃ c, g.case? v u = some ⟨.lower, c, w⟩ ∧ some c ≠ o) := by
  rw [extension?_eq] at h
  rcases PlainEdge.lesser_cases h with ordinary | lower
  · obtain ⟨weight, nonneg⟩ := Option.filter_eq_some_iff.mp ordinary
    exact ⟨by simpa using nonneg, Or.inl weight⟩
  · obtain ⟨c, held, rfl⟩ := Option.map_eq_some_iff.mp lower
    obtain ⟨held, allowed⟩ := Option.filter_eq_some_iff.mp held
    obtain ⟨held, kind⟩ := Option.filter_eq_some_iff.mp held
    obtain ⟨kind', contingent, value⟩ := c
    obtain rfl : kind' = .lower := by simpa using kind
    have allowed' : 0 ≤ value ∧ some contingent ≠ o := by simpa using allowed
    exact ⟨allowed'.1, Or.inr ⟨contingent, held, allowed'.2⟩⟩

theorem extension?_le_of_ordinary {x : Value} (weight : g.ordinary? v u = some x) (nonneg : 0 ≤ x)
    (o : Option NodeId) : ∃ w, g.extension? v u o = some w ∧ w ≤ x := by
  rw [extension?_eq]
  exact PlainEdge.lesser_le_left
    (Option.filter_eq_some_iff.mpr ⟨weight, by simpa using nonneg⟩)

theorem extension?_le_of_lower {c : NodeId} {x : Value} (held : g.case? v u = some ⟨.lower, c, x⟩)
    (nonneg : 0 ≤ x) (other : some c ≠ o) : ∃ w, g.extension? v u o = some w ∧ w ≤ x := by
  rw [extension?_eq]
  refine PlainEdge.lesser_le_right (Option.map_eq_some_iff.mpr ⟨⟨.lower, c, x⟩, ?_, rfl⟩)
  refine Option.filter_eq_some_iff.mpr ⟨Option.filter_eq_some_iff.mpr ⟨held, rfl⟩, ?_⟩
  simpa using And.intro nonneg other

theorem lt_of_extension? (wf : g.WellFormed) (h : g.extension? v u o = some w) :
    v < g.nodeCount ∧ u < g.nodeCount := by
  obtain ⟨edge, joined, _⟩ := Option.bind_eq_some_iff.mp h
  exact wf.lt_of_edgeBetween? joined

end Network

namespace Frontier

/-- Offers one node after the other, each with a distance and an origin. -/
def offerAll (f : Frontier) (candidates : List (NodeId × Int × Option NodeId)) : Frontier :=
  candidates.foldl (fun f c => f.offer c.1 c.2.1 c.2.2) f

variable {f : Frontier} {candidates : List (NodeId × Int × Option NodeId)} {n : NodeId} {k : Int}
  {o : Option NodeId}

theorem queue_offer (f : Frontier) (n : NodeId) (k : Int) (o : Option NodeId) :
    (f.offer n k o).queue = (f.queue.insertOrDecrease n k).1 := by
  unfold offer
  dsimp only
  split <;> rfl

theorem settled_offer (f : Frontier) (n : NodeId) (k : Int) (o : Option NodeId) :
    (f.offer n k o).settled = f.settled := by
  unfold offer
  dsimp only
  split <;> rfl

theorem size_origins_offer (f : Frontier) (n : NodeId) (k : Int) (o : Option NodeId) :
    (f.offer n k o).origins.size = f.origins.size := by
  unfold offer
  dsimp only
  split
  · exact Array.size_setIfInBounds
  · rfl

theorem queue_offerAll (f : Frontier) (candidates : List (NodeId × Int × Option NodeId)) :
    (f.offerAll candidates).queue = f.queue.offer (candidates.map fun c => (c.1, c.2.1)) := by
  induction candidates generalizing f with
  | nil => rfl
  | cons c rest ih =>
    rw [List.map_cons, MinQueue.offer, List.foldl_cons, ← queue_offer f c.1 c.2.1 c.2.2]
    exact ih _

theorem settled_offerAll (f : Frontier) (candidates : List (NodeId × Int × Option NodeId)) :
    (f.offerAll candidates).settled = f.settled := by
  induction candidates generalizing f with
  | nil => rfl
  | cons c rest ih => exact (ih _).trans (settled_offer f c.1 c.2.1 c.2.2)

/-- The waiting nodes have paths of which something is known, which may depend on their origins. -/
structure Traced (f : Frontier) (size : Nat) (holds : NodeId → Int → Option NodeId → Prop) : Prop where
  wellFormed : f.queue.WellFormed
  size_origins : f.origins.size = size
  waiting : ∀ n k, f.queue.value? n = some k → n < size ∧ holds n k (f.origins.getD n none)

namespace Traced

variable {size : Nat} {holds : NodeId → Int → Option NodeId → Prop}

theorem offer (traced : f.Traced size holds) (hn : n < size) (known : holds n k o) :
    (f.offer n k o).Traced size holds := by
  obtain ⟨wf, value, changed⟩ := MinQueue.insertOrDecrease_spec traced.wellFormed n k
  refine ⟨(queue_offer f n k o).symm ▸ wf, (size_origins_offer f n k o).trans traced.size_origins,
    fun m d waits => ?_⟩
  rw [queue_offer, value] at waits
  have kept : m ≠ n ∨ (f.queue.insertOrDecrease n k).2 = false →
      (f.offer n k o).origins.getD m none = f.origins.getD m none := by
    intro other
    unfold Frontier.offer
    dsimp only
    split
    · rename_i lowered
      have apart : n ≠ m := by
        rcases other with apart | same
        · exact apart.symm
        · rw [lowered] at same
          cases same
      simp only [Array.getD_eq_getD_getElem?, Array.getElem?_setIfInBounds_ne apart]
    · rfl
  by_cases lowered : (f.queue.insertOrDecrease n k).2 = true
  · split at waits
    · rename_i same
      subst same
      refine ⟨hn, ?_⟩
      have new : (f.offer m k o).origins.getD m none = o := by
        unfold Frontier.offer
        dsimp only
        rw [if_pos lowered]
        dsimp only
        rw [Array.getD_eq_getD_getElem?, Array.getElem?_setIfInBounds_self_of_lt
          (by rwa [traced.size_origins]), Option.getD_some]
      obtain rfl : d = k := by
        have less := changed.mp lowered
        cases old : f.queue.value? m with
        | none =>
          rw [old, Option.getD_none, min_self] at waits
          exact (Option.some.inj waits).symm
        | some before =>
          rw [old, Option.getD_some, min_eq_left (less before old).le] at waits
          exact (Option.some.inj waits).symm
      rwa [new]
    · rename_i other
      rw [kept (Or.inl other)]
      exact traced.waiting m d waits
  · rw [kept (Or.inr (by simpa using lowered))]
    refine traced.waiting m d ?_
    split at waits
    · rename_i same
      subst same
      rw [changed] at lowered
      push Not at lowered
      obtain ⟨before, old, le⟩ := lowered
      rw [old, Option.getD_some, min_eq_right le] at waits
      rw [old, waits]
    · exact waits

theorem offerAll (traced : f.Traced size holds)
    (known : ∀ n k o, (n, k, o) ∈ candidates → n < size ∧ holds n k o) :
    (f.offerAll candidates).Traced size holds := by
  induction candidates generalizing f with
  | nil => exact traced
  | cons c rest ih =>
    obtain ⟨hn, here⟩ := known c.1 c.2.1 c.2.2 List.mem_cons_self
    exact ih (traced.offer hn here) fun n k o mem => known n k o (List.mem_cons_of_mem _ mem)

theorem pop (traced : f.Traced size holds) {rest : MinQueue}
    (popped : f.queue.popMin = some ((n, k), rest)) (settled : Array Bool) :
    (n < size ∧ holds n k (f.origins.getD n none)) ∧
      Traced { f with queue := rest, settled := settled } size holds := by
  obtain ⟨value, _, wf, values⟩ := MinQueue.popMin_spec traced.wellFormed popped
  refine ⟨traced.waiting n k value, wf, traced.size_origins, fun m d waits => ?_⟩
  dsimp only at waits
  rw [values] at waits
  split at waits
  · cases waits
  · exact traced.waiting m d waits

end Traced

/-- A frontier of a network on which nothing has been offered. -/
def blank (size : Nat) : Frontier := ⟨.empty, Array.replicate size false, Array.replicate size none⟩

theorem traced_blank (size : Nat) (holds : NodeId → Int → Option NodeId → Prop) :
    (blank size).Traced size holds := by
  refine ⟨MinQueue.wellFormed_empty, Array.size_replicate, fun n k waits => ?_⟩
  rw [blank, MinQueue.value?_empty] at waits
  cases waits

/-- What is offered at the start of the back-propagation of a node. -/
def startsInto (g : PlainNetwork) (s : NodeId) : List (NodeId × Int × Option NodeId) :=
  (g.inEdges s).flatMap fun (n, e) =>
    (((g.edge? e).map PlainEdge.negativeStarts).getD []).map fun (v, origin) => (n, v, origin)

theorem ofSource_eq (g : PlainNetwork) (s : NodeId) :
    ofSource g s = (blank g.nodeCount).offerAll (startsInto g s) := by
  rw [ofSource, offerAll, startsInto, List.foldl_flatMap, blank]
  congr 1
  funext f c
  rw [List.foldl_map]

theorem mem_startsInto {g : PlainNetwork} (wf : g.WellFormed) {s : NodeId} (hs : s < g.nodeCount) :
    (n, k, o) ∈ startsInto g s ↔ g.Start s n k o := by
  rw [Network.start_iff]
  simp only [startsInto, List.mem_flatMap, Prod.exists, wf.mem_inEdges hs, List.mem_map,
    Prod.mk.injEq]
  constructor
  · rintro ⟨u, e, found, v, origin, mem, rfl, rfl, rfl⟩
    cases stored : g.edge? e with
    | none => simp [stored] at mem
    | some edge =>
      rw [stored, Option.map_some, Option.getD_some] at mem
      exact ⟨edge, by rw [Network.edgeBetween?, found, Option.bind_some, stored], mem⟩
  · rintro ⟨edge, joined, mem⟩
    obtain ⟨e, found, stored⟩ := Option.bind_eq_some_iff.mp joined
    exact ⟨n, e, found, k, o, by rwa [stored, Option.map_some, Option.getD_some], rfl, rfl, rfl⟩

/-- What is offered when a node is passed. -/
def extensions (g : PlainNetwork) (settled : Array Bool) (o : Option NodeId) (n : NodeId) (d : Int) :
    List (NodeId × Int × Option NodeId) :=
  (g.inEdges n).filterMap fun (m, e) =>
    if settled.getD m false then none
    else ((g.edge? e).bind fun edge => edge.extension? o).map fun w => (m, d + w, o)

/-- Steps that offer at most one node each, as long as the same nodes are settled. -/
theorem foldl_eq_offerAll {α : Type} {marks : Array Bool} (step : Frontier → α → Frontier)
    (candidate? : α → Option (NodeId × Int × Option NodeId))
    (same : ∀ f c, f.settled = marks → step f c = f.offerAll (candidate? c).toList) (cs : List α)
    (f : Frontier) (marked : f.settled = marks) :
    cs.foldl step f = f.offerAll (cs.filterMap candidate?) := by
  induction cs generalizing f with
  | nil => rfl
  | cons c rest ih =>
    rw [List.foldl_cons, same f c marked, ih _ ((settled_offerAll f _).trans marked),
      List.filterMap_cons]
    cases candidate? c <;> rfl

theorem extend_eq (f : Frontier) (g : PlainNetwork) (n : NodeId) (d : Int) :
    f.extend g n d = f.offerAll (extensions g f.settled (f.origins.getD n none) n d) := by
  refine foldl_eq_offerAll _ _ (fun f' c marked => ?_) (g.inEdges n) f rfl
  obtain ⟨m, e⟩ := c
  dsimp only
  rw [marked]
  cases f.settled.getD m false with
  | true => rfl
  | false =>
    rw [if_neg Bool.false_ne_true, if_neg Bool.false_ne_true]
    cases (g.edge? e).bind fun edge => edge.extension? (f.origins.getD n none) <;> rfl

theorem mem_extensions {g : PlainNetwork} (wf : g.WellFormed) {settled : Array Bool} {m : NodeId}
    {d : Int} {o' : Option NodeId} (hn : n < g.nodeCount) :
    (m, k, o') ∈ extensions g settled o n d ↔ settled.getD m false = false ∧
      ∃ w, g.extension? m n o = some w ∧ k = d + w ∧ o' = o := by
  simp only [extensions, List.mem_filterMap, Prod.exists, wf.mem_inEdges hn]
  constructor
  · rintro ⟨u, e, found, offered⟩
    split at offered
    · cases offered
    · rename_i unmarked
      obtain ⟨w, weight, same⟩ := Option.map_eq_some_iff.mp offered
      cases same
      refine ⟨by simpa using unmarked, w, ?_, rfl, rfl⟩
      rw [Network.extension?, Network.edgeBetween?, found]
      exact weight
  · rintro ⟨unmarked, w, weight, rfl, rfl⟩
    obtain ⟨edge, joined, prolongs⟩ := Option.bind_eq_some_iff.mp weight
    obtain ⟨e, found, stored⟩ := Option.bind_eq_some_iff.mp joined
    refine ⟨m, e, found, ?_⟩
    rw [unmarked, if_neg Bool.false_ne_true, stored, Option.bind_some, prolongs, Option.map_some]

end Frontier

end TemporalNetwork
