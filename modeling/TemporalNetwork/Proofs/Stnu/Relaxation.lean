import Mathlib.Data.Finset.Card
import Mathlib.Data.Finset.Order
import Mathlib.Data.Int.ConditionallyCompleteOrder
import Mathlib.Order.ConditionallyCompleteLattice.Basic
import TemporalNetwork.Proofs.Runs
import TemporalNetwork.Proofs.Stnu.Weights

/-!
The greatest potential. Relaxation from zero ends in the greatest of the valid potentials that are
not positive, and it comes to rest within its rounds whenever there is a valid potential: as long as
some distance is above the greatest potential, each round brings a further one down to it.
-/

namespace TemporalNetwork

namespace Network

variable {g h k : PlainNetwork}

/-- Networks that differ in their nodes only. -/
structure SameEdges (g h : PlainNetwork) : Prop where
  adjacency : h.adjacency = g.adjacency
  slots : h.slots = g.slots
  free : h.free = g.free
  nodeCount : h.nodeCount = g.nodeCount

namespace SameEdges

theorem refl (g : PlainNetwork) : g.SameEdges g := ⟨rfl, rfl, rfl, rfl⟩

theorem trans (first : g.SameEdges h) (second : h.SameEdges k) : g.SameEdges k :=
  ⟨second.adjacency.trans first.adjacency, second.slots.trans first.slots,
    second.free.trans first.free, second.nodeCount.trans first.nodeCount⟩

theorem symm (same : g.SameEdges h) : h.SameEdges g :=
  ⟨same.adjacency.symm, same.slots.symm, same.free.symm, same.nodeCount.symm⟩

theorem wellFormed (same : g.SameEdges h) (wf : g.WellFormed) : h.WellFormed := by
  refine wf.of_same_ends same.adjacency same.nodeCount same.free (by rw [same.slots]) fun e => ?_
  rw [slot?, same.slots, slot?]

theorem edgeBetween? (same : g.SameEdges h) (u v : NodeId) :
    h.edgeBetween? u v = g.edgeBetween? u v := by
  unfold Network.edgeBetween? findEdge? edge? slot?
  rw [same.adjacency, same.slots]

theorem bound (same : g.SameEdges h) (u v : NodeId) : h.bound u v = g.bound u v := by
  rw [Network.bound, same.edgeBetween?, Network.bound]

theorem case? (same : g.SameEdges h) (u v : NodeId) : h.case? u v = g.case? u v := by
  rw [Network.case?, same.edgeBetween?, Network.case?]

theorem weightBetween? (same : g.SameEdges h) (u v : NodeId) :
    h.weightBetween? u v = g.weightBetween? u v := by
  rw [Network.weightBetween?, same.edgeBetween?, Network.weightBetween?]

theorem admits (same : g.SameEdges h) {p : NodeId → Int} (valid : g.Admits p) : h.Admits p := by
  intro u v w weight
  rw [same.weightBetween?] at weight
  exact valid u v w weight

theorem tightenedInto (same : g.SameEdges h) (into : NodeId → Prop) : g.TightenedInto into h :=
  ⟨same.nodeCount, fun u v => Or.inl (same.bound u v), same.case?⟩

end SameEdges

theorem mem_weightedEdges (wf : g.WellFormed) {u v : NodeId} {w : Int} :
    (u, v, w) ∈ g.weightedEdges ↔ g.weightBetween? u v = some w := by
  simp only [weightedEdges, List.mem_filterMap, mem_edgeIds, Option.bind_eq_some_iff,
    Option.map_eq_some_iff, Prod.mk.injEq, weightBetween?, wf.edgeBetween?_eq_some_iff]
  constructor
  · rintro ⟨e, _, slot, stored, weight, weighs, source, target, rfl⟩
    exact ⟨slot.payload, ⟨e, slot, stored, source, target, rfl⟩, weighs⟩
  · rintro ⟨payload, ⟨e, slot, stored, source, target, rfl⟩, weighs⟩
    exact ⟨e, by rw [stored]; rfl, slot, stored, w, weighs, source, target, rfl⟩

theorem lt_of_weightBetween? (wf : g.WellFormed) {u v : NodeId} {w : Int}
    (h : g.weightBetween? u v = some w) : u < g.nodeCount ∧ v < g.nodeCount := by
  obtain ⟨payload, joined, _⟩ := Option.bind_eq_some_iff.mp h
  exact wf.lt_of_edgeBetween? joined

theorem sameEdges_setPotentials (g : PlainNetwork) (p : Array Int) :
    g.SameEdges (g.setPotentials p) :=
  ⟨rfl, rfl, rfl, by simp [setPotentials, nodeCount]⟩

theorem potential_setPotentials (p : Array Int) {n : NodeId} (inside : n < g.nodeCount) :
    (g.setPotentials p).potential n = p.getD n 0 := by
  unfold nodeCount at inside
  simp [potential, nodeD, node?, setPotentials, inside]

theorem setPotentials_congr {p q : Array Int}
    (same : ∀ n, n < g.nodeCount →
      (g.setPotentials p).potential n = (g.setPotentials q).potential n) :
    g.setPotentials p = g.setPotentials q := by
  unfold setPotentials
  congr 1
  refine Array.ext (by simp) fun i hp hq => ?_
  have inside : i < g.nodeCount := by simpa [nodeCount] using hp
  have equal := same i inside
  rw [potential_setPotentials p inside, potential_setPotentials q inside] at equal
  simpa using equal

theorem setPotentials_self (g : PlainNetwork) :
    g.setPotentials (g.nodes.map Node.potential) = g := by
  unfold setPotentials
  congr 1
  refine Array.ext (by simp) fun i hp hq => ?_
  simp [hq]

/-- The potentials of the nodes are the greatest ones that are valid and not positive. -/
structure Relaxed (g : PlainNetwork) : Prop where
  valid : g.Admits g.potential
  nonpos : ∀ n, n < g.nodeCount → g.potential n ≤ 0
  greatest : ∀ p, g.Admits p → (∀ n, n < g.nodeCount → p n ≤ 0) →
    ∀ n, n < g.nodeCount → p n ≤ g.potential n

theorem Relaxed.eq {p q : Array Int} (first : (g.setPotentials p).Relaxed)
    (second : (g.setPotentials q).Relaxed) : g.setPotentials p = g.setPotentials q := by
  have edges := sameEdges_setPotentials g p
  have edges' := sameEdges_setPotentials g q
  have back : ∀ {r : Array Int} {f : NodeId → Int}, (g.setPotentials r).Admits f → g.Admits f := by
    intro r f valid u v w weight
    rw [← (sameEdges_setPotentials g r).weightBetween?] at weight
    exact valid u v w weight
  refine setPotentials_congr fun n inside => le_antisymm ?_ ?_
  · refine second.greatest _ (edges'.admits (back first.valid)) (fun m hm => ?_) n
      (by rwa [edges'.nodeCount])
    exact first.nonpos m (by rwa [edges.nodeCount, ← edges'.nodeCount])
  · refine first.greatest _ (edges.admits (back second.valid)) (fun m hm => ?_) n
      (by rwa [edges.nodeCount])
    exact second.nonpos m (by rwa [edges'.nodeCount, ← edges.nodeCount])

end Network

namespace Potential

/-- Whether a potential is valid for a list of edges. -/
def Fits (edges : List (NodeId × NodeId × Int)) (p : NodeId → Int) : Prop :=
  ∀ u v w, (u, v, w) ∈ edges → p v ≤ p u + w

/-- Whether the ends of the edges are below `n`. -/
def EndsBelow (edges : List (NodeId × NodeId × Int)) (n : Nat) : Prop :=
  ∀ u v w, (u, v, w) ∈ edges → u < n ∧ v < n

section relaxation

variable {edges : List (NodeId × NodeId × Int)} {n : Nat}

/-- What relaxing one edge does to the distances. -/
def relaxEdge (state : Array Int × Bool) (edge : NodeId × NodeId × Int) : Array Int × Bool :=
  if state.1.getD edge.1 0 + edge.2.2 < state.1.getD edge.2.1 0 then
    (state.1.setIfInBounds edge.2.1 (state.1.getD edge.1 0 + edge.2.2), true)
  else state

theorem relax_eq (edges : List (NodeId × NodeId × Int)) (distances : Array Int) :
    relax edges distances = edges.foldl relaxEdge (distances, false) := rfl

/-- A round of relaxation that changes nothing has found no violated edge. -/
theorem relax_unchanged {state : Array Int × Bool}
    (still : (edges.foldl relaxEdge state).2 = false) :
    state.2 = false ∧ (edges.foldl relaxEdge state).1 = state.1 ∧
      Fits edges fun v => state.1.getD v 0 := by
  induction edges generalizing state with
  | nil => exact ⟨still, rfl, fun u v w mem => absurd mem List.not_mem_nil⟩
  | cons edge rest ih =>
    rw [List.foldl_cons] at still ⊢
    rw [relaxEdge] at still ⊢
    split at still
    · obtain ⟨impossible, _⟩ := ih still
      cases impossible
    · rename_i satisfied
      rw [if_neg satisfied]
      obtain ⟨same, kept, valid⟩ := ih still
      refine ⟨same, kept, fun u v w mem => ?_⟩
      rcases List.mem_cons.mp mem with here | there
      · rw [← here] at satisfied
        exact not_lt.mp satisfied
      · exact valid u v w there

theorem getD_relaxEdge (state : Array Int × Bool) {u v : NodeId} (w : Int)
    (inside : v < state.1.size) (m : NodeId) :
    (relaxEdge state (u, v, w)).1.getD m 0 =
      if m = v then min (state.1.getD v 0) (state.1.getD u 0 + w) else state.1.getD m 0 := by
  unfold relaxEdge
  simp only [Array.getD_eq_getD_getElem?]
  split
  · rename_i lower
    rw [Array.getElem?_setIfInBounds]
    by_cases same : m = v
    · subst same
      rw [if_pos rfl, if_pos inside, if_pos rfl, Option.getD_some, min_eq_right lower.le]
    · rw [if_neg (Ne.symm same), if_neg same]
  · rename_i kept
    split
    · rename_i same
      rw [same, min_eq_left (not_lt.mp kept)]
    · rfl

theorem size_relaxEdge (state : Array Int × Bool) (edge : NodeId × NodeId × Int) :
    (relaxEdge state edge).1.size = state.1.size := by
  unfold relaxEdge
  split
  · exact Array.size_setIfInBounds
  · rfl

theorem foldl_relaxEdge_spec (inside : EndsBelow edges n) (state : Array Int × Bool)
    (size : state.1.size = n) :
    (edges.foldl relaxEdge state).1.size = n ∧
      (∀ v, (edges.foldl relaxEdge state).1.getD v 0 ≤ state.1.getD v 0) ∧
      (∀ u v w, (u, v, w) ∈ edges →
        (edges.foldl relaxEdge state).1.getD v 0 ≤ state.1.getD u 0 + w) ∧
      ∀ q, Fits edges q → (∀ v, v < n → q v ≤ state.1.getD v 0) →
        ∀ v, v < n → q v ≤ (edges.foldl relaxEdge state).1.getD v 0 := by
  -- By induction on the edges, for any state: what one edge lowers may be lowered again by the others.
  induction edges generalizing state with
  | nil => exact ⟨size, fun _ => le_rfl, fun u v w mem => absurd mem List.not_mem_nil,
      fun _ _ below => below⟩
  | cons edge rest ih =>
    obtain ⟨u, v, w⟩ := edge
    obtain ⟨_, hv⟩ := inside u v w List.mem_cons_self
    have stored := getD_relaxEdge state (u := u) w (size ▸ hv)
    have lower : ∀ m, (relaxEdge state (u, v, w)).1.getD m 0 ≤ state.1.getD m 0 := by
      intro m
      rw [stored]
      split
      · rename_i same
        rw [same]
        exact min_le_left _ _
      · exact le_rfl
    obtain ⟨size', below, reached, above⟩ := ih
      (fun a b c mem => inside a b c (List.mem_cons_of_mem _ mem)) _
      ((size_relaxEdge state (u, v, w)).trans size)
    rw [List.foldl_cons]
    refine ⟨size', fun m => (below m).trans (lower m), fun a b c mem => ?_, fun q fits bound => ?_⟩
    · rcases List.mem_cons.mp mem with here | there
      · cases here
        refine (below v).trans ?_
        rw [stored, if_pos rfl]
        exact min_le_right _ _
      · have := lower a
        have := reached a b c there
        omega
    · refine above q (fun a b c mem => fits a b c (List.mem_cons_of_mem _ mem)) fun m hm => ?_
      rw [stored]
      split
      · rename_i same
        have here := fits u v w List.mem_cons_self
        have := bound u (inside u v w List.mem_cons_self).1
        rw [same]
        exact le_min (bound v hv) (by omega)
      · exact bound m hm

theorem relaxWithin_spec (inside : EndsBelow edges n) {rounds : Nat} {distances final : Array Int}
    (size : distances.size = n) (ends : relaxWithin edges rounds distances = some final) :
    (Fits edges fun v => final.getD v 0) ∧ (∀ v, final.getD v 0 ≤ distances.getD v 0) ∧
      ∀ q, Fits edges q → (∀ v, v < n → q v ≤ distances.getD v 0) →
        ∀ v, v < n → q v ≤ final.getD v 0 := by
  induction rounds generalizing distances with
  | zero => cases ends
  | succ rounds ih =>
    obtain ⟨size', below, _, above⟩ := foldl_relaxEdge_spec inside (distances, false) size
    rw [← relax_eq] at size' below above
    rw [relaxWithin] at ends
    split at ends
    · rename_i d changed
      rw [changed] at size' below above
      obtain ⟨fits, below', above'⟩ := ih size' ends
      exact ⟨fits, fun v => (below' v).trans (below v),
        fun q fits' bound => above' q fits' (above q fits' bound)⟩
    · rename_i d still
      cases ends
      rw [still] at below above
      rw [relax_eq] at still
      obtain ⟨_, same, valid⟩ := relax_unchanged (congrArg Prod.snd still)
      rw [still] at same
      change final = distances at same
      subst same
      exact ⟨valid, below, above⟩

/-- Where there is a valid potential there is a greatest one among those that are not positive. -/
theorem exists_greatest (inside : EndsBelow edges n) {p : NodeId → Int} (fits : Fits edges p) :
    ∃ D : NodeId → Int, Fits edges D ∧ (∀ v, v < n → D v ≤ 0) ∧
      ∀ q, Fits edges q → (∀ v, v < n → q v ≤ 0) → ∀ v, v < n → q v ≤ D v := by
  let values := fun v => {x : Int | ∃ q, Fits edges q ∧ (∀ m, m < n → q m ≤ 0) ∧ x = q v}
  obtain ⟨top, above⟩ := ((Finset.range n).image p).exists_le
  have some : ∀ v, (values v).Nonempty := by
    intro v
    refine ⟨p v - top, fun u => p u - top, fun a b c mem => ?_, fun m hm => ?_, rfl⟩
    · have := fits a b c mem
      dsimp only
      omega
    · have := above (p m) (Finset.mem_image_of_mem p (Finset.mem_range.mpr hm))
      dsimp only
      omega
  have bounded : ∀ v, v < n → BddAbove (values v) := by
    rintro v hv
    refine ⟨0, ?_⟩
    rintro x ⟨q, _, nonpos, rfl⟩
    exact nonpos v hv
  have member : ∀ v, v < n → ∀ q, Fits edges q → (∀ m, m < n → q m ≤ 0) → q v ≤ sSup (values v) :=
    fun v hv q fits' nonpos => le_csSup (bounded v hv) ⟨q, fits', nonpos, rfl⟩
  refine ⟨fun v => sSup (values v), fun u v w mem => ?_, fun v hv => ?_,
    fun q fits' nonpos v hv => member v hv q fits' nonpos⟩
  · refine csSup_le (some v) ?_
    rintro x ⟨q, fits', nonpos, rfl⟩
    have := fits' u v w mem
    have := member u (inside u v w mem).1 q fits' nonpos
    dsimp only
    omega
  · refine csSup_le (some v) ?_
    rintro x ⟨q, _, nonpos, rfl⟩
    exact nonpos v hv

/-- The nodes whose distance is above a potential. -/
def above (n : Nat) (D : NodeId → Int) (distances : Array Int) : Finset NodeId :=
  (Finset.range n).filter fun v => D v < distances.getD v 0

theorem mem_above {D : NodeId → Int} {distances : Array Int} {v : NodeId} :
    v ∈ above n D distances ↔ v < n ∧ D v < distances.getD v 0 := by
  rw [above, Finset.mem_filter, Finset.mem_range]

/-- Some node above the greatest potential is reached by a tight edge from one that is not; otherwise
the potential could be raised at all nodes it is below. -/
theorem exists_tight {D : NodeId → Int} (inside : EndsBelow edges n) (fits : Fits edges D)
    (greatest : ∀ q, Fits edges q → (∀ v, v < n → q v ≤ 0) → ∀ v, v < n → q v ≤ D v)
    {distances : Array Int} (below : ∀ v, v < n → D v ≤ distances.getD v 0)
    (nonpos : ∀ v, v < n → distances.getD v 0 ≤ 0) {m : NodeId} (mem : m ∈ above n D distances) :
    ∃ u v w, (u, v, w) ∈ edges ∧ v ∈ above n D distances ∧ D u = distances.getD u 0 ∧
      D v = D u + w := by
  by_contra loose
  let raised := fun v => if v ∈ above n D distances then D v + 1 else D v
  -- Raised by one where the distances are above it, `D` would break only tight edges from elsewhere,
  -- and there are none.
  have fits' : Fits edges raised := by
    intro u v w edge
    have le := fits u v w edge
    obtain ⟨hu, hv⟩ := inside u v w edge
    by_cases high : v ∈ above n D distances
    · by_cases high' : u ∈ above n D distances
      · simp only [raised, if_pos high, if_pos high']
        omega
      · have settled : D u = distances.getD u 0 := by
          have := below u hu
          by_contra differs
          exact high' (mem_above.mpr ⟨hu, by omega⟩)
        have untight : D v ≠ D u + w := fun tight => loose ⟨u, v, w, edge, high, settled, tight⟩
        simp only [raised, if_pos high, if_neg high']
        omega
    · simp only [raised, if_neg high]
      split <;> omega
  have nonpos' : ∀ v, v < n → raised v ≤ 0 := by
    intro v hv
    have low := below v hv
    have top := nonpos v hv
    by_cases high : v ∈ above n D distances
    · have := (mem_above.mp high).2
      simp only [raised, if_pos high]
      omega
    · simp only [raised, if_neg high]
      omega
  have := greatest raised fits' nonpos' m (mem_above.mp mem).1
  simp only [raised, if_pos mem] at this
  omega

/-- Relaxation comes to rest if it has a round for each node above the greatest potential. -/
theorem relaxWithin_isSome {D : NodeId → Int} (inside : EndsBelow edges n) (fits : Fits edges D)
    (greatest : ∀ q, Fits edges q → (∀ v, v < n → q v ≤ 0) → ∀ v, v < n → q v ≤ D v)
    (rounds : Nat) (distances : Array Int) (size : distances.size = n)
    (below : ∀ v, v < n → D v ≤ distances.getD v 0)
    (nonpos : ∀ v, v < n → distances.getD v 0 ≤ 0)
    (enough : (above n D distances).card < rounds) :
    ∃ final, relaxWithin edges rounds distances = some final := by
  induction rounds generalizing distances with
  | zero => omega
  | succ rounds ih =>
    obtain ⟨size', lower, reached, kept⟩ := foldl_relaxEdge_spec inside (distances, false) size
    rw [← relax_eq] at size' lower reached kept
    rw [relaxWithin]
    split
    · rename_i d changed
      rw [changed] at size' lower reached kept
      refine ih d size' (kept D fits below) (fun v hv => (lower v).trans (nonpos v hv)) ?_
      have subset : above n D d ⊆ above n D distances := fun v mem => by
        obtain ⟨hv, high⟩ := mem_above.mp mem
        exact mem_above.mpr ⟨hv, lt_of_lt_of_le high (lower v)⟩
      rcases (above n D distances).eq_empty_or_nonempty with none | ⟨m, mem⟩
      · exfalso
        have same : ∀ v, v < n → distances.getD v 0 = D v := by
          intro v hv
          by_contra differs
          have high : v ∈ above n D distances :=
            mem_above.mpr ⟨hv, lt_of_le_of_ne (below v hv) (Ne.symm differs)⟩
          rw [none] at high
          cases high
        have still : ∀ (todo : List (NodeId × NodeId × Int)), todo ⊆ edges →
            (todo.foldl relaxEdge (distances, false)) = (distances, false) := by
          intro todo
          induction todo with
          | nil => exact fun _ => rfl
          | cons edge rest ih =>
            intro sub
            obtain ⟨u, v, w⟩ := edge
            have edge := sub List.mem_cons_self
            obtain ⟨hu, hv⟩ := inside u v w edge
            have le := fits u v w edge
            rw [List.foldl_cons, relaxEdge, if_neg]
            · exact ih (List.subset_of_cons_subset sub)
            · dsimp only
              rw [same u hu, same v hv]
              omega
        rw [relax_eq, still edges (List.Subset.refl _)] at changed
        cases changed
      · obtain ⟨u, v, w, edge, high, settled, tight⟩ :=
          exists_tight inside fits greatest below nonpos mem
        -- The tight edge is relaxed in this round, so its end leaves the set of what is too high.
        have down : v ∉ above n D d := fun still => by
          have := (mem_above.mp still).2
          have := reached u v w edge
          dsimp only at this
          omega
        have fewer := Finset.card_lt_card ((Finset.ssubset_iff_of_subset subset).mpr ⟨v, high, down⟩)
        omega
    · exact ⟨_, rfl⟩

end relaxation

variable {g : PlainNetwork}

theorem endsBelow_weightedEdges (wf : g.WellFormed) : EndsBelow g.weightedEdges g.nodeCount :=
  fun _ _ _ mem => Network.lt_of_weightBetween? wf ((Network.mem_weightedEdges wf).mp mem)

theorem fits_weightedEdges_iff (wf : g.WellFormed) {p : NodeId → Int} :
    Fits g.weightedEdges p ↔ g.Admits p := by
  simp only [Fits, Network.mem_weightedEdges wf, Network.Admits]

theorem getD_replicate_zero (n v : Nat) : (Array.replicate n (0 : Int)).getD v 0 = 0 := by
  rw [Array.getD_eq_getD_getElem?, Array.getElem?_replicate]
  split <;> rfl

theorem exists_distances (wf : g.WellFormed) {p : NodeId → Int} (valid : g.Admits p) :
    ∃ d, distances? g = some d := by
  have inside := endsBelow_weightedEdges wf
  obtain ⟨D, fits, nonpos, greatest⟩ :=
    exists_greatest inside ((fits_weightedEdges_iff wf).mpr valid)
  refine relaxWithin_isSome inside fits greatest _ _ Array.size_replicate (fun v hv => ?_)
    (fun v _ => ?_) ?_
  · rw [getD_replicate_zero]
    exact nonpos v hv
  · rw [getD_replicate_zero]
  · have := (Finset.card_filter_le (Finset.range g.nodeCount)
      fun v => D v < (Array.replicate g.nodeCount (0 : Int)).getD v 0)
    rw [Finset.card_range] at this
    exact Nat.lt_succ_of_le this

theorem relaxed_of_distances (wf : g.WellFormed) {d : Array Int} (computed : distances? g = some d) :
    (g.setPotentials d).Relaxed := by
  obtain ⟨fits, below, above⟩ :=
    relaxWithin_spec (endsBelow_weightedEdges wf) Array.size_replicate computed
  simp only [getD_replicate_zero] at below above
  have same := Network.sameEdges_setPotentials g d
  constructor
  · intro u v w weight
    rw [same.weightBetween?] at weight
    obtain ⟨hu, hv⟩ := Network.lt_of_weightBetween? wf weight
    rw [Network.potential_setPotentials d hu, Network.potential_setPotentials d hv]
    exact (fits_weightedEdges_iff wf).mp fits u v w weight
  · intro n hn
    rw [same.nodeCount] at hn
    rw [Network.potential_setPotentials d hn]
    exact below n
  · intro p valid nonpos n hn
    rw [same.nodeCount] at hn nonpos
    rw [Network.potential_setPotentials d hn]
    refine above p ((fits_weightedEdges_iff wf).mpr fun u v w weight => ?_) nonpos n hn
    rw [← same.weightBetween?] at weight
    exact valid u v w weight

/-- Runs with the same edges, statuses and moves, which have done the same but for the work on
potentials. -/
structure Alike {σ : Type} (s t : StnuRun σ) : Prop where
  edges : s.network.SameEdges t.network
  statuses : t.statuses = s.statuses
  moves : t.moves = s.moves
  polls : t.polls = s.polls
  backPropagations : t.statistics.backPropagations = s.statistics.backPropagations
  restarted : t.statistics.restartedBackPropagations = s.statistics.restartedBackPropagations
  derivedEdges : t.statistics.derivedEdges = s.statistics.derivedEdges

namespace Alike

variable {σ : Type} {s t u : StnuRun σ}

theorem refl (s : StnuRun σ) : Alike s s := ⟨.refl _, rfl, rfl, rfl, rfl, rfl, rfl⟩

theorem symm (alike : Alike s t) : Alike t s :=
  ⟨alike.edges.symm, alike.statuses.symm, alike.moves.symm, alike.polls.symm,
    alike.backPropagations.symm, alike.restarted.symm, alike.derivedEdges.symm⟩

theorem trans (first : Alike s t) (second : Alike t u) : Alike s u :=
  ⟨first.edges.trans second.edges, second.statuses.trans first.statuses,
    second.moves.trans first.moves, second.polls.trans first.polls,
    second.backPropagations.trans first.backPropagations, second.restarted.trans first.restarted,
    second.derivedEdges.trans first.derivedEdges⟩

end Alike

/-- What a change of the potentials does. -/
structure Refreshed {σ : Type} (s t : StnuRun σ) : Prop extends Alike s t where
  potentials : ∃ p, t.network = s.network.setPotentials p

theorem Refreshed.refl {σ : Type} (s : StnuRun σ) : Refreshed s s :=
  ⟨.refl s, _, s.network.setPotentials_self.symm⟩

theorem compute_ends {σ : Type} {s : StnuRun σ} (wf : s.network.WellFormed) :
    Ends Potential.compute s (fun _ t => Refreshed s t ∧ t.network.Relaxed)
      fun e t => e = .notControllable ∧ Alike s t ∧ ∀ p, ¬ s.network.Admits p := by
  unfold compute StnuM.count StnuM.network StnuM.modifyNetwork
  rw [ends_bind, ends_modify, ends_bind, ends_bind, ends_get, ends_pure]
  cases ends : distances? s.network with
  | none =>
    refine ⟨rfl, ⟨.refl _, rfl, rfl, rfl, rfl, rfl, rfl⟩, fun p valid => ?_⟩
    obtain ⟨d, computed⟩ := exists_distances wf valid
    rw [ends] at computed
    cases computed
  | some d =>
    exact ⟨⟨⟨Network.sameEdges_setPotentials _ d, rfl, rfl, rfl, rfl, rfl, rfl⟩, d, rfl⟩,
      relaxed_of_distances wf ends⟩

theorem compute_alike {σ : Type} (s : StnuRun σ) :
    Ends Potential.compute s (fun _ => Alike s) fun _ => Alike s := by
  unfold compute StnuM.count StnuM.network StnuM.modifyNetwork
  rw [ends_bind, ends_modify, ends_bind, ends_bind, ends_get, ends_pure]
  cases distances? s.network with
  | none => exact ⟨.refl _, rfl, rfl, rfl, rfl, rfl, rfl⟩
  | some d => exact ⟨Network.sameEdges_setPotentials _ d, rfl, rfl, rfl, rfl, rfl, rfl⟩

end Potential

end TemporalNetwork
