import TemporalNetwork.Proofs.Network.Cycles
import TemporalNetwork.Proofs.Stnu.Tightening

/-!
What a potential is. The greatest potential that is not positive is at each node the least weight of a
walk that ends there, and there is one unless some edges form a negative cycle. So both ways to find it
fail exactly where there is a negative cycle, and they find the same.
-/

namespace TemporalNetwork

namespace Network

variable {g : PlainNetwork} {u v : NodeId} {d : Int}

/-- The edges with the lesser of their ordinary and their lower-case value. -/
def Weighs (g : PlainNetwork) (u v : NodeId) (w : Int) : Prop := g.weightBetween? u v = some w

/-- The weights of the walks that end in a node, the empty one included. -/
def walkWeights (g : PlainNetwork) (v : NodeId) : Set Int := {d | ∃ u, Walk g.Weighs u v d}

theorem satisfies_iff_admits {p : NodeId → Int} : Satisfies g.Weighs p ↔ g.Admits p := Iff.rfl

theorem source_lt_of_walk (wf : g.WellFormed) (walk : Walk g.Weighs u v d) (hv : v < g.nodeCount) :
    u < g.nodeCount := by
  induction walk with
  | here => exact hv
  | step _ edge ih => exact ih (lt_of_weightBetween? wf edge).1

/-- There is a potential unless some edges form a negative cycle. -/
theorem exists_admits_iff (wf : g.WellFormed) : (∃ p, g.Admits p) ↔ ¬ NegativeCycle g.Weighs := by
  constructor
  · rintro ⟨p, valid⟩
    exact (satisfies_iff_admits.mpr valid).not_negativeCycle
  · intro nonneg
    have same : g.Weighs = fun u v w => (u, v, w) ∈ g.weightedEdges := by
      funext u v w
      exact propext (mem_weightedEdges wf).symm
    rw [same] at nonneg
    obtain ⟨p, satisfies⟩ := exists_satisfies_of_list _ nonneg
    rw [← same] at satisfies
    exact ⟨p, satisfies⟩

theorem Admits.le_of_walk (wf : g.WellFormed) {p : NodeId → Int} (valid : g.Admits p)
    (nonpos : ∀ n, n < g.nodeCount → p n ≤ 0) (hv : v < g.nodeCount) (mem : d ∈ g.walkWeights v) :
    p v ≤ d := by
  obtain ⟨u, walk⟩ := mem
  have := (satisfies_iff_admits.mpr valid).le_of_walk walk
  have := nonpos u (source_lt_of_walk wf walk hv)
  omega

/-- The greatest potential is reached by a walk at each node: the least weights of walks are a potential
themselves. -/
theorem Relaxed.isLeast (wf : g.WellFormed) (relaxed : g.Relaxed) (hv : v < g.nodeCount) :
    IsLeast (g.walkWeights v) (g.potential v) := by
  have some : ∀ v, (g.walkWeights v).Nonempty := fun v => ⟨0, v, .here⟩
  have below : ∀ v, v < g.nodeCount → g.potential v ∈ lowerBounds (g.walkWeights v) :=
    fun v hv d mem => relaxed.valid.le_of_walk wf relaxed.nonpos hv mem
  have least : ∀ v, v < g.nodeCount → IsLeast (g.walkWeights v) (sInf (g.walkWeights v)) := by
    intro v hv
    exact ⟨Int.csInf_mem (some v) ⟨_, below v hv⟩, fun d mem => csInf_le ⟨_, below v hv⟩ mem⟩
  have valid : g.Admits fun v => sInf (g.walkWeights v) := by
    intro u v w weight
    obtain ⟨hu, hv⟩ := lt_of_weightBetween? wf weight
    obtain ⟨a, walk⟩ := (least u hu).1
    exact (least v hv).2 ⟨a, walk.step weight⟩
  have above := relaxed.greatest _ valid (fun n hn => (least n hn).2 ⟨n, .here⟩) v hv
  have same : g.potential v = sInf (g.walkWeights v) :=
    le_antisymm (below v hv (least v hv).1) above
  exact same ▸ least v hv

theorem SameEdges.weighs {h : PlainNetwork} (same : g.SameEdges h) : h.Weighs = g.Weighs := by
  funext u v w
  rw [Weighs, same.weightBetween?, Weighs]

theorem Relaxed.exact {h : PlainNetwork} (relaxed : h.Relaxed) (wf : g.WellFormed)
    (same : g.SameEdges h) : ¬ NegativeCycle g.Weighs ∧
      (∀ v < g.nodeCount, IsLeast (g.walkWeights v) (h.potential v) ∧ h.potential v ≤ 0) ∧
      ∀ u v w, g.Weighs u v w → h.potential v ≤ h.potential u + w := by
  have valid : g.Admits h.potential := same.symm.admits relaxed.valid
  refine ⟨(exists_admits_iff wf).mp ⟨_, valid⟩, fun v hv => ?_, valid⟩
  rw [← same.nodeCount] at hv
  have least := relaxed.isLeast (same.wellFormed wf) hv
  rw [walkWeights, same.weighs] at least
  exact ⟨least, relaxed.nonpos v hv⟩

/-- Some edges into `n` have been tightened or added, all of them from one of the sources, and the nodes
have kept their potentials. -/
structure TightenedAt (g h : PlainNetwork) (n : NodeId) (sources : List NodeId) : Prop where
  nodeCount : h.nodeCount = g.nodeCount
  kept : ∀ u v w, g.Weighs u v w → ∃ w', w' ≤ w ∧ h.Weighs u v w'
  listed : ∀ u v w, h.Weighs u v w → g.Weighs u v w ∨ v = n ∧ u ∈ sources

theorem TightenedAt.admits {h : PlainNetwork} {n : NodeId} {sources : List NodeId}
    (tightened : g.TightenedAt h n sources) {p : NodeId → Int} (valid : h.Admits p) :
    g.Admits p := by
  intro u v w weight
  obtain ⟨w', le, weight'⟩ := tightened.kept u v w weight
  have := valid u v w' weight'
  omega

theorem TightenedBy.tightenedAt {h k : PlainNetwork} {n : NodeId} {edges : List (NodeId × Value)}
    {sources : List NodeId} (same : g.SameEdges k) (after : k.TightenedBy n edges h sources) :
    g.TightenedAt h n sources := by
  refine ⟨after.tightened.nodeCount.trans same.nodeCount, fun u v w weight => ?_,
    fun u v w weight => ?_⟩
  · rw [Weighs, ← same.weightBetween?, weightBetween?_eq] at weight
    rcases PlainEdge.lesser_cases weight with ordinary | lower
    · obtain ⟨w', ordinary', le⟩ := after.tightened.ordinary?_le ordinary
      obtain ⟨least, weighs, le'⟩ := PlainEdge.lesser_le_left (b := h.lowerWeight? u v) ordinary'
      exact ⟨least, le_trans le' le, (weightBetween?_eq h u v).trans weighs⟩
    · rw [← after.tightened.lowerWeight?] at lower
      obtain ⟨least, weighs, le⟩ := PlainEdge.lesser_le_right (a := h.ordinary? u v) lower
      exact ⟨least, le, (weightBetween?_eq h u v).trans weighs⟩
  · refine (after.changed u v).imp_left fun unchanged => ?_
    rw [Weighs, weightBetween?_eq, ordinary?, unchanged, after.tightened.lowerWeight?, ← ordinary?,
      ← weightBetween?_eq, same.weightBetween?] at weight
    exact weight

theorem TightenedAt.disturbed {h k : PlainNetwork} {n : NodeId} {sources : List NodeId}
    (tightened : g.TightenedAt h n sources) (same : g.SameEdges k) (relaxed : k.Relaxed)
    (potential : ∀ m, m < g.nodeCount → h.potential m = k.potential m) (wf : h.WellFormed) :
    Potential.Disturbed h n sources := by
  have counted := tightened.nodeCount
  have counted' := same.nodeCount
  constructor
  · intro u v w weight
    obtain ⟨hu, hv⟩ := lt_of_weightBetween? wf weight
    refine (tightened.listed u v w weight).imp_left fun before => ?_
    rw [potential u (counted ▸ hu), potential v (counted ▸ hv)]
    exact relaxed.valid u v w ((same.weightBetween? u v).trans before)
  · intro m hm
    rw [potential m (counted ▸ hm)]
    exact relaxed.nonpos m (by omega)
  · intro p valid nonpos m hm
    rw [potential m (counted ▸ hm)]
    exact relaxed.greatest p (same.admits (tightened.admits valid))
      (fun i hi => nonpos i (by omega)) m (by omega)

end Network

namespace Potential

/-- The computation of the potential is exact: it fails, and changes nothing in the network, if some
edges form a negative cycle; else it sets the potential of each node to the least weight of a walk
that ends there, which is valid and not positive. -/
theorem compute_exact {σ : Type} {s : StnuRun σ} (wf : s.network.WellFormed) :
    Ends Potential.compute s
      (fun _ t => ¬ NegativeCycle s.network.Weighs ∧ s.network.SameEdges t.network ∧
        (∀ v < s.network.nodeCount,
          IsLeast (s.network.walkWeights v) (t.network.potential v) ∧ t.network.potential v ≤ 0) ∧
        ∀ u v w, s.network.Weighs u v w → t.network.potential v ≤ t.network.potential u + w)
      fun e t => e = .notControllable ∧ NegativeCycle s.network.Weighs ∧ t.network = s.network := by
  unfold compute StnuM.count StnuM.network StnuM.modifyNetwork
  rw [ends_bind, ends_modify, ends_bind, ends_bind, ends_get, ends_pure]
  cases ends : distances? s.network with
  | none =>
    refine ⟨rfl, ?_, rfl⟩
    by_contra nonneg
    obtain ⟨p, valid⟩ := (Network.exists_admits_iff wf).mpr nonneg
    obtain ⟨d, computed⟩ := exists_distances wf valid
    rw [ends] at computed
    cases computed
  | some d =>
    have same := Network.sameEdges_setPotentials s.network d
    obtain ⟨nonneg, least⟩ := (relaxed_of_distances wf ends).exact wf same
    exact ⟨nonneg, same, least⟩

/-- B may follow A at once, and A may follow itself; X is not joined to the others. -/
def detourNetwork : PlainNetwork :=
  (Network.build [.named "Z", .named "A", .named "B", .named "X"]
    [("ZA", 0, 1, ⟨.ordinary, -2, none⟩), ("AA", 1, 1, ⟨.ordinary, 0, none⟩),
      ("AB", 1, 2, ⟨.contingent, 5, some ⟨.lower, 2, -1⟩⟩)]).getD .empty

theorem nodeCount_detourNetwork : detourNetwork.nodeCount = 4 := by decide +kernel

theorem compute_exact_detour :
    ∃ t, Potential.compute.run (.start detourNetwork .zero (#[] : Array LinkStatus)) = .ok () t ∧
      IsLeast (detourNetwork.walkWeights 2) (-3) ∧ IsLeast (detourNetwork.walkWeights 3) 0 := by
  have computes : (match Potential.compute.run
      (.start detourNetwork .zero (#[] : Array LinkStatus)) with
    | .ok _ t => t.network.potential 2 == -3 && t.network.potential 3 == 0
    | .error .. => false) = true := by decide +kernel
  split at computes
  · rename_i result t run
    obtain ⟨b, x⟩ := Bool.and_eq_true_iff.mp computes
    obtain ⟨-, -, least, -⟩ := (compute_exact (Network.wellFormed_getD_build _ _)).of_ok run
    cases result
    refine ⟨t, run, ?_, ?_⟩
    · rw [← eq_of_beq b]
      exact (least 2 (nodeCount_detourNetwork ▸ by decide)).1
    · rw [← eq_of_beq x]
      exact (least 3 (nodeCount_detourNetwork ▸ by decide)).1
  · cases computes

/-- Repair is as good as computing anew. Where the nodes have the potential that is computed for the
edges before some into `n` were tightened, it fails if some edges form a negative cycle now; else it
leaves a valid potential, the one that is computed for the tightened edges. -/
theorem repair_exact {σ : Type} {before computed s : StnuRun σ} (wf : before.network.WellFormed)
    (computes : Potential.compute.run before = .ok () computed) (wf' : s.network.WellFormed)
    {n : NodeId} {sources : List NodeId} (inside : n < s.network.nodeCount)
    (tightened : before.network.TightenedAt s.network n sources)
    (potential : ∀ m, m < before.network.nodeCount →
      s.network.potential m = computed.network.potential m) :
    Ends (Potential.repair n sources) s
      (fun _ t => ¬ NegativeCycle s.network.Weighs ∧
        (∀ u v w, s.network.Weighs u v w → t.network.potential v ≤ t.network.potential u + w) ∧
        Ends Potential.compute s (fun _ t' => t'.network = t.network) fun _ _ => False)
      fun e _ => e = .notControllable ∧ NegativeCycle s.network.Weighs := by
  obtain ⟨refreshed, relaxed⟩ := (compute_ends wf).of_ok computes
  have disturbed := tightened.disturbed refreshed.edges relaxed potential wf'
  refine (repair_ends wf' inside disturbed).mono ?_ ?_
  · rintro _ t ⟨repaired, relaxed'⟩
    obtain ⟨nonneg, -, valid⟩ := relaxed'.exact wf' repaired.edges
    refine ⟨nonneg, valid, (compute_ends wf').mono ?_ ?_⟩
    · rintro _ t' ⟨renewed, relaxed''⟩
      obtain ⟨p, same⟩ := repaired.potentials
      obtain ⟨q, same'⟩ := renewed.potentials
      rw [same] at relaxed'
      rw [same'] at relaxed''
      rw [same, same', relaxed''.eq relaxed']
    · rintro e t' ⟨_, _, none⟩
      exact none _ (repaired.edges.symm.admits relaxed'.valid)
  · rintro e t ⟨failed, _, none⟩
    refine ⟨failed, ?_⟩
    by_contra nonneg
    obtain ⟨p, valid⟩ := (Network.exists_admits_iff wf').mpr nonneg
    exact none p valid

/-- The edges from Z and B into A are tightened, and B still may not precede A by more than it has to. -/
theorem repair_exact_detour : ∃ s t,
    Potential.compute.run (.start detourNetwork .zero (#[] : Array LinkStatus)) = .ok () s ∧
      (Potential.repair 1 [0, 2]).run (LinkRun.tightened s 1 [(0, -4), (2, 1)]) = .ok () t ∧
      t.network.potential 2 = -5 ∧
      Ends Potential.compute (LinkRun.tightened s 1 [(0, -4), (2, 1)])
        (fun _ t' => t'.network = t.network) fun _ _ => False := by
  have succeeds : (match Potential.compute.run
      (.start detourNetwork .zero (#[] : Array LinkStatus)) with
    | .ok _ s =>
      (match (Potential.repair 1 [0, 2]).run (LinkRun.tightened s 1 [(0, -4), (2, 1)]) with
      | .ok _ t => t.network.potential 2 == -5 &&
          (Network.tightenEach 1 s.network [(0, -4), (2, 1)]).2 == [0, 2]
      | .error .. => false)
    | .error .. => false) = true := by decide +kernel
  split at succeeds
  · rename_i result s computes
    cases result
    split at succeeds
    · rename_i result t repairs
      cases result
      simp only [Bool.and_eq_true, beq_iff_eq] at succeeds
      obtain ⟨potential, sources⟩ := succeeds
      have wf : (StnuRun.start detourNetwork .zero (#[] : Array LinkStatus)).network.WellFormed :=
        Network.wellFormed_getD_build _ _
      have same := ((compute_ends wf).of_ok computes).1.edges
      have counted : s.network.nodeCount = 4 := same.nodeCount.trans nodeCount_detourNetwork
      have after : ∀ edges, (∀ u w, (u, w) ∈ edges → u < 4 ∧ w < Value.posInf) →
          s.network.TightenedBy 1 edges (LinkRun.tightened s 1 edges).network
            (Network.tightenEach 1 s.network edges).2 := fun edges within =>
        Network.tightenEach_spec (same.wellFormed wf) (by rw [counted]; decide) (counted ▸ within)
      replace after := after [(0, -4), (2, 1)] fun u w mem => by
        simp only [List.mem_cons, Prod.mk.injEq, List.not_mem_nil, or_false] at mem
        rcases mem with ⟨rfl, rfl⟩ | ⟨rfl, rfl⟩ <;> decide
      rw [sources] at after
      refine ⟨s, t, computes, repairs, potential, ?_⟩
      generalize LinkRun.tightened s 1 [(0, -4), (2, 1)] = u at after repairs ⊢
      have inside : 1 < u.network.nodeCount := by
        rw [after.tightened.nodeCount, counted]
        decide
      exact ((repair_exact wf computes after.wellFormed inside (after.tightenedAt same)
        fun m _ => after.potential_eq m).of_ok repairs).2.2
    · cases succeeds
  · cases succeeds

end Potential

end TemporalNetwork
