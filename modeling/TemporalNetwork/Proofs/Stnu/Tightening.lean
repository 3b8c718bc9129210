import TemporalNetwork.Proofs.Runs
import TemporalNetwork.Proofs.Stnu.Repair

/-!
Adding the edges of a finished link. Several edges into one node are tightened in turn; afterwards
only those that were tightened may violate a potential.
-/

namespace TemporalNetwork

namespace Network

variable {g h : PlainNetwork} {target : NodeId} {edges : List (NodeId × Value)}
  {sources : List NodeId}

/-- Tightens edges into one node; the second component lists the nodes whose edge has changed. -/
def tightenEach (target : NodeId) :
    (g : PlainNetwork) → List (NodeId × Value) → PlainNetwork × List NodeId
  | g, [] => (g, [])
  | g, (source, value) :: rest =>
    let (h, changed) := g.tighten source target value
    let (k, sources) := tightenEach target h rest
    (k, if changed then source :: sources else sources)

theorem tightenEach_cons (target : NodeId) (g : PlainNetwork) (source : NodeId) (value : Value)
    (rest : List (NodeId × Value)) :
    tightenEach target g ((source, value) :: rest) =
      ((tightenEach target (g.tighten source target value).1 rest).1,
        if (g.tighten source target value).2 then
          source :: (tightenEach target (g.tighten source target value).1 rest).2
        else (tightenEach target (g.tighten source target value).1 rest).2) := rfl

/-- What tightening edges into one node does. -/
structure TightenedBy (g : PlainNetwork) (target : NodeId) (edges : List (NodeId × Value))
    (h : PlainNetwork) (sources : List NodeId) : Prop where
  wellFormed : h.WellFormed
  nodes : h.nodes = g.nodes
  tightened : g.TightenedInto (fun n => n = target) h
  bound_le : ∀ u w, (u, w) ∈ edges → h.bound u target ≤ w
  origin : ∀ u v w, h.ordinary? u v = some w →
    g.ordinary? u v = some w ∨ v = target ∧ (u, w) ∈ edges
  changed : ∀ u v, h.bound u v = g.bound u v ∨ v = target ∧ u ∈ sources

theorem tightenEach_spec (wf : g.WellFormed) (inside : target < g.nodeCount)
    (within : ∀ u w, (u, w) ∈ edges → u < g.nodeCount ∧ w < Value.posInf) :
    TightenedBy g target edges (tightenEach target g edges).1 (tightenEach target g edges).2 := by
  induction edges generalizing g with
  | nil =>
    exact ⟨wf, rfl, .refl _ g, fun _ _ mem => absurd mem List.not_mem_nil,
      fun _ _ _ weight => Or.inl weight, fun _ _ => Or.inl rfl⟩
  | cons edge rest ih =>
    obtain ⟨source, value⟩ := edge
    obtain ⟨hs, finite⟩ := within source value List.mem_cons_self
    have first := tightenedInto_tighten wf hs inside finite
    have bound := bound_tighten wf hs inside value
    have changed := tighten_changed_iff wf hs inside value
    have counted := first.nodeCount
    have later := ih (wf.tighten hs inside value) (by rwa [counted]) fun u w mem => by
      rw [counted]
      exact within u w (List.mem_cons_of_mem _ mem)
    -- Only the edge just tightened has changed, and only if the value is below its bound.
    have kept : ∀ u v, ¬(source = u ∧ target = v ∧ value < g.bound source target) →
        (g.tighten source target value).1.bound u v = g.bound u v := by
      intro u v other
      rw [bound]
      split
      · rename_i same
        obtain ⟨rfl, rfl⟩ := same
        exact min_eq_right (not_lt.mp fun lower => other ⟨rfl, rfl, lower⟩)
      · rfl
    constructor
    · exact later.wellFormed
    · exact later.nodes.trans (nodes_tighten wf hs inside value)
    · exact first.trans later.tightened
    · intro u w mem
      rcases List.mem_cons.mp mem with here | there
      · cases here
        refine (later.tightened.bound_le source target).trans ?_
        rw [bound, if_pos ⟨rfl, rfl⟩]
        exact min_le_left _ _
      · exact later.bound_le u w there
    · intro u v w weight
      rcases later.origin u v w weight with before | ⟨same, mem⟩
      · by_cases here : source = u ∧ target = v ∧ value < g.bound source target
        · obtain ⟨rfl, rfl, lower⟩ := here
          obtain ⟨weighs, _⟩ := ordinary?_eq_some_iff.mp before
          rw [bound, if_pos ⟨rfl, rfl⟩, min_eq_left lower.le] at weighs
          exact Or.inr ⟨rfl, weighs ▸ List.mem_cons_self⟩
        · rw [ordinary?, kept u v here] at before
          exact Or.inl before
      · exact Or.inr ⟨same, List.mem_cons_of_mem _ mem⟩
    · intro u v
      have listed : ∀ m, m ∈ (tightenEach target (g.tighten source target value).1 rest).2 →
          m ∈ (tightenEach target g ((source, value) :: rest)).2 := by
        intro m mem
        rw [tightenEach_cons]
        dsimp only
        split
        · exact List.mem_cons_of_mem _ mem
        · exact mem
      rcases later.changed u v with same | ⟨into, mem⟩
      · by_cases here : source = u ∧ target = v ∧ value < g.bound source target
        · obtain ⟨rfl, rfl, lower⟩ := here
          refine Or.inr ⟨rfl, ?_⟩
          rw [tightenEach_cons, if_pos (changed.mpr lower)]
          exact List.mem_cons_self
        · exact Or.inl (same.trans (kept u v here))
      · exact Or.inr ⟨into, listed u mem⟩

namespace TightenedBy

variable (after : TightenedBy g target edges h sources)

include after in
theorem potential_eq (n : NodeId) : h.potential n = g.potential n := by
  rw [potential, nodeD, node?, after.nodes]
  rfl

include after in
theorem disturbed (relaxed : g.Relaxed) : Potential.Disturbed h target sources := by
  have counted := after.tightened.nodeCount
  constructor
  · intro u v w weight
    rw [after.potential_eq, after.potential_eq]
    refine (after.changed u v).imp_left fun same => relaxed.valid u v w ?_
    rwa [weightBetween?_eq, ordinary?, same, after.tightened.lowerWeight?, ← ordinary?,
      ← weightBetween?_eq] at weight
  · intro n hn
    rw [after.potential_eq]
    exact relaxed.nonpos n (counted ▸ hn)
  · intro p valid nonpos n hn
    rw [after.potential_eq]
    exact relaxed.greatest p (after.tightened.admits valid) (fun m hm => nonpos m (counted ▸ hm)) n
      (counted ▸ hn)

end TightenedBy

end Network

namespace StnuM

theorem run_derive {σ : Type} (s : StnuRun σ) (source target : NodeId) (value : Value) :
    (derive source target value).run s = .ok (s.network.tighten source target value).2
      { s with
        network := (s.network.tighten source target value).1
        statistics := if (s.network.tighten source target value).2 then
            { s.statistics with derivedEdges := s.statistics.derivedEdges + 1 }
          else s.statistics } := by
  unfold derive count
  rw [EStateM.run_bind]
  change (EStateM.run (if (s.network.tighten source target value).2 then _ else _) _) = _
  split
  · rfl
  · rfl

end StnuM

namespace LinkRun

/-- The run after edges into one node have been tightened. -/
def tightened (s : StnuRun LinkStatus) (target : NodeId) (edges : List (NodeId × Value)) :
    StnuRun LinkStatus :=
  { s with
    network := (Network.tightenEach target s.network edges).1
    statistics := { s.statistics with
      derivedEdges := s.statistics.derivedEdges +
        (Network.tightenEach target s.network edges).2.length } }

theorem run_addEdges (s : StnuRun LinkStatus) (target : NodeId) (edges : List (NodeId × Value)) :
    (addEdges target edges).run s =
      .ok (Network.tightenEach target s.network edges).2 (tightened s target edges) := by
  have loop : ∀ (todo kept : List (NodeId × Value)) (s : StnuRun LinkStatus),
      ∃ result, (List.filterAuxM (fun (edge : NodeId × Value) =>
          StnuM.derive edge.1 target edge.2) todo kept).run s = .ok result (tightened s target todo) ∧
        result.reverse.map Prod.fst =
          kept.reverse.map Prod.fst ++ (Network.tightenEach target s.network todo).2 := by
    intro todo
    induction todo with
    | nil => exact fun kept s => ⟨kept, rfl, (List.append_nil _).symm⟩
    | cons edge rest ih =>
      intro kept s
      obtain ⟨source, value⟩ := edge
      rw [List.filterAuxM, EStateM.run_bind, StnuM.run_derive]
      dsimp only
      cases changed : (s.network.tighten source target value).2 with
      | true =>
        obtain ⟨result, run, same⟩ := ih ((source, value) :: kept) _
        refine ⟨result, run.trans ?_, same.trans ?_⟩
        · simp [tightened, Network.tightenEach, changed, Nat.add_assoc, Nat.add_comm 1]
        · simp [Network.tightenEach, changed]
      | false =>
        obtain ⟨result, run, same⟩ := ih kept _
        refine ⟨result, run.trans ?_, same.trans ?_⟩
        · simp [tightened, Network.tightenEach, changed]
        · simp [Network.tightenEach, changed]
  obtain ⟨result, run, same⟩ := loop edges [] s
  unfold addEdges
  rw [List.filterM, EStateM.run_bind, EStateM.run_bind, run]
  exact congrArg (EStateM.Result.ok · _) same

end LinkRun

end TemporalNetwork
