import TemporalNetwork.Proofs.Loops
import TemporalNetwork.Proofs.Queue.OpenFront
import TemporalNetwork.Proofs.Stnu.Search
import TemporalNetwork.Proofs.Stnu.Tightening

/-!
The searches of a run over the links end by themselves: no node comes out of the queue twice, so the
limit on the nodes that are settled is not reached, whatever the potential. What a back-propagation
tells is read off the place at which its search stops.
-/

namespace TemporalNetwork

namespace BackPropagation.Query

/-- Where a search is. The edges it has found are listed with the latest first. -/
structure Place where
  queue : MinQueue
  settled : Array Bool
  edges : List (NodeId × Value)

/-- One turn of the search: a node is settled. -/
def visit (q : Query) (p : Place) : Place ⊕ BackPropagation :=
  match p.queue.popMin with
  | none => .inr (.completed p.edges.reverse)
  | some ((n, key), rest) =>
    let settled := p.settled.setIfInBounds n true
    let distance := q.distance n key
    let pass :=
      match q.extend? distance settled (q.network.inEdges n) rest with
      | none => .inr (.failed .notControllable)
      | some queue => .inl ⟨queue, settled, p.edges⟩
    if n = q.link.activation then
      if distance < q.link.upper then .inr (.failed .notControllable)
      else .inl ⟨rest, settled, p.edges⟩
    else if n = q.link.contingent then pass
    else if q.link.upper - q.link.lower ≤ distance then
      match weight? (distance - q.link.upper) with
      | .error e => .inr (.failed (.range e))
      | .ok w => .inl ⟨rest, settled, (n, w) :: p.edges⟩
    else
      match q.unfinishedLinkAt? n with
      | none => pass
      | some other =>
        if q.statuses[other]? = some .started then .inr (.failed .notControllable)
        else .inr (.interrupted other)

theorem settle_succ (q : Query) (fuel : Nat) (p : Place) :
    q.settle (fuel + 1) p.queue p.settled p.edges =
      match q.visit p with
      | .inl p => q.settle fuel p.queue p.settled p.edges
      | .inr outcome => outcome := by
  rw [settle, visit]
  cases p.queue.popMin with
  | none => rfl
  | some popped =>
    obtain ⟨⟨n, key⟩, rest⟩ := popped
    dsimp only
    rw [show key - q.network.potential n + q.network.potential q.link.contingent =
      q.distance n key from rfl]
    have pass : ∀ extended : Option MinQueue,
        (match extended with
        | none => .failed .notControllable
        | some queue => q.settle fuel queue (p.settled.setIfInBounds n true) p.edges) =
        match (match extended with
          | none => .inr (.failed .notControllable)
          | some queue => .inl ⟨queue, p.settled.setIfInBounds n true, p.edges⟩ :
            Place ⊕ BackPropagation) with
        | .inl p => q.settle fuel p.queue p.settled p.edges
        | .inr outcome => outcome := by
      rintro (_ | queue) <;> rfl
    split_ifs
    · rfl
    · rfl
    · exact pass _
    · cases weight? (q.distance n key - q.link.upper) <;> rfl
    · cases q.unfinishedLinkAt? n with
      | none => exact pass _
      | some other =>
        dsimp only
        split_ifs <;> rfl

/-- Where the search for a link starts. -/
def origin (q : Query) : Place :=
  ⟨(MinQueue.empty.insertOrDecrease q.link.contingent 0).1,
    Array.replicate q.network.nodeCount false, []⟩

variable {q : Query} {p p' : Place}

theorem exists_offer_of_extend? {distance : Int} {settled : Array Bool}
    {entering : List (NodeId × EdgeId)} {queue queue' : MinQueue}
    (extended : q.extend? distance settled entering queue = some queue') :
    ∃ candidates, queue' = queue.offer candidates ∧ ∀ m k, (m, k) ∈ candidates →
      settled.getD m false = false ∧ ∃ e, (m, e) ∈ entering := by
  induction entering generalizing queue with
  | nil =>
    cases extended
    exact ⟨[], rfl, nofun⟩
  | cons first rest ih =>
    obtain ⟨m, e⟩ := first
    have onward : ∀ {queue}, q.extend? distance settled rest queue = some queue' →
        ∃ candidates, queue' = queue.offer candidates ∧ ∀ m' k, (m', k) ∈ candidates →
          settled.getD m' false = false ∧ ∃ e', (m', e') ∈ (m, e) :: rest := by
      intro queue extended
      obtain ⟨candidates, same, fresh⟩ := ih extended
      refine ⟨candidates, same, fun m' k mem => ?_⟩
      obtain ⟨unmarked, e', listed⟩ := fresh m' k mem
      exact ⟨unmarked, e', List.mem_cons_of_mem _ listed⟩
    rw [extend?] at extended
    split at extended
    · exact onward extended
    · rename_i unmarked
      split at extended
      · exact onward extended
      · dsimp only at extended
        split at extended
        · split at extended
          · cases extended
          · exact onward extended
        · obtain ⟨candidates, same, fresh⟩ := onward extended
          refine ⟨(m, _) :: candidates, same, fun m' k mem => ?_⟩
          rcases List.mem_cons.mp mem with here | later
          · cases here
            exact ⟨by simpa using unmarked, e, List.mem_cons_self⟩
          · exact fresh m' k later

/-- What holds wherever a search comes: the edges it has found leave nodes and are finite. -/
structure Place.Sound (q : Query) (p : Place) : Prop where
  front : OpenFront q.network.nodeCount p.queue p.settled
  found : ∀ v w, (v, w) ∈ p.edges → v < q.network.nodeCount ∧ Value.IsFinite w

theorem Place.sound_origin (inside : q.link.contingent < q.network.nodeCount) :
    Place.Sound q q.origin :=
  ⟨.start _ _ inside 0, nofun⟩

/-- What a turn of the search can do. -/
inductive Visited (q : Query) (p : Place) : Place ⊕ BackPropagation → Prop
  | exhausted : Visited q p (.inr (.completed p.edges.reverse))
  | failed (reason : Interruption) : Visited q p (.inr (.failed reason))
  | interrupted {n : NodeId} {other : Nat} (found : q.unfinishedLinkAt? n = some other)
      (notStarted : q.statuses[other]? ≠ some .started) : Visited q p (.inr (.interrupted other))
  | settled {n : NodeId} {key : Int} {rest : MinQueue} {edges : List (NodeId × Value)}
      (pop : p.queue.popMin = some ((n, key), rest)) (candidates : List (Nat × Int))
      (offered : ∀ m k, (m, k) ∈ candidates →
        (p.settled.setIfInBounds n true).getD m false = false ∧ ∃ e, (m, e) ∈ q.network.inEdges n)
      (found : ∀ v w, (v, w) ∈ edges → (v, w) ∈ p.edges ∨ v = n ∧ Value.IsFinite w) :
      Visited q p (.inl ⟨rest.offer candidates, p.settled.setIfInBounds n true, edges⟩)

theorem visited (q : Query) (p : Place) : q.Visited p (q.visit p) := by
  rw [visit]
  cases pop : p.queue.popMin with
  | none => exact .exhausted
  | some popped =>
    obtain ⟨⟨n, key⟩, rest⟩ := popped
    -- Two of the branches go on past the node in the same way.
    have pass : q.Visited p
        (match q.extend? (q.distance n key) (p.settled.setIfInBounds n true) (q.network.inEdges n)
            rest with
        | none => .inr (.failed .notControllable)
        | some queue => .inl ⟨queue, p.settled.setIfInBounds n true, p.edges⟩) := by
      split
      · exact .failed _
      · rename_i extended
        obtain ⟨candidates, rfl, offered⟩ := exists_offer_of_extend? extended
        exact .settled pop candidates offered fun _ _ => Or.inl
    dsimp only
    split
    · split
      · exact .failed _
      · exact .settled pop [] nofun fun _ _ => Or.inl
    · split
      · exact pass
      · split
        · split
          · exact .failed _
          · rename_i finite
            refine .settled pop [] nofun fun v w mem => ?_
            rcases List.mem_cons.mp mem with here | before
            · cases here
              exact Or.inr ⟨rfl, (weight?_ok finite).2⟩
            · exact Or.inl before
        · split
          · exact pass
          · rename_i found
            split
            · exact .failed _
            · rename_i notStarted
              exact .interrupted found notStarted

theorem Place.Sound.visit (wf : q.network.WellFormed) (sound : p.Sound q)
    (turned : q.visit p = .inl p') : p'.Sound q ∧ unsettled p'.settled < unsettled p.settled := by
  have visited := q.visited p
  rw [turned] at visited
  cases visited with
  | @settled n key rest edges pop candidates offered found =>
    have inside := (sound.front.popped pop).1
    refine ⟨⟨(sound.front.settle pop).offer candidates fun m k mem => ?_, fun v w mem => ?_⟩,
      sound.front.unsettled_lt pop⟩
    · obtain ⟨unmarked, e, listed⟩ := offered m k mem
      exact ⟨(wf.lt_of_findEdge? ((wf.mem_inEdges inside).mp listed)).1, unmarked⟩
    · rcases found v w mem with before | ⟨rfl, finite⟩
      · exact sound.found v w before
      · exact ⟨inside, finite⟩

end BackPropagation.Query

namespace BackPropagation

variable {g : PlainNetwork} {links : List StnuLink} {statuses : Array LinkStatus} {i : Nat}
  {link : StnuLink}

theorem endsWith_ofLink (wf : g.WellFormed) (links : List StnuLink) (statuses : Array LinkStatus)
    (i : Nat) (inside : link.contingent < g.nodeCount) :
    EndsWith (Query.visit ⟨g, links, statuses, i, link⟩) (Query.origin ⟨g, links, statuses, i, link⟩)
      (ofLink g links statuses i link) := by
  refine endsWith_limited
    (fun fuel p => Query.settle ⟨g, links, statuses, i, link⟩ fuel p.queue p.settled p.edges)
    (Query.Place.Sound _) (fun p => unsettled p.settled) (fun fuel p => ?_)
    (fun p p' sound visited => sound.visit wf visited) (g.nodeCount + 1) _ ?_ ?_
  · rw [Query.settle_succ]
    cases Query.visit _ p <;> rfl
  · exact Query.Place.sound_origin (q := ⟨g, links, statuses, i, link⟩) inside
  · simp [Query.origin, unsettled, Array.countP_replicate]

/-- The place at which the search of a back-propagation stops. -/
theorem exists_last (wf : g.WellFormed) (links : List StnuLink) (statuses : Array LinkStatus)
    (i : Nat) (inside : link.contingent < g.nodeCount) :
    ∃ p : Query.Place, p.Sound ⟨g, links, statuses, i, link⟩ ∧
      Query.visit ⟨g, links, statuses, i, link⟩ p = .inr (ofLink g links statuses i link) := by
  obtain ⟨p, comes, stops⟩ := endsWith_ofLink wf links statuses i inside
  refine ⟨p, comes.keeps (I := Query.Place.Sound _) ?_ ?_, stops⟩
  · exact Query.Place.sound_origin (q := ⟨g, links, statuses, i, link⟩) inside
  · exact fun _ _ sound turned => (sound.visit wf turned).1

theorem range_of_completed (wf : g.WellFormed) (inside : link.contingent < g.nodeCount)
    {edges : List (NodeId × Value)} (completes : ofLink g links statuses i link = .completed edges)
    {v : NodeId} {w : Value} (mem : (v, w) ∈ edges) : v < g.nodeCount ∧ Value.IsFinite w := by
  obtain ⟨p, sound, stops⟩ := exists_last wf links statuses i inside
  have visited := Query.visited ⟨g, links, statuses, i, link⟩ p
  rw [stops, completes] at visited
  cases visited with
  | exhausted => exact sound.found v w (List.mem_reverse.mp mem)

theorem tightenedBy_of_completed (wf : g.WellFormed)
    (inside : link.activation < g.nodeCount ∧ link.contingent < g.nodeCount)
    {edges : List (NodeId × Value)} (completes : ofLink g links statuses i link = .completed edges) :
    g.TightenedBy link.activation edges (Network.tightenEach link.activation g edges).1
      (Network.tightenEach link.activation g edges).2 := by
  refine Network.tightenEach_spec wf inside.1 fun v w mem => ?_
  obtain ⟨node, finite⟩ := range_of_completed wf inside.2 completes mem
  exact ⟨node, finite.2⟩

theorem unstarted_of_interrupted (wf : g.WellFormed) (inside : link.contingent < g.nodeCount)
    (size : statuses.size = links.length) {next : Nat}
    (waits : ofLink g links statuses i link = .interrupted next) :
    statuses[next]? = some .unstarted := by
  obtain ⟨p, _, stops⟩ := exists_last wf links statuses i inside
  have visited := Query.visited ⟨g, links, statuses, i, link⟩ p
  rw [stops, waits] at visited
  cases visited with
  | interrupted found notStarted =>
    obtain ⟨_, listed, _, _, unfinished⟩ := Query.unfinishedLinkAt?_some found
    obtain ⟨within, _⟩ := List.getElem?_eq_some_iff.mp listed
    have within' : next < statuses.size := size.symm ▸ within
    dsimp only at unfinished notStarted
    rw [Array.getElem?_eq_getElem within'] at unfinished notStarted ⊢
    cases status : statuses[next] with
    | unstarted => rfl
    | started => exact absurd (congrArg some status) notStarted
    | finished => exact absurd (congrArg some status) unfinished

end BackPropagation

namespace Potential

/-- Where the lowering of potentials is. The new potentials are listed with the latest first. -/
structure Descent where
  queue : MinQueue
  settled : Array Bool
  updates : List (NodeId × Int)

/-- One turn of the lowering: a node is settled. -/
def Descent.next (g : PlainNetwork) (decrease : Int) (p : Descent) :
    Descent ⊕ List (NodeId × Int) :=
  match p.queue.popMin with
  | none => .inr p.updates.reverse
  | some ((n, key), rest) =>
    let settled := p.settled.setIfInBounds n true
    .inl ⟨rest.offer (nextKeys g decrease n key settled), settled,
      (n, g.potential n - (decrease - key)) :: p.updates⟩

/-- Where the lowering of the nodes close to `n` starts. -/
def Descent.origin (g : PlainNetwork) (n : NodeId) : Descent :=
  ⟨(MinQueue.empty.insertOrDecrease n 0).1, Array.replicate g.nodeCount false, []⟩

theorem endsWith_lowered {g : PlainNetwork} (wf : g.WellFormed) (decrease : Int) {n : NodeId}
    (inside : n < g.nodeCount) :
    EndsWith (Descent.next g decrease) (Descent.origin g n)
      (lowered g decrease (g.nodeCount + 1) (Descent.origin g n).queue
        (Descent.origin g n).settled) := by
  refine endsWith_limited
    (fun fuel (p : Descent) => p.updates.reverse ++ lowered g decrease fuel p.queue p.settled)
    (fun p => OpenFront g.nodeCount p.queue p.settled) (fun p => unsettled p.settled)
    (fun fuel p => ?_) (fun p p' front turned => ?_) (g.nodeCount + 1) (Descent.origin g n)
    (OpenFront.start _ _ inside 0) ?_
  · rw [lowered_succ, Descent.next]
    cases p.queue.popMin with
    | none => simp
    | some popped => simp
  · rw [Descent.next] at turned
    cases pop : p.queue.popMin with
    | none =>
      rw [pop] at turned
      cases turned
    | some popped =>
      obtain ⟨⟨m, key⟩, rest⟩ := popped
      rw [pop] at turned
      cases turned
      refine ⟨(front.settle pop).offer _ fun v k offered => ?_, front.unsettled_lt pop⟩
      obtain ⟨unmarked, w, weight, _⟩ := (mem_nextKeys wf (front.popped pop).1).mp offered
      exact ⟨(Network.lt_of_weightBetween? wf weight).2, unmarked⟩
  · simp [Descent.origin, unsettled, Array.countP_replicate]

end Potential

end TemporalNetwork
