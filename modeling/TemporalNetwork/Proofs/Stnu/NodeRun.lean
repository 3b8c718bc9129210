import TemporalNetwork.Proofs.Stnu.Frontier
import TemporalNetwork.Proofs.Stnu.Statuses
import TemporalNetwork.Proofs.Stnu.Tightening

/-!
The steps of a run over the nodes with negative incoming edges: what has to be shown of a
back-propagation for each way in which it can go on.
-/

namespace TemporalNetwork

namespace NodeRun

variable {visit : NodeId → NodeRun Unit} {source : NodeId} {stops : Polls}

/-- The run after a distance has been made an edge. -/
def derived (s : StnuRun NodeStatus) (n source : NodeId) (w : Value) : StnuRun NodeStatus :=
  { s with
    network := (s.network.tighten n source w).1
    statistics := if (s.network.tighten n source w).2 then
        { s.statistics with derivedEdges := s.statistics.derivedEdges + 1 }
      else s.statistics }

theorem ends_derived (s : StnuRun NodeStatus) (n source : NodeId) (w : Value)
    {err : Interruption → StnuRun NodeStatus → Prop} :
    Ends ((fun _ => PUnit.unit) <$> StnuM.derive n source w) s
      (fun _ t => t = derived s n source w) err := by
  rw [map_eq_pure_bind, Ends, EStateM.run_bind, StnuM.run_derive]
  rfl

theorem ends_poll (stops : Polls) (s : StnuRun NodeStatus)
    {err : Interruption → StnuRun NodeStatus → Prop}
    (timeout : err .timeout { s with polls := s.polls + 1 }) :
    Ends (StnuM.poll stops) s (fun _ t => t = { s with polls := s.polls + 1 }) err := by
  unfold Ends StnuM.poll EStateM.run
  dsimp only
  cases stops s.polls with
  | true => exact timeout
  | false => rfl

/-- A frontier after a node has been settled. -/
def settled (f : Frontier) (rest : MinQueue) (n : NodeId) : Frontier :=
  { f with queue := rest, settled := f.settled.setIfInBounds n true }

theorem drain_ends {I : Nat → StnuRun NodeStatus → Frontier → Prop} {ok : Unit → StnuRun NodeStatus → Prop}
    {err : Interruption → StnuRun NodeStatus → Prop} (range : ∀ e s, err (.range e) s)
    (exhausted : ∀ s f, I 0 s f → ok () s)
    (empty : ∀ fuel s f, I fuel s f → f.queue.popMin = none → ok () s)
    (back : ∀ fuel s f d rest, I (fuel + 1) s f → f.queue.popMin = some ((source, d), rest) →
      if 0 ≤ d then I fuel s (settled f rest source) else err .notControllable s)
    (far : ∀ fuel s f n d rest, I (fuel + 1) s f → f.queue.popMin = some ((n, d), rest) →
      n ≠ source → 0 ≤ d → Value.IsFinite d → I fuel (derived s n source d) (settled f rest n))
    (near : ∀ fuel s f n d rest, I (fuel + 1) s f → f.queue.popMin = some ((n, d), rest) →
      n ≠ source → d < 0 → Ends (if s.network.hasNegativeInEdge n then visit n else pure ()) s
        (fun _ t => I fuel t ((settled f rest n).extend t.network n d)) err)
    (fuel : Nat) (s : StnuRun NodeStatus) (f : Frontier) (start : I fuel s f) :
    Ends (drain visit source fuel f) s ok err := by
  induction fuel generalizing s f with
  | zero => exact exhausted s f start
  | succ fuel ih =>
    rw [drain]
    cases popped : f.queue.popMin with
    | none => exact empty _ s f start popped
    | some entry =>
      obtain ⟨⟨n, d⟩, rest⟩ := entry
      dsimp only
      -- The four ways of a turn: back at the source or not, at a distance that is negative or not.
      by_cases same : n = source
      · subst same
        have back := back fuel s f d rest start popped
        by_cases nonneg : 0 ≤ d
        · rw [if_pos nonneg] at back ⊢
          rw [if_neg (by simp)]
          exact ih s _ back
        · rw [if_neg nonneg] at back ⊢
          rw [if_pos rfl]
          exact back
      · by_cases nonneg : 0 ≤ d
        · rw [if_pos nonneg, if_pos same, weight?]
          split
          · rename_i e failed
            exact range e s
          · rename_i w found
            split at found
            · rename_i finite
              cases found
              have next := ih _ _ (far fuel s f n d rest start popped same nonneg finite)
              refine (ends_derived s n source d).bind ?_
              rintro _ _ rfl
              exact next
            · cases found
        · rw [if_neg nonneg, if_neg same]
          have near := near fuel s f n d rest start popped same (not_le.mp nonneg)
          rw [ends_bind]
          change Ends (if s.network.hasNegativeInEdge n = true then _ else _) s ok err
          split at near
          · rename_i negative
            rw [if_pos negative]
            refine near.bind fun _ t holds => ?_
            exact ih t _ holds
          · rename_i none
            rw [if_neg none]
            exact ih s _ near

/-- The run when the back-propagation of a node has begun. -/
def begun (s : StnuRun NodeStatus) (source : NodeId) : StnuRun NodeStatus :=
  { s with
    polls := s.polls + 1
    statistics := { s.statistics with backPropagations := s.statistics.backPropagations + 1 }
    statuses := s.statuses.setIfInBounds source .inProgress
    moves := (source, .inProgress) :: s.moves }

/-- The run when the back-propagation of a node is done. -/
def ended (s : StnuRun NodeStatus) (source : NodeId) : StnuRun NodeStatus :=
  { s with
    statuses := s.statuses.setIfInBounds source .done
    moves := (source, .done) :: s.moves }

theorem statuses_begun {s : StnuRun NodeStatus} (within : source < s.statuses.size) (p : Nat) :
    (begun s source).statuses[p]? = if p = source then some .inProgress else s.statuses[p]? :=
  getElem?_setStatus within _ p

theorem statuses_ended {s : StnuRun NodeStatus} (within : source < s.statuses.size) (p : Nat) :
    (ended s source).statuses[p]? = if p = source then some .done else s.statuses[p]? :=
  getElem?_setStatus within _ p

/-- A node is treated once; it must not wait for itself. -/
theorem backPropagate_ends {depth : Nat} {s : StnuRun NodeStatus}
    {ok : Unit → StnuRun NodeStatus → Prop} {err : Interruption → StnuRun NodeStatus → Prop}
    (timeout : ∀ t, err .timeout t) (before : s.statuses[source]? = some .done → ok () s)
    (circle : s.statuses[source]? = some .inProgress → err .notControllable s)
    (fresh : s.statuses[source]? ≠ some .done → s.statuses[source]? ≠ some .inProgress →
      Ends (drain (backPropagate stops depth) source (s.network.nodeCount + 1)
        (Frontier.ofSource s.network source)) (begun s source) (fun _ t => ok () (ended t source))
        err) :
    Ends (backPropagate stops (depth + 1) source) s ok err := by
  unfold backPropagate
  have read : Ends (StnuM.status? source) s (fun o t => o = s.statuses[source]? ∧ t = s) err :=
    ⟨rfl, rfl⟩
  refine read.bind ?_
  rintro status t ⟨known, here⟩
  rw [here, known]
  split
  · rename_i same
    exact before same
  · rename_i same
    exact circle same
  · rename_i other started
    refine (ends_poll stops s (timeout _)).bind ?_
    rintro _ _ rfl
    change Ends (drain (backPropagate stops depth) source (s.network.nodeCount + 1)
      (Frontier.ofSource s.network source) >>= fun _ => StnuM.setStatus source .done)
      (begun s source) ok err
    exact (fresh other started).bind fun _ t holds => holds

end NodeRun

end TemporalNetwork
