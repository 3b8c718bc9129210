import TemporalNetwork.Proofs.Loops
import TemporalNetwork.Proofs.Queue.OpenFront
import TemporalNetwork.Proofs.Stnu.NodeSearch
import TemporalNetwork.Proofs.Stnu.NormalTimes

/-!
The calls of a run over the nodes with negative incoming edges. The run is a machine without limits
whose calls are on a stack: a back-propagation that comes to another such node stays there until that
one is done. The nodes in progress are those on the stack at every moment, and none begins twice.
-/

namespace TemporalNetwork

namespace NodeRun

open StnuM

/-- A call that is not over: a node to visit, a back-propagation that settles the next node, or one
that passes the node it has settled. The nodes that it has taken from its queue are listed with the
latest first. -/
inductive Call where
  | visit (source : NodeId)
  | drain (source : NodeId) (f : Frontier) (popped : List NodeId)
  | extend (source : NodeId) (f : Frontier) (popped : List NodeId) (n : NodeId) (distance : Int)

def Call.source? : Call → Option NodeId
  | .visit _ => none
  | .drain source _ _ => some source
  | .extend source _ _ _ _ => some source

def Call.popped : Call → List NodeId
  | .visit _ => []
  | .drain _ _ popped => popped
  | .extend _ _ popped _ _ => popped

/-- The sources of the back-propagations on the stack, the latest first. -/
def sources (stack : List Call) : List NodeId := stack.filterMap Call.source?

theorem sources_append (calls rest : List Call) :
    sources (calls ++ rest) = sources calls ++ sources rest := List.filterMap_append

/-- One turn of a call: the calls that are left of it. -/
def turn (stops : Polls) : Call → NodeRun (List Call)
  | .visit source => do
    match ← status? source with
    | some .done => return []
    | some .inProgress => throw .notControllable
    | _ =>
      poll stops
      setStatus source .inProgress
      count fun s => { s with backPropagations := s.backPropagations + 1 }
      return [.drain source (Frontier.ofSource (← network) source) []]
  | .drain source f popped => do
    match f.queue.popMin with
    | none =>
      setStatus source .done
      return []
    | some ((n, distance), queue) =>
      let f := settled f queue n
      if 0 ≤ distance then
        if n ≠ source then
          match weight? distance with
          | .error e => throw (.range e)
          | .ok w => discard <| derive n source w
        return [.drain source f (n :: popped)]
      else if n = source then throw .notControllable
      else
        if (← network).hasNegativeInEdge n then
          return [.visit n, .extend source f (n :: popped) n distance]
        return [.extend source f (n :: popped) n distance]
  | .extend source f popped n distance => do
    return [.drain source (f.extend (← network) n distance) popped]

/-- What a turn of a call does unless it ends the run. -/
inductive Turned (s : StnuRun NodeStatus) : Call → List Call → StnuRun NodeStatus → Prop
  | again {source : NodeId} (done : s.statuses[source]? = some .done) :
      Turned s (.visit source) [] s
  | begin {source : NodeId} (notDone : s.statuses[source]? ≠ some .done)
      (notWaiting : s.statuses[source]? ≠ some .inProgress) :
      Turned s (.visit source) [.drain source (Frontier.ofSource s.network source) []]
        (begun s source)
  | done {source : NodeId} {f : Frontier} {popped : List NodeId} (empty : f.queue.popMin = none) :
      Turned s (.drain source f popped) [] (ended s source)
  | back {source : NodeId} {f : Frontier} {popped : List NodeId} {d : Int} {rest : MinQueue}
      (pop : f.queue.popMin = some ((source, d), rest)) :
      Turned s (.drain source f popped) [.drain source (settled f rest source) (source :: popped)] s
  | far {source n : NodeId} {f : Frontier} {popped : List NodeId} {d : Int} {rest : MinQueue}
      (pop : f.queue.popMin = some ((n, d), rest)) (apart : n ≠ source) (finite : Value.IsFinite d) :
      Turned s (.drain source f popped) [.drain source (settled f rest n) (n :: popped)]
        (derived s n source d)
  | near {source n : NodeId} {f : Frontier} {popped : List NodeId} {d : Int} {rest : MinQueue}
      {first : List Call} (pop : f.queue.popMin = some ((n, d), rest))
      (visits : first = [.visit n] ∨ first = []) :
      Turned s (.drain source f popped)
        (first ++ [.extend source (settled f rest n) (n :: popped) n d]) s
  | extend {source n : NodeId} {f : Frontier} {popped : List NodeId} {d : Int} :
      Turned s (.extend source f popped n d) [.drain source (f.extend s.network n d) popped] s

/-- A turn that ends the run begins no back-propagation. -/
def Unmoved (s t : StnuRun NodeStatus) : Prop :=
  t.statuses = s.statuses ∧ t.moves = s.moves ∧
    t.statistics.backPropagations = s.statistics.backPropagations

theorem turn_ends (stops : Polls) (s : StnuRun NodeStatus) (call : Call) :
    Ends (turn stops call) s (Turned s call) fun _ => Unmoved s := by
  have unmoved : Unmoved s s := ⟨rfl, rfl, rfl⟩
  cases call with
  | visit source =>
    have read : Ends (status? source) s (fun o t => o = s.statuses[source]? ∧ t = s)
      fun _ => Unmoved s := ⟨rfl, rfl⟩
    refine read.bind ?_
    rintro status t ⟨known, here⟩
    rw [here, known]
    split
    · rename_i same
      exact .again same
    · exact unmoved
    · rename_i other started
      refine (ends_poll stops s ⟨rfl, rfl, rfl⟩).bind ?_
      rintro _ _ rfl
      exact .begin other started
  | drain source f popped =>
    rw [turn]
    cases pop : f.queue.popMin with
    | none => exact .done pop
    | some entry =>
      obtain ⟨⟨n, d⟩, rest⟩ := entry
      dsimp only
      -- A distance that is not negative ends the walk: at the source itself, or with an edge from where
      -- it ends.
      by_cases nonneg : 0 ≤ d
      · rw [if_pos nonneg]
        by_cases same : n = source
        · subst same
          rw [if_neg (by simp)]
          exact .back pop
        · rw [if_pos same, weight?]
          split
          · exact unmoved
          · rename_i w found
            split at found
            · rename_i finite
              cases found
              refine (ends_derived s n source d).bind ?_
              rintro _ _ rfl
              exact .far pop same finite
            · cases found
      · rw [if_neg nonneg]
        split
        · exact unmoved
        · change Ends (if s.network.hasNegativeInEdge n = true then _ else _) s _ _
          split
          · exact .near pop (Or.inl rfl)
          · exact .near pop (Or.inr rfl)
  | extend source f popped n d => exact .extend

/-- What a call does, with a limit on the nodes that are settled. -/
def perform (visit : NodeId → NodeRun Unit) (fuel : Nat) : Call → NodeRun Unit
  | .visit n => visit n
  | .drain source f _ => do
    drain visit source fuel f
    setStatus source .done
  | .extend source f _ n d => do
    drain visit source fuel (f.extend (← network) n d)
    setStatus source .done

theorem perform_extend (visit : NodeId → NodeRun Unit) (stops : Polls) (fuel : Nat)
    (source : NodeId) (f : Frontier) (popped : List NodeId) (n : NodeId) (d : Int) :
    perform visit fuel (.extend source f popped n d) =
      turn stops (.extend source f popped n d) >>= fun calls => calls.forM (perform visit fuel) := by
  rw [perform, turn, bind_assoc]
  exact bind_congr fun _ => bind_pure_unit.symm

theorem perform_drain (visit : NodeId → NodeRun Unit) (stops : Polls) (fuel : Nat)
    (source : NodeId) (f : Frontier) (popped : List NodeId) :
    perform visit (fuel + 1) (.drain source f popped) =
      turn stops (.drain source f popped) >>= fun calls => calls.forM (perform visit fuel) := by
  have one : ∀ call, List.forM [call] (perform visit fuel) = perform visit fuel call :=
    fun _ => bind_pure_unit
  rw [perform, turn, drain]
  cases f.queue.popMin with
  | none => rfl
  | some entry =>
    obtain ⟨⟨n, d⟩, rest⟩ := entry
    dsimp only
    split_ifs
    · cases weight? d with
      | error e => rfl
      | ok w =>
        simp only [bind_assoc, pure_bind, one]
        rfl
    · rw [pure_bind, one]
      rfl
    · rfl
    · rw [bind_assoc, bind_assoc]
      refine bind_congr fun g => ?_
      split
      · rw [bind_assoc, pure_bind]
        exact bind_congr fun _ => (one (.extend source (settled f rest n) (n :: popped) n d)).symm
      · rw [pure_bind, one]
        rfl

theorem backPropagate_succ (stops : Polls) (depth : Nat) (source : NodeId) :
    backPropagate stops (depth + 1) source =
      turn stops (.visit source) >>= fun calls => (do
        let g ← network
        calls.forM (perform (backPropagate stops depth) (g.nodeCount + 1))) := by
  have one : ∀ fuel call, List.forM [call] (perform (backPropagate stops depth) fuel) =
    perform (backPropagate stops depth) fuel call := fun _ _ => bind_pure_unit
  rw [backPropagate, turn]
  simp only [bind_assoc]
  refine bind_congr fun status => ?_
  rcases status with _ | _ | _ | _
  · simp only [bind_assoc, pure_bind, one]
    rfl
  · simp only [bind_assoc, pure_bind, one]
    rfl
  · rfl
  · rfl

variable {size : Nat} {stops : Polls} {s t : StnuRun NodeStatus} {source : NodeId} {f : Frontier}
  {popped : List NodeId} {call : Call} {calls rest : List Call} {depth fuel : Nat}

/-- What a run needs and keeps. -/
structure Fit (size : Nat) (s : StnuRun NodeStatus) : Prop where
  wellFormed : s.network.WellFormed
  nodeCount : s.network.nodeCount = size
  size_statuses : s.statuses.size = size

/-- The nodes that a back-propagation has taken from its queue do not wait there again. -/
structure Settling (size : Nat) (f : Frontier) (popped : List NodeId) : Prop where
  front : OpenFront size f.queue f.settled
  marked : ∀ n ∈ popped, f.settled.getD n false = true
  nodup : popped.Nodup

namespace Settling

theorem start {g : PlainNetwork} (wf : g.WellFormed) (inside : source < g.nodeCount) :
    Settling g.nodeCount (Frontier.ofSource g source) [] := by
  refine ⟨?_, nofun, List.nodup_nil⟩
  rw [Frontier.ofSource_eq, Frontier.queue_offerAll, Frontier.settled_offerAll]
  refine (OpenFront.blank _).offer _ fun m k mem => ?_
  obtain ⟨⟨m, k, o⟩, listed, same⟩ := List.mem_map.mp mem
  cases same
  have inside' := (((Frontier.mem_startsInto wf inside).mp listed).lt wf).1
  exact ⟨inside', by simp [Array.getD_eq_getD_getElem?, inside']⟩

theorem settle (settling : Settling size f popped) {n : NodeId} {d : Int} {rest : MinQueue}
    (pop : f.queue.popMin = some ((n, d), rest)) :
    Settling size (settled f rest n) (n :: popped) := by
  obtain ⟨inside, unmarked⟩ := settling.front.popped pop
  have within : n < f.settled.size := settling.front.size_settled.symm ▸ inside
  have fresh : n ∉ popped := fun mem => by
    rw [settling.marked n mem] at unmarked
    cases unmarked
  refine ⟨settling.front.settle pop, fun m mem => ?_, List.nodup_cons.mpr ⟨fresh, settling.nodup⟩⟩
  rw [settled, SearchFront.getD_setIfInBounds within]
  split
  · rfl
  · rename_i other
    exact settling.marked m ((List.mem_cons.mp mem).resolve_left other)

theorem extend (settling : Settling size f popped) {g : PlainNetwork} (wf : g.WellFormed)
    (count : g.nodeCount = size) {n : NodeId} (inside : n < size) (d : Int) :
    Settling size (f.extend g n d) popped := by
  rw [Frontier.extend_eq]
  refine ⟨?_, fun m mem => ?_, settling.nodup⟩
  · rw [Frontier.queue_offerAll, Frontier.settled_offerAll]
    refine settling.front.offer _ fun m k mem => ?_
    obtain ⟨⟨m, k, o⟩, listed, same⟩ := List.mem_map.mp mem
    cases same
    obtain ⟨unmarked, w, weight, _⟩ := (Frontier.mem_extensions wf (count ▸ inside)).mp listed
    exact ⟨count ▸ (Network.lt_of_extension? wf weight).1, unmarked⟩
  · rw [Frontier.settled_offerAll]
    exact settling.marked m mem

end Settling

/-- What is true of a call on the stack. -/
def Call.Sound (size : Nat) : Call → Prop
  | .visit n => n < size
  | .drain source f popped => source < size ∧ Settling size f popped
  | .extend source f popped n _ => source < size ∧ n < size ∧ Settling size f popped

theorem Turned.sound (turned : Turned s call calls t) (fit : Fit size s) (sound : call.Sound size) :
    Fit size t ∧ ∀ c ∈ calls, c.Sound size := by
  cases turned with
  | again _ => exact ⟨fit, nofun⟩
  | begin _ _ =>
    refine ⟨⟨fit.wellFormed, fit.nodeCount, Array.size_setIfInBounds.trans fit.size_statuses⟩, ?_⟩
    refine List.forall_mem_singleton.mpr ⟨sound, ?_⟩
    have inside := sound
    rw [← fit.nodeCount] at inside ⊢
    exact .start fit.wellFormed inside
  | done _ =>
    exact ⟨⟨fit.wellFormed, fit.nodeCount, Array.size_setIfInBounds.trans fit.size_statuses⟩, nofun⟩
  | back pop =>
    obtain ⟨inside, settling⟩ := sound
    exact ⟨fit, List.forall_mem_singleton.mpr ⟨inside, settling.settle pop⟩⟩
  | @far source n f popped d rest pop apart finite =>
    obtain ⟨inside, settling⟩ := sound
    have hn := (settling.front.popped pop).1
    refine ⟨?_, List.forall_mem_singleton.mpr ⟨inside, settling.settle pop⟩⟩
    rw [← fit.nodeCount] at hn inside
    have tightened := Network.tightenedInto_tighten fit.wellFormed hn inside finite.2
    exact ⟨fit.wellFormed.tighten hn inside d, tightened.nodeCount.trans fit.nodeCount,
      fit.size_statuses⟩
  | @near source n f popped d rest first pop visits =>
    obtain ⟨inside, settling⟩ := sound
    have hn := (settling.front.popped pop).1
    refine ⟨fit, List.forall_mem_append.mpr ⟨?_, List.forall_mem_singleton.mpr
      ⟨inside, hn, settling.settle pop⟩⟩⟩
    rcases visits with rfl | rfl
    · exact List.forall_mem_singleton.mpr hn
    · exact nofun
  | extend =>
    obtain ⟨inside, hn, settling⟩ := sound
    exact ⟨fit, List.forall_mem_singleton.mpr
      ⟨inside, settling.extend fit.wellFormed fit.nodeCount hn _⟩⟩

theorem unvisited_subset_of_set {status : NodeStatus} (other : status ≠ .unvisited)
    (set : t.statuses = s.statuses.setIfInBounds source status) : unvisited t ⊆ unvisited s := by
  intro n mem
  obtain ⟨inside, fresh⟩ := Finset.mem_filter.mp mem
  rw [set, Array.size_setIfInBounds] at inside
  refine Finset.mem_filter.mpr ⟨inside, ?_⟩
  rw [set, Array.getElem?_setIfInBounds] at fresh
  split at fresh
  · split at fresh
    · exact absurd (Option.some.inj fresh) other
    · cases fresh
  · exact fresh

theorem Turned.unvisited_subset (turned : Turned s call calls t) : unvisited t ⊆ unvisited s := by
  cases turned with
  | again _ => exact Finset.Subset.refl _
  | begin _ _ => exact unvisited_subset_of_set (by decide) rfl
  | done _ => exact unvisited_subset_of_set (by decide) rfl
  | back _ => exact Finset.Subset.refl _
  | far _ _ _ => exact Finset.Subset.refl _
  | near _ _ => exact Finset.Subset.refl _
  | extend => exact Finset.Subset.refl _

theorem Fit.of_comes {stack stack' : List Call} (fit : Fit size s)
    (sound : ∀ c ∈ stack, c.Sound size)
    (comes : Comes (stackTurn (turn stops)) (stack, s) (stack', t)) :
    Fit size t ∧ (∀ c ∈ stack', c.Sound size) ∧ unvisited t ⊆ unvisited s := by
  refine comes.keeps_stack (I := fun stack t => Fit size t ∧ (∀ c ∈ stack, c.Sound size) ∧
    unvisited t ⊆ unvisited s) ⟨fit, sound, Finset.Subset.refl _⟩ fun call rest u known => ?_
  obtain ⟨fit, sound, subset⟩ := known
  obtain ⟨here, below⟩ := List.forall_mem_cons.mp sound
  refine (turn_ends stops u call).mono (fun calls t turned => ?_) fun _ _ _ => trivial
  obtain ⟨fit', sound'⟩ := turned.sound fit here
  exact ⟨fit', List.forall_mem_append.mpr ⟨sound', below⟩, turned.unvisited_subset.trans subset⟩

/-- Whether the limit is above the number of nodes that a call may settle. -/
def Call.Within (fuel : Nat) : Call → Prop
  | .visit _ => True
  | .drain _ f _ => unsettled f.settled < fuel
  | .extend _ f _ _ _ => unsettled f.settled < fuel

theorem Turned.within (turned : Turned s (.drain source f popped) calls t)
    (sound : (Call.drain source f popped).Sound size)
    (enough : (Call.drain source f popped).Within (fuel + 1)) : ∀ c ∈ calls, c.Within fuel := by
  have less : ∀ {n d rest}, f.queue.popMin = some ((n, d), rest) →
      unsettled (settled f rest n).settled < fuel := fun pop =>
    (sound.2.front.unsettled_lt pop).trans_le (Nat.le_of_lt_succ enough)
  cases turned with
  | done _ => exact nofun
  | back pop => exact List.forall_mem_singleton.mpr (less pop)
  | far pop _ _ => exact List.forall_mem_singleton.mpr (less pop)
  | near pop visits =>
    refine List.forall_mem_append.mpr ⟨?_, List.forall_mem_singleton.mpr (less pop)⟩
    rcases visits with rfl | rfl
    · exact List.forall_mem_singleton.mpr trivial
    · exact nofun

theorem Turned.within_extend {n : NodeId} {d : Int}
    (turned : Turned s (.extend source f popped n d) calls t)
    (enough : (Call.extend source f popped n d).Within fuel) : ∀ c ∈ calls, c.Within fuel := by
  cases turned with
  | extend =>
    refine List.forall_mem_singleton.mpr ?_
    change unsettled (f.extend s.network n d).settled < fuel
    rw [Frontier.extend_eq, Frontier.settled_offerAll]
    exact enough

section perform

variable {visit : NodeId → NodeRun Unit}

theorem performs_forM (todo : List Call) (sound : ∀ c ∈ todo, c.Sound size)
    (each : ∀ c ∈ todo, ∀ t, Fit size t → (unvisited t).card < depth →
      Performs (turn stops) [c] (perform visit fuel c) t) (s : StnuRun NodeStatus)
    (fit : Fit size s) (fewer : (unvisited s).card < depth) :
    Performs (turn stops) todo (todo.forM (perform visit fuel)) s := by
  have performs := Performs.forM id (I := fun t => Fit size t ∧ (unvisited t).card < depth) todo
    (fun c mem t known => each c mem t known.1 known.2) (fun c mem t u known comes => ?_) s
    ⟨fit, fewer⟩
  · rwa [List.map_id] at performs
  · obtain ⟨fit', _, subset⟩ :=
      known.1.of_comes (List.forall_mem_singleton.mpr (sound c mem)) comes
    exact ⟨fit', (Finset.card_le_card subset).trans_lt known.2⟩

theorem performs_perform (visits : ∀ n < size, ∀ t, Fit size t → (unvisited t).card < depth →
      Performs (turn stops) [.visit n] (visit n) t) (fuel : Nat) (call : Call)
    (sound : call.Sound size) (enough : call.Within fuel) (s : StnuRun NodeStatus)
    (fit : Fit size s) (fewer : (unvisited s).card < depth) :
    Performs (turn stops) [call] (perform visit fuel call) s := by
  induction fuel generalizing call s with
  | zero =>
    cases call with
    | visit n => exact visits n sound s fit fewer
    | drain _ _ _ => exact absurd enough (Nat.not_lt_zero _)
    | extend _ _ _ _ _ => exact absurd enough (Nat.not_lt_zero _)
  | succ fuel ih =>
    -- A drain is a turn of the machine and then what the turn calls; the calls have less fuel, but as
    -- many nodes to visit.
    have drains : ∀ source f popped t, (Call.drain source f popped).Sound size →
        (Call.drain source f popped).Within (fuel + 1) → Fit size t → (unvisited t).card < depth →
        Performs (turn stops) [.drain source f popped]
          (perform visit (fuel + 1) (.drain source f popped)) t := by
      intro source f popped t sound enough fit fewer
      rw [perform_drain visit stops]
      refine .of_turn_bind fun calls u run => ?_
      have turned := (turn_ends stops t _).of_ok run
      obtain ⟨fit', sound'⟩ := turned.sound fit sound
      have enough' := turned.within sound enough
      rw [List.append_nil]
      exact performs_forM calls sound' (fun c mem v => ih c (sound' c mem) (enough' c mem) v) u fit'
        ((Finset.card_le_card turned.unvisited_subset).trans_lt fewer)
    cases call with
    | visit n => exact visits n sound s fit fewer
    | drain source f popped => exact drains source f popped s sound enough fit fewer
    | extend source f popped n d =>
      rw [perform_extend visit stops]
      refine .of_turn_bind fun calls u run => ?_
      have turned := (turn_ends stops s _).of_ok run
      obtain ⟨fit', sound'⟩ := turned.sound fit sound
      have enough' := turned.within_extend enough
      have fewer' := (Finset.card_le_card turned.unvisited_subset).trans_lt fewer
      rw [List.append_nil]
      refine performs_forM calls sound' (fun c mem v fit fewer => ?_) u fit' fewer'
      cases turned with
      | extend =>
        cases List.mem_singleton.mp mem
        exact drains _ _ _ v (sound' _ mem) (enough' _ mem) fit fewer

end perform

theorem performs_network_bind {m : PlainNetwork → NodeRun Unit} :
    Performs (turn stops) calls (network >>= m) s ↔ Performs (turn stops) calls (m s.network) s :=
  Iff.rfl

theorem performs_backPropagate (stops : Polls) (depth : Nat) (source : NodeId)
    (inside : source < size) (s : StnuRun NodeStatus) (fit : Fit size s)
    (enough : (unvisited s).card < depth) :
    Performs (turn stops) [.visit source] (backPropagate stops depth source) s := by
  induction depth generalizing source s with
  | zero => exact absurd enough (Nat.not_lt_zero _)
  | succ depth ih =>
    rw [backPropagate_succ]
    refine .of_turn_bind fun calls t run => ?_
    have turned := (turn_ends stops s _).of_ok run
    obtain ⟨fit', sound'⟩ := turned.sound fit inside
    rw [List.append_nil, performs_network_bind]
    cases turned with
    | again _ => exact .nil s
    | begin notDone notWaiting =>
      have within : source < s.statuses.size := fit.size_statuses.symm ▸ inside
      have fewer : (unvisited (begun s source)).card < depth :=
        (card_unvisited_begun within notDone notWaiting).trans_le (Nat.le_of_lt_succ enough)
      refine performs_forM _ sound' (fun c mem u fit fewer => ?_) _ fit' fewer
      refine performs_perform ih _ c (sound' c mem) ?_ u fit fewer
      cases List.mem_singleton.mp mem
      change unsettled (Frontier.ofSource s.network source).settled < s.network.nodeCount + 1
      rw [Frontier.ofSource_eq, Frontier.settled_offerAll]
      simp [Frontier.blank, unsettled, Array.countP_replicate]

theorem performs_processAll (stops : Polls) (s : StnuRun NodeStatus)
    (fit : Fit s.network.nodeCount s) :
    Performs (turn stops) ((s.network.nodeIds.filter s.network.hasNegativeInEdge).map .visit)
      (processAll stops) s := by
  rw [processAll, performs_network_bind]
  refine .forM Call.visit _ (fun n mem t fit => ?_) (fun n mem t u fit comes => ?_) s fit
  · have inside := List.mem_range.mp (List.mem_filter.mp mem).1
    have all := card_unvisited_le t
    rw [fit.size_statuses] at all
    exact performs_backPropagate stops _ n inside t fit (Nat.lt_succ_of_le all)
  · have sound : ∀ c ∈ [Call.visit n], c.Sound s.network.nodeCount :=
      List.forall_mem_singleton.mpr (List.mem_range.mp (List.mem_filter.mp mem).1)
    exact (fit.of_comes sound comes).1

/-- The nodes whose back-propagation has begun, the latest first. -/
def entered (s : StnuRun NodeStatus) : List NodeId :=
  s.moves.filterMap fun (n, status) => if status = .inProgress then some n else none

/-- What is true wherever a run comes that began with `first`. -/
structure Scheduled (first : StnuRun NodeStatus) (stack : List Call) (s : StnuRun NodeStatus) :
    Prop extends Fit first.network.nodeCount s where
  sound : ∀ c ∈ stack, c.Sound first.network.nodeCount
  onStack : OnStack .inProgress s.statuses (sources stack)
  pending : ∀ n < first.network.nodeCount, first.network.hasNegativeInEdge n = true →
    s.statuses[n]? = some .unvisited → Call.visit n ∈ stack
  mem_entered : ∀ n, n ∈ entered s ↔
    s.statuses[n]? = some .inProgress ∨ s.statuses[n]? = some .done
  nodup : (entered s).Nodup
  attempts : s.statistics.backPropagations =
    first.statistics.backPropagations + (entered s).length

namespace Scheduled

variable {first : StnuRun NodeStatus} {stack : List Call}

theorem start (fit : Fit first.network.nodeCount first)
    (fresh : first.statuses = Array.replicate first.network.nodeCount .unvisited)
    (moves : first.moves = []) :
    Scheduled first ((first.network.nodeIds.filter first.network.hasNegativeInEdge).map .visit)
      first := by
  have visits : ∀ {c}, c ∈ (first.network.nodeIds.filter first.network.hasNegativeInEdge).map
      Call.visit → ∃ n, n < first.network.nodeCount ∧ c = .visit n := by
    intro c mem
    obtain ⟨n, listed, rfl⟩ := List.mem_map.mp mem
    exact ⟨n, List.mem_range.mp (List.mem_filter.mp listed).1, rfl⟩
  have none : entered first = [] := by rw [entered, moves, List.filterMap_nil]
  refine ⟨fit, fun c mem => ?_, ?_, fun n inside negative _ => ?_, fun n => ?_, ?_, ?_⟩
  · obtain ⟨n, inside, rfl⟩ := visits mem
    exact inside
  · have nothing : sources ((first.network.nodeIds.filter first.network.hasNegativeInEdge).map
        .visit) = [] := List.filterMap_eq_nil_iff.mpr fun c mem => by
      obtain ⟨n, _, rfl⟩ := visits mem
      rfl
    rw [nothing, fresh]
    exact .replicate (by decide) _
  · exact List.mem_map_of_mem (List.mem_filter.mpr ⟨List.mem_range.mpr inside, negative⟩)
  · rw [none, fresh, Array.getElem?_replicate]
    refine iff_of_false List.not_mem_nil ?_
    split <;> simp
  · rw [none]
    exact List.nodup_nil
  · rw [none, List.length_nil, Nat.add_zero]

/-- A turn of a back-propagation on the stack that leaves it there. -/
theorem replace (scheduled : Scheduled first (call :: rest) s) (notVisit : ∀ n, call ≠ .visit n)
    (fit : Fit first.network.nodeCount t) (sound : ∀ c ∈ calls, c.Sound first.network.nodeCount)
    (stays : sources calls = sources [call]) (statuses : t.statuses = s.statuses)
    (moves : t.moves = s.moves)
    (same : t.statistics.backPropagations = s.statistics.backPropagations) :
    Scheduled first (calls ++ rest) t := by
  have entered : entered t = entered s := by rw [entered, entered, moves]
  refine ⟨fit, List.forall_mem_append.mpr ⟨sound, (List.forall_mem_cons.mp scheduled.sound).2⟩, ?_,
    fun n inside negative waits => ?_, fun n => ?_, ?_, ?_⟩
  · have onStack := scheduled.onStack
    have same : sources (call :: rest) = sources (calls ++ rest) := by
      rw [← List.singleton_append, sources_append, sources_append, stays]
    rwa [same, ← statuses] at onStack
  · rw [statuses] at waits
    refine List.mem_append_right _ ?_
    exact (List.mem_cons.mp (scheduled.pending n inside negative waits)).resolve_left
      (notVisit n).symm
  · rw [entered, statuses]
    exact scheduled.mem_entered n
  · rw [entered]
    exact scheduled.nodup
  · rw [entered, same]
    exact scheduled.attempts

end Scheduled

theorem Fit.unvisited (fit : Fit size s) (inside : source < size)
    (notDone : s.statuses[source]? ≠ some .done)
    (notWaiting : s.statuses[source]? ≠ some .inProgress) :
    s.statuses[source]? = some .unvisited := by
  have within : source < s.statuses.size := fit.size_statuses.symm ▸ inside
  rw [Array.getElem?_eq_getElem within] at notDone notWaiting ⊢
  cases status : s.statuses[source] with
  | unvisited => rfl
  | inProgress => exact absurd (congrArg some status) notWaiting
  | done => exact absurd (congrArg some status) notDone

theorem Scheduled.again {first : StnuRun NodeStatus}
    (scheduled : Scheduled first (.visit source :: rest) s)
    (done : s.statuses[source]? = some .done) : Scheduled first rest s := by
  obtain ⟨fit, sound, onStack, pending, mem_entered, nodup, attempts⟩ := scheduled
  refine ⟨fit, (List.forall_mem_cons.mp sound).2, onStack, fun n inside negative waits => ?_,
    mem_entered, nodup, attempts⟩
  refine (List.mem_cons.mp (pending n inside negative waits)).resolve_left fun same => ?_
  cases same
  rw [done] at waits
  cases waits

/-- The back-propagation of a node begins, so the node has not been entered before. -/
theorem Scheduled.begun {first : StnuRun NodeStatus}
    (scheduled : Scheduled first (.visit source :: rest) s)
    (fresh : s.statuses[source]? = some .unvisited) (fit : Fit first.network.nodeCount (begun s source))
    (sound : ∀ c ∈ calls, c.Sound first.network.nodeCount) (drains : sources calls = [source]) :
    Scheduled first (calls ++ rest) (begun s source) := by
  obtain ⟨_, sound', onStack, pending, mem_entered, nodup, attempts⟩ := scheduled
  have within := lt_of_status fresh
  have enters : entered (NodeRun.begun s source) = source :: entered s := rfl
  -- Entered nodes wait or are done; this one was neither.
  have new : source ∉ entered s := fun mem => by
    rw [mem_entered, fresh] at mem
    rcases mem with waits | done
    · cases waits
    · cases done
  refine ⟨fit, List.forall_mem_append.mpr ⟨sound, (List.forall_mem_cons.mp sound').2⟩, ?_,
    fun n inside negative waits => ?_, fun n => ?_, ?_, ?_⟩
  · rw [sources_append, drains]
    exact onStack.push fresh (by decide)
  · rw [statuses_begun within] at waits
    split at waits
    · cases waits
    · rename_i other
      refine List.mem_append_right _ ((List.mem_cons.mp (pending n inside negative waits)).resolve_left
        fun same => ?_)
      cases same
      exact other rfl
  · rw [enters, statuses_begun within, List.mem_cons, mem_entered]
    split
    · rename_i same
      exact iff_of_true (Or.inl same) (Or.inl rfl)
    · rename_i other
      rw [or_iff_right other]
  · rw [enters]
    exact List.nodup_cons.mpr ⟨new, nodup⟩
  · rw [enters, List.length_cons, ← Nat.add_assoc, ← attempts]
    rfl

theorem Scheduled.ended {first : StnuRun NodeStatus}
    (scheduled : Scheduled first (.drain source f popped :: rest) s)
    (fit : Fit first.network.nodeCount (ended s source)) :
    Scheduled first rest (ended s source) := by
  obtain ⟨_, sound, onStack, pending, mem_entered, nodup, attempts⟩ := scheduled
  have waits := (onStack.mem_iff source).mpr List.mem_cons_self
  have within := lt_of_status waits
  refine ⟨fit, (List.forall_mem_cons.mp sound).2, onStack.pop (by decide),
    fun n inside negative fresh => ?_, fun n => ?_, nodup, attempts⟩
  · rw [statuses_ended within] at fresh
    split at fresh
    · cases fresh
    · exact (List.mem_cons.mp (pending n inside negative fresh)).resolve_left nofun
  · change n ∈ entered s ↔ _
    rw [statuses_ended within, mem_entered]
    split
    · rename_i same
      rw [same]
      exact iff_of_true (Or.inl waits) (Or.inr rfl)
    · rfl

theorem Turned.scheduled {first : StnuRun NodeStatus} (turned : Turned s call calls t)
    (scheduled : Scheduled first (call :: rest) s) : Scheduled first (calls ++ rest) t := by
  have here := scheduled.sound call List.mem_cons_self
  obtain ⟨fit, sound⟩ := turned.sound scheduled.toFit here
  cases turned with
  | again done => exact scheduled.again done
  | begin notDone notWaiting =>
    exact scheduled.begun (scheduled.unvisited here notDone notWaiting) fit sound rfl
  | done empty => exact scheduled.ended fit
  | back pop => exact scheduled.replace nofun fit sound rfl rfl rfl rfl
  | @far source n f popped d _ pop apart finite =>
    refine scheduled.replace nofun fit sound rfl rfl rfl ?_
    unfold derived
    dsimp only
    split
    · rfl
    · rfl
  | near pop visits =>
    refine scheduled.replace nofun fit sound ?_ rfl rfl rfl
    rcases visits with rfl | rfl
    · rfl
    · rfl
  | extend => exact scheduled.replace nofun fit sound rfl rfl rfl rfl

theorem Turned.moved {first : StnuRun NodeStatus} (turned : Turned s call calls t)
    (scheduled : Scheduled first (call :: rest) s) : Moved NodeStatus.Next s t := by
  cases turned with
  | again _ => exact .none rfl rfl
  | begin notDone notWaiting =>
    have inside := scheduled.sound _ List.mem_cons_self
    exact .one (scheduled.unvisited inside notDone notWaiting) .begin rfl rfl
  | done _ => exact .one ((scheduled.onStack.mem_iff _).mpr List.mem_cons_self) .finish rfl rfl
  | back _ => exact .none rfl rfl
  | far _ _ _ => exact .none rfl rfl
  | near _ _ => exact .none rfl rfl
  | extend => exact .none rfl rfl

/-- A moment of a run that began with `first`, with the calls that are not over. -/
structure Moment (stops : Polls) (first : StnuRun NodeStatus) (stack : List Call)
    (s : StnuRun NodeStatus) : Prop where
  onStack : OnStack .inProgress s.statuses (sources stack)
  moves : ∀ call rest, stack = call :: rest → Ends (turn stops call) s
    (fun _ => Moved NodeStatus.Next s) fun _ => Moved NodeStatus.Next s
  popped : ∀ call ∈ stack, call.popped.Nodup
  entered : (entered s).Nodup
  attempts : s.statistics.backPropagations =
    first.statistics.backPropagations + (NodeRun.entered s).length

namespace Scheduled

variable {first : StnuRun NodeStatus} {stack stack' : List Call}

theorem of_comes (scheduled : Scheduled first stack s)
    (comes : Comes (stackTurn (turn stops)) (stack, s) (stack', t)) : Scheduled first stack' t :=
  comes.keeps_stack (I := Scheduled first) scheduled fun call _ u scheduled =>
    (turn_ends stops u call).mono (fun _ _ turned => turned.scheduled scheduled)
      fun _ _ _ => trivial

theorem moment (scheduled : Scheduled first stack s) (stops : Polls) :
    Moment stops first stack s := by
  refine ⟨scheduled.onStack, ?_, fun call mem => ?_, scheduled.nodup, scheduled.attempts⟩
  · rintro call rest rfl
    exact (turn_ends stops s call).mono (fun _ _ turned => turned.moved scheduled)
      fun _ _ unmoved => .none unmoved.1 unmoved.2.1
  · have sound := scheduled.sound call mem
    cases call with
    | visit _ => exact List.nodup_nil
    | drain _ _ _ => exact sound.2.nodup
    | extend _ _ _ _ _ => exact sound.2.2.nodup

theorem attempts_le (scheduled : Scheduled first stack s) : s.statistics.backPropagations ≤
    first.statistics.backPropagations + first.network.nodeCount := by
  have among : entered s ⊆ List.range first.network.nodeCount := by
    intro n mem
    have inside : n < s.statuses.size := by
      rcases (scheduled.mem_entered n).mp mem with waits | done
      · exact lt_of_status waits
      · exact lt_of_status done
    exact List.mem_range.mpr (scheduled.size_statuses ▸ inside)
  have few := (List.Nodup.subperm scheduled.nodup among).length_le
  rw [List.length_range] at few
  rw [scheduled.attempts]
  exact Nat.add_le_add_left few _

theorem done (scheduled : Scheduled first [] s) {n : NodeId} (inside : n < first.network.nodeCount)
    (negative : first.network.hasNegativeInEdge n = true) : s.statuses[n]? = some .done := by
  by_contra notDone
  refine absurd (scheduled.pending n inside negative (scheduled.unvisited inside notDone ?_))
    List.not_mem_nil
  exact fun waits => absurd ((scheduled.onStack.mem_iff n).mp waits) List.not_mem_nil

end Scheduled

/-- The run over the nodes of a normal form ends by itself, and so does each search for the name of a
new node. At every moment the nodes in progress are those whose back-propagation is on the stack, each
once, and no status goes back or skips one; no back-propagation begins twice or takes a node from its
queue twice. There are no more back-propagations than nodes, and a run that succeeds is done with every
node that had a negative incoming edge. -/
theorem processAll_visits_once {g h : PlainNetwork} {links links' : List StnuLink} {added : Nat}
    (wf : g.WellFormed)
    (inside : ∀ link ∈ links, link.activation < g.nodeCount ∧ link.contingent < g.nodeCount)
    (normal : NormalForm.ofLinks g links = (h, links', added)) {statistics : StnuStatistics}
    {s : StnuRun NodeStatus}
    (begins : s = .start h statistics (Array.replicate h.nodeCount .unvisited)) (stops : Polls) :
    (∀ k base, EndsWith (NormalForm.nextName k base) 0 (NormalForm.freshName k base)) ∧
    (∀ r, EndsWith (stackTurn (turn stops))
      ((h.nodeIds.filter h.hasNegativeInEdge).map .visit, s) r ↔ r = (processAll stops).run s) ∧
    (∀ stack t, Comes (stackTurn (turn stops))
      ((h.nodeIds.filter h.hasNegativeInEdge).map .visit, s) (stack, t) →
        Moment stops s stack t) ∧
    Ends (processAll stops) s
      (fun _ t =>
        t.statistics.backPropagations ≤ s.statistics.backPropagations + h.nodeCount ∧
        ∀ n < h.nodeCount, h.hasNegativeInEdge n = true → t.statuses[n]? = some .done)
      fun _ t => t.statistics.backPropagations ≤ s.statistics.backPropagations + h.nodeCount := by
  have wf' := NormalForm.wellFormed_ofLinks wf inside
  rw [normal] at wf'
  obtain rfl : s.network = h := congrArg StnuRun.network begins
  have fresh : s.statuses = Array.replicate s.network.nodeCount .unvisited :=
    congrArg StnuRun.statuses begins
  have fit : Fit s.network.nodeCount s := ⟨wf', rfl, by rw [fresh, Array.size_replicate]⟩
  have scheduled := Scheduled.start fit fresh (congrArg StnuRun.moves begins)
  have performs := performs_processAll stops _ fit
  refine ⟨NormalForm.endsWith_freshName, fun r => performs.endsWith_iff, fun stack t comes => ?_, ?_⟩
  · exact (scheduled.of_comes comes).moment stops
  · refine performs.ends (fun t comes => ?_) fun call rest t comes => ?_
    · have last := scheduled.of_comes comes
      exact ⟨last.attempts_le, fun n => last.done⟩
    · have before := (scheduled.of_comes comes).attempts_le
      refine (turn_ends stops t call).mono (fun _ _ _ => trivial) fun _ u unmoved => ?_
      rw [unmoved.2.2]
      exact before

/-- Y is at least 2 before X and W at least 1 before Y. -/
def awaitedNetwork : PlainNetwork :=
  (Network.build [.named "Z", .named "A", .named "C", .named "X", .named "Y", .named "W"]
    [("AC", 1, 2, ⟨.contingent, 3, some ⟨.lower, 2, 1⟩⟩),
      ("CA", 2, 1, ⟨.contingent, -1, some ⟨.upper, 2, -3⟩⟩), ("YX", 4, 3, ⟨.ordinary, -2, none⟩),
      ("WY", 5, 4, ⟨.ordinary, -1, none⟩), ("ZW", 0, 5, ⟨.ordinary, 4, none⟩)]).getD .empty

/-- The back-propagation of X waits for that of Y, and the link is started at a seventh node. -/
theorem processAll_visits_once_awaited : ∃ h links' added s t,
    NormalForm.ofLinks awaitedNetwork [⟨1, 2, 1, 3⟩] = (h, links', added) ∧
    s = .start h .zero (Array.replicate h.nodeCount .unvisited) ∧
    (processAll .never).run s = .ok () t ∧ h.nodeCount = 7 ∧
    t.statistics.backPropagations = 4 ∧
    (∀ r, EndsWith (stackTurn (turn .never))
      ((h.nodeIds.filter h.hasNegativeInEdge).map .visit, s) r ↔ r = .ok () t) ∧
    (∀ stack u, Comes (stackTurn (turn .never))
      ((h.nodeIds.filter h.hasNegativeInEdge).map .visit, s) (stack, u) →
        Moment .never s stack u) ∧
    ∀ n < h.nodeCount, h.hasNegativeInEdge n = true → t.statuses[n]? = some .done := by
  have wf : awaitedNetwork.WellFormed := Network.wellFormed_getD_build _ _
  have count : awaitedNetwork.nodeCount = 6 := by decide +kernel
  have inside : ∀ link ∈ ([⟨1, 2, 1, 3⟩] : List StnuLink),
      link.activation < awaitedNetwork.nodeCount ∧ link.contingent < awaitedNetwork.nodeCount := by
    rw [count]
    decide
  have computes : (fun h => h.nodeCount == 7 &&
      match (processAll .never).run (.start h .zero (Array.replicate h.nodeCount .unvisited)) with
      | .ok _ t => t.statistics.backPropagations == 4
      | .error .. => false) (NormalForm.ofLinks awaitedNetwork [⟨1, 2, 1, 3⟩]).1 = true := by
    decide +kernel
  cases normal : NormalForm.ofLinks awaitedNetwork [⟨1, 2, 1, 3⟩] with
  | mk h later =>
    obtain ⟨links', added⟩ := later
    rw [normal] at computes
    obtain ⟨counted, computes⟩ := Bool.and_eq_true_iff.mp computes
    split at computes
    · rename_i t run
      obtain ⟨_, ends, moments, result⟩ := processAll_visits_once wf inside normal rfl .never
      refine ⟨h, links', added, _, t, rfl, rfl, run, beq_iff_eq.mp counted, beq_iff_eq.mp computes,
        fun r => ?_, moments, (result.of_ok run).2⟩
      rw [← run]
      exact ends r
    · cases computes

end NodeRun

end TemporalNetwork
