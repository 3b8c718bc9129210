import TemporalNetwork.Proofs.Stnu.Lockstep
import TemporalNetwork.Proofs.Stnu.SearchEnds

/-!
The calls of a run over the links. Both runs are one machine without limits whose calls are on a stack:
a link that is at work stays there until those it waits for are finished. The links that have been
started are those on the stack at every moment, and every attempt either starts a link or finishes one.
-/

namespace TemporalNetwork

namespace LinkRun

open StnuM
open Potential (Alike)

/-- A call that is not over: a link to look at, or one that is at work. -/
inductive Call where
  | process (index : Nat)
  | work (index : Nat)

def Call.atWork? : Call → Option Nat
  | .process _ => none
  | .work i => some i

/-- The links at work, the latest first. -/
def atWork (stack : List Call) : List Nat := stack.filterMap Call.atWork?

@[simp] theorem atWork_nil : atWork [] = [] := rfl

@[simp] theorem atWork_work (i : Nat) (rest : List Call) :
    atWork (.work i :: rest) = i :: atWork rest := rfl

/-- Renews the potential after edges to `target` have been tightened. -/
def renew (incremental : Bool) (target : NodeId) (sources : List NodeId) : LinkRun Unit :=
  if incremental then Potential.repair target sources
  else if !sources.isEmpty then Potential.compute
  else pure ()

/-- One turn of a call: the calls that are left of it. -/
def turn (links : List StnuLink) (incremental : Bool) (stops : Polls) : Call → LinkRun (List Call)
  | .process i => do
    if (← status? i) = some .unstarted then
      setStatus i .started
      return [.work i]
    return []
  | .work i => do
    match links[i]? with
    | none => return []
    | some link =>
      poll stops
      match ← backPropagate links i link with
      | .failed e => throw e
      | .interrupted next =>
        countRestart
        setStatus next .started
        return [.work next, .work i]
      | .completed edges =>
        let sources ← addEdges link.activation edges
        renew incremental link.activation sources
        setStatus i .finished
        return []

/-- What a turn of a call does unless it ends the run. -/
inductive Turned (links : List StnuLink) (s : StnuRun LinkStatus) :
    Call → List Call → StnuRun LinkStatus → Prop
  | skip {i : Nat} (before : s.statuses[i]? ≠ some .unstarted) : Turned links s (.process i) [] s
  | start {i : Nat} (unstarted : s.statuses[i]? = some .unstarted) :
      Turned links s (.process i) [.work i] (starting s i)
  | missing {i : Nat} (absent : links[i]? = none) : Turned links s (.work i) [] s
  | interrupt {i next : Nat} {link : StnuLink} (listed : links[i]? = some link)
      (waits : BackPropagation.ofLink s.network links s.statuses i link = .interrupted next) :
      Turned links s (.work i) [.work next, .work i] (interruptedBy (attempted s) next)
  | finish {i : Nat} {link : StnuLink} {edges : List (NodeId × Value)} {t : StnuRun LinkStatus}
      (listed : links[i]? = some link)
      (completes : BackPropagation.ofLink s.network links s.statuses i link = .completed edges)
      (alike : Alike (tightened (attempted s) link.activation edges) t) :
      Turned links s (.work i) [] (finishing t i)

/-- A turn that ends the run leaves the statuses alone. -/
def Unmoved (s t : StnuRun LinkStatus) : Prop := t.statuses = s.statuses ∧ t.moves = s.moves

theorem renew_alike (incremental : Bool) (s : StnuRun LinkStatus) (target : NodeId)
    (sources : List NodeId) :
    Ends (renew incremental target sources) s (fun _ => Alike s) fun _ => Alike s := by
  unfold renew
  split
  · exact Potential.repair_alike s target sources
  · split
    · exact Potential.compute_alike s
    · exact .refl s

theorem turn_ends (links : List StnuLink) (incremental : Bool) (stops : Polls)
    (s : StnuRun LinkStatus) (call : Call) :
    Ends (turn links incremental stops call) s (Turned links s call) fun _ => Unmoved s := by
  cases call with
  | process i =>
    unfold turn Ends
    rw [EStateM.run_bind, run_status?]
    dsimp only
    by_cases unstarted : s.statuses[i]? = some .unstarted
    · rw [if_pos unstarted]
      exact .start unstarted
    · rw [if_neg unstarted]
      exact .skip unstarted
  | work i =>
    rw [turn]
    cases listed : links[i]? with
    | none => exact .missing listed
    | some link =>
      dsimp only
      rw [← bind_assoc]
      have run := run_attempt links stops s i link
      unfold Ends
      rw [EStateM.run_bind, run]
      split_ifs
      · exact ⟨rfl, rfl⟩
      dsimp only
      cases outcome : BackPropagation.ofLink s.network links s.statuses i link with
      | failed e => exact ⟨rfl, rfl⟩
      | interrupted next => exact .interrupt listed outcome
      | completed edges =>
        dsimp only
        rw [EStateM.run_bind, run_addEdges]
        have renewed := renew_alike incremental (tightened (attempted s) link.activation edges)
          link.activation (Network.tightenEach link.activation (attempted s).network edges).2
        unfold Ends at renewed
        dsimp only
        rw [EStateM.run_bind]
        split at renewed
        · rename_i run
          rw [run]
          exact .finish listed outcome renewed
        · rename_i run
          rw [run]
          exact ⟨renewed.statuses, renewed.moves⟩

/-- What a run needs and keeps. -/
structure Fit (links : List StnuLink) (s : StnuRun LinkStatus) : Prop where
  wellFormed : s.network.WellFormed
  within : ∀ link ∈ links, link.activation < s.network.nodeCount ∧
    link.contingent < s.network.nodeCount
  size : s.statuses.size = links.length

variable {links : List StnuLink} {incremental : Bool} {stops : Polls}
  {s t : StnuRun LinkStatus} {call : Call} {calls : List Call} {i next : Nat} {link : StnuLink}
  {edges : List (NodeId × Value)}

theorem Fit.unstarted (fit : Fit links s) (listed : links[i]? = some link)
    (waits : BackPropagation.ofLink s.network links s.statuses i link = .interrupted next) :
    s.statuses[next]? = some .unstarted :=
  BackPropagation.unstarted_of_interrupted fit.wellFormed
    (fit.within link (List.mem_of_getElem? listed)).2 fit.size waits

theorem Fit.tightens (fit : Fit links s) (listed : links[i]? = some link)
    (completes : BackPropagation.ofLink s.network links s.statuses i link = .completed edges) :
    s.network.TightenedBy link.activation edges
      (Network.tightenEach link.activation s.network edges).1
      (Network.tightenEach link.activation s.network edges).2 :=
  BackPropagation.tightenedBy_of_completed fit.wellFormed
    (fit.within link (List.mem_of_getElem? listed)) completes

theorem Turned.fit (turned : Turned links s call calls t) (fit : Fit links s) : Fit links t := by
  cases turned with
  | skip _ => exact fit
  | missing _ => exact fit
  | start _ => exact ⟨fit.wellFormed, fit.within, Array.size_setIfInBounds.trans fit.size⟩
  | interrupt _ _ => exact ⟨fit.wellFormed, fit.within, Array.size_setIfInBounds.trans fit.size⟩
  | @finish i link edges t listed completes alike =>
    have after := fit.tightens listed completes
    have statuses : t.statuses = s.statuses := alike.statuses
    have counted : t.network.nodeCount = s.network.nodeCount :=
      alike.edges.nodeCount.trans after.tightened.nodeCount
    refine ⟨alike.edges.wellFormed after.wellFormed, fun other mem => ?_, ?_⟩
    · exact counted.symm ▸ fit.within other mem
    · rw [finishing, Array.size_setIfInBounds, statuses]
      exact fit.size

theorem Turned.waiting_le (turned : Turned links s call calls t) (fit : Fit links s) :
    waiting t.statuses ≤ waiting s.statuses := by
  cases turned with
  | skip _ => exact le_rfl
  | missing _ => exact le_rfl
  | start unstarted => exact (Advances.start unstarted).waiting_le
  | interrupt listed waits => exact (Advances.start (fit.unstarted listed waits)).waiting_le
  | @finish i _ _ t _ _ alike =>
    have statuses : t.statuses = s.statuses := alike.statuses
    rw [finishing, statuses]
    exact waiting_finish_le s.statuses i

/-- Wherever the run comes it is fit, and no link has become unstarted. -/
theorem Fit.of_comes {stack stack' : List Call} (fit : Fit links s)
    (comes : Comes (stackTurn (turn links incremental stops)) (stack, s) (stack', t)) :
    Fit links t ∧ waiting t.statuses ≤ waiting s.statuses := by
  refine comes.keeps_stack (I := fun _ t => Fit links t ∧ waiting t.statuses ≤ waiting s.statuses)
    ⟨fit, le_rfl⟩ fun call rest u known => ?_
  obtain ⟨fit, fewer⟩ := known
  refine (turn_ends links incremental stops u call).mono ?_ fun _ _ _ => trivial
  exact fun calls t turned => ⟨turned.fit fit, (turned.waiting_le fit).trans fewer⟩

theorem processStack_succ (listed : links[i]? = some link) (fuel : Nat) (rest : List Nat) :
    processStack links stops (fuel + 1) (i :: rest) =
      turn links true stops (.work i) >>= fun calls =>
        processStack links stops fuel (atWork calls ++ rest) := by
  rw [processStack, turn, listed]
  simp only [bind_assoc]
  refine bind_congr fun _ => bind_congr fun outcome => ?_
  cases outcome with
  | failed e => rfl
  | interrupted next => rfl
  | completed edges =>
    simp only [bind_assoc, pure_bind]
    rfl

theorem performs_processStack (stops : Polls) (fuel : Nat) (stack : List Nat)
    (s : StnuRun LinkStatus) (fit : Fit links s) (inside : ∀ i ∈ stack, i < links.length)
    (enough : 2 * waiting s.statuses + stack.length ≤ fuel) :
    Performs (turn links true stops) (stack.map .work) (processStack links stops fuel stack) s := by
  induction fuel generalizing stack s with
  | zero =>
    obtain rfl : stack = [] := List.eq_nil_of_length_eq_zero (by omega)
    rw [processStack]
    exact .nil s
  | succ fuel ih =>
    cases stack with
    | nil =>
      rw [processStack]
      exact .nil s
    | cons i rest =>
      have first := List.getElem?_eq_getElem (inside i List.mem_cons_self)
      rw [processStack_succ first]
      refine .of_turn_bind fun calls t run => ?_
      have turned := (turn_ends links true stops s (.work i)).of_ok run
      have fit' := turned.fit fit
      rw [List.length_cons] at enough
      have inside' : ∀ k ∈ rest, k < links.length := fun k mem =>
        inside k (List.mem_cons_of_mem _ mem)
      have fewer := turned.waiting_le fit
      -- An interrupted link waits for one more, so the stack grows by one and the links that wait are
      -- one fewer.
      cases turned with
      | missing absent =>
        rw [absent] at first
        cases first
      | @interrupt _ next _ listed waits =>
        have unstarted := fit.unstarted listed waits
        have fewer := waiting_start unstarted
        refine ih (next :: i :: rest) _ fit' (fun k mem => ?_) ?_
        · rcases List.mem_cons.mp mem with rfl | below
          · exact fit.size ▸ lt_of_status unstarted
          · exact inside k below
        · change 2 * waiting (s.statuses.setIfInBounds next .started) + (rest.length + 2) ≤ fuel
          omega
      | finish _ _ _ => exact ih rest _ fit' inside' (by omega)

theorem processNested_succ (listed : links[i]? = some link) (fuel : Nat) :
    processNested links stops (fuel + 1) i =
      turn links false stops (.work i) >>= fun calls =>
        (atWork calls).forM (processNested links stops fuel) := by
  rw [processNested, turn, listed]
  simp only [bind_assoc]
  refine bind_congr fun _ => bind_congr fun outcome => ?_
  cases outcome with
  | failed e => rfl
  | interrupted next =>
    have both : ([next, i] : List Nat).forM (processNested links stops fuel) = (do
        processNested links stops fuel next
        processNested links stops fuel i) := bind_congr fun _ => bind_pure_unit
    simp only [bind_assoc, pure_bind, atWork_work, atWork_nil, both]
  | completed edges =>
    simp only [bind_assoc, pure_bind]
    refine bind_congr fun sources => ?_
    unfold renew
    rw [if_neg Bool.false_ne_true]
    split
    · rfl
    · rfl

theorem performs_processNested (stops : Polls) (fuel i : Nat) (s : StnuRun LinkStatus)
    (fit : Fit links s) (inside : i < links.length) (enough : waiting s.statuses < fuel) :
    Performs (turn links false stops) [.work i] (processNested links stops fuel i) s := by
  induction fuel generalizing i s with
  | zero => omega
  | succ fuel ih =>
    have first := List.getElem?_eq_getElem inside
    rw [processNested_succ first]
    refine .of_turn_bind fun calls t run => ?_
    have turned := (turn_ends links false stops s (.work i)).of_ok run
    have fit' := turned.fit fit
    cases turned with
    | missing absent =>
      rw [absent] at first
      cases first
    | @interrupt _ next _ listed waits =>
      have unstarted := fit.unstarted listed waits
      have fewer := waiting_start unstarted
      refine .forM Call.work (I := fun t => Fit links t ∧ waiting t.statuses < fuel) [next, i]
        ?_ ?_ _ ⟨fit', ?_⟩
      · intro k mem u known
        refine ih k u known.1 ?_ known.2
        rcases List.mem_cons.mp mem with rfl | below
        · exact fit.size ▸ lt_of_status unstarted
        · exact List.mem_singleton.mp below ▸ inside
      · intro k _ u v known comes
        obtain ⟨fit'', fewer'⟩ := known.1.of_comes comes
        exact ⟨fit'', fewer'.trans_lt known.2⟩
      · change waiting (s.statuses.setIfInBounds next .started) < fuel
        omega
    | finish _ _ _ => exact .nil _

/-- The work on a link that has just been started. -/
def workOn (links : List StnuLink) (incremental : Bool) (stops : Polls) (i : Nat) : LinkRun Unit :=
  if incremental then processStack links stops (2 * links.length + 1) [i]
  else processNested links stops (links.length + 1) i

theorem performs_workOn (incremental : Bool) (stops : Polls) (s : StnuRun LinkStatus)
    (fit : Fit links s) (inside : i < links.length) :
    Performs (turn links incremental stops) [.work i] (workOn links incremental stops i) s := by
  have all : waiting s.statuses ≤ links.length := fit.size ▸ waiting_le_size s.statuses
  cases incremental with
  | true =>
    refine performs_processStack stops _ [i] s fit (fun k mem => ?_) ?_
    · exact List.mem_singleton.mp mem ▸ inside
    · rw [List.length_singleton]
      omega
  | false => exact performs_processNested stops _ i s fit inside (by omega)

theorem process_eq (links : List StnuLink) (incremental : Bool) (stops : Polls) (i : Nat) :
    process links incremental stops i =
      turn links incremental stops (.process i) >>= fun calls =>
        (atWork calls).forM (workOn links incremental stops) := by
  rw [process, turn, bind_assoc]
  refine bind_congr fun status => ?_
  split
  · rw [bind_assoc]
    exact bind_congr fun _ => bind_pure_unit.symm
  · rfl

theorem performs_process (incremental : Bool) (stops : Polls) (i : Nat) (s : StnuRun LinkStatus)
    (fit : Fit links s) :
    Performs (turn links incremental stops) [.process i] (process links incremental stops i) s := by
  rw [process_eq]
  refine .of_turn_bind fun calls t run => ?_
  have turned := (turn_ends links incremental stops s (.process i)).of_ok run
  have fit' := turned.fit fit
  cases turned with
  | skip _ => exact .nil s
  | start unstarted =>
    have performs := performs_workOn incremental stops _ fit' (fit.size ▸ lt_of_status unstarted)
    exact performs.append fun t _ => .nil t

theorem performs_processAll (incremental : Bool) (stops : Polls) (s : StnuRun LinkStatus)
    (fit : Fit links s) :
    Performs (turn links incremental stops) ((List.range links.length).map .process)
      (processAll links incremental stops) s :=
  .forM Call.process _ (fun i _ t fit => performs_process incremental stops i t fit)
    (fun _ _ _ _ fit comes => (fit.of_comes comes).1) s fit

/-- The number of links that are finished. -/
def completed (statuses : Array LinkStatus) : Nat := statuses.countP fun s => s == .finished

/-- What is true wherever a run comes that began with `first`. Each attempt has finished a link or
started one that another link waits for, and the link that was started first is no such one. -/
structure Scheduled (links : List StnuLink) (first : StnuRun LinkStatus) (stack : List Call)
    (s : StnuRun LinkStatus) : Prop extends Fit links s where
  onStack : OnStack .started s.statuses (atWork stack)
  pending : ∀ i, s.statuses[i]? = some .unstarted → Call.process i ∈ stack
  attempts : s.statistics.backPropagations + first.statistics.restartedBackPropagations =
    first.statistics.backPropagations + completed s.statuses + s.statistics.restartedBackPropagations
  restarts : s.statistics.restartedBackPropagations = first.statistics.restartedBackPropagations ∨
    s.statistics.restartedBackPropagations + waiting s.statuses <
      first.statistics.restartedBackPropagations + links.length

namespace Scheduled

variable {first : StnuRun LinkStatus} {stack rest : List Call}

theorem start (fit : Fit links first)
    (fresh : first.statuses = Array.replicate links.length .unstarted) :
    Scheduled links first ((List.range links.length).map .process) first := by
  refine ⟨fit, ?_, fun i unstarted => ?_, ?_, Or.inl rfl⟩
  · have nothing : atWork ((List.range links.length).map .process) = [] :=
      List.filterMap_eq_nil_iff.mpr fun call mem => by
        obtain ⟨i, _, rfl⟩ := List.mem_map.mp mem
        rfl
    rw [nothing, fresh]
    exact .replicate (by decide) _
  · have inside := lt_of_status unstarted
    rw [fit.size] at inside
    exact List.mem_map_of_mem (List.mem_range.mpr inside)
  · have none : completed first.statuses = 0 := by
      rw [completed, fresh]
      simp [Array.countP_replicate]
    rw [none, Nat.add_zero]

theorem pending_start {call : Call} (pending : ∀ k : Nat, s.statuses[k]? = some .unstarted →
      Call.process k ∈ call :: rest) (same : ∀ k, call = .process k → k = i)
    (unstarted : s.statuses[i]? = some .unstarted) (k : Nat)
    (waits : (s.statuses.setIfInBounds i .started)[k]? = some .unstarted) :
    Call.process k ∈ rest := by
  rw [getElem?_setStatus (lt_of_status unstarted)] at waits
  split at waits
  · cases waits
  · rename_i apart
    rcases List.mem_cons.mp (pending k waits) with here | later
    · exact absurd (same k here.symm) apart
    · exact later

end Scheduled

theorem completed_start (unstarted : s.statuses[i]? = some .unstarted) :
    completed (s.statuses.setIfInBounds i .started) = completed s.statuses :=
  countP_setIfInBounds (fun s => s == LinkStatus.finished) unstarted .started

theorem completed_finish (started : s.statuses[i]? = some .started) :
    completed (s.statuses.setIfInBounds i .finished) = completed s.statuses + 1 :=
  countP_setIfInBounds (fun s => s == LinkStatus.finished) started .finished

section Moves

variable {first : StnuRun LinkStatus} {rest : List Call}

theorem Scheduled.skip (scheduled : Scheduled links first (.process i :: rest) s)
    (before : s.statuses[i]? ≠ some .unstarted) : Scheduled links first rest s := by
  obtain ⟨fit, onStack, pending, attempts, restarts⟩ := scheduled
  refine ⟨fit, onStack, fun k unstarted => ?_, attempts, restarts⟩
  refine (List.mem_cons.mp (pending k unstarted)).resolve_left fun here => ?_
  cases here
  exact before unstarted

theorem Scheduled.starting (scheduled : Scheduled links first (.process i :: rest) s)
    (unstarted : s.statuses[i]? = some .unstarted) (fit : Fit links (starting s i)) :
    Scheduled links first (.work i :: rest) (starting s i) := by
  obtain ⟨_, onStack, pending, attempts, restarts⟩ := scheduled
  have fewer := waiting_start unstarted
  have same := completed_start unstarted
  have pending := pending_start pending (fun k same => by cases same; rfl) unstarted
  refine ⟨fit, onStack.push unstarted nofun, fun k waits => List.mem_cons_of_mem _ (pending k waits),
    ?_, ?_⟩
  · rw [← same] at attempts
    exact attempts
  · refine restarts.imp id fun less => ?_
    change s.statistics.restartedBackPropagations +
      waiting (s.statuses.setIfInBounds i .started) < _
    omega

/-- An attempt starts another link: at least one link, that below it, is started already. -/
theorem Scheduled.interrupted {next : Nat} (scheduled : Scheduled links first (.work i :: rest) s)
    (unstarted : s.statuses[next]? = some .unstarted)
    (fit : Fit links (interruptedBy (attempted s) next)) :
    Scheduled links first (.work next :: .work i :: rest) (interruptedBy (attempted s) next) := by
  obtain ⟨fitBefore, onStack, pending, attempts, restarts⟩ := scheduled
  have fewer := waiting_start unstarted
  have same := completed_start unstarted
  have fewer' := waiting_lt_size ((onStack.mem_iff i).mpr List.mem_cons_self)
  rw [fitBefore.size] at fewer'
  have pending := pending_start pending (fun k same => nomatch same) unstarted
  refine ⟨fit, onStack.push unstarted nofun, fun k waits =>
    List.mem_cons_of_mem _ (List.mem_cons_of_mem _ (pending k waits)), ?_, Or.inr ?_⟩
  · change s.statistics.backPropagations + 1 + _ =
      _ + completed (s.statuses.setIfInBounds next .started) +
        (s.statistics.restartedBackPropagations + 1)
    omega
  · change s.statistics.restartedBackPropagations + 1 +
      waiting (s.statuses.setIfInBounds next .started) < _
    omega

theorem Scheduled.finishing {v : NodeId} {edges : List (NodeId × Value)}
    (scheduled : Scheduled links first (.work i :: rest) s)
    (alike : Alike (tightened (attempted s) v edges) t) (fit : Fit links (finishing t i)) :
    Scheduled links first rest (finishing t i) := by
  obtain ⟨_, onStack, pending, attempts, restarts⟩ := scheduled
  have started := (onStack.mem_iff i).mpr List.mem_cons_self
  have statuses : t.statuses = s.statuses := alike.statuses
  have one := completed_finish started
  have same := waiting_finish started
  have counted : t.statistics.backPropagations = s.statistics.backPropagations + 1 :=
    alike.backPropagations
  have restarted : t.statistics.restartedBackPropagations =
    s.statistics.restartedBackPropagations := alike.restarted
  rw [← statuses] at one same started onStack pending
  refine ⟨fit, onStack.pop nofun, fun k waits => ?_, ?_, ?_⟩
  · dsimp only [LinkRun.finishing] at waits
    rw [getElem?_setStatus (lt_of_status started)] at waits
    split at waits
    · cases waits
    · exact (List.mem_cons.mp (pending k waits)).resolve_left nofun
  · change t.statistics.backPropagations + _ =
      _ + completed (t.statuses.setIfInBounds i .finished) + t.statistics.restartedBackPropagations
    rw [one, statuses]
    omega
  · change t.statistics.restartedBackPropagations = _ ∨ t.statistics.restartedBackPropagations +
      waiting (t.statuses.setIfInBounds i .finished) < _
    rwa [same, restarted, statuses]

theorem Turned.scheduled (turned : Turned links s call calls t)
    (scheduled : Scheduled links first (call :: rest) s) :
    Scheduled links first (calls ++ rest) t := by
  have fit' := turned.fit scheduled.toFit
  cases turned with
  | skip before => exact scheduled.skip before
  | start unstarted => exact scheduled.starting unstarted fit'
  | @missing i absent =>
    have inside := lt_of_status ((scheduled.onStack.mem_iff i).mpr List.mem_cons_self)
    rw [scheduled.size] at inside
    rw [List.getElem?_eq_getElem inside] at absent
    cases absent
  | interrupt listed waits => exact scheduled.interrupted (scheduled.unstarted listed waits) fit'
  | finish listed completes alike => exact scheduled.finishing alike fit'

end Moves

theorem Turned.moved {first : StnuRun LinkStatus} {rest : List Call}
    (turned : Turned links s call calls t) (scheduled : Scheduled links first (call :: rest) s) :
    Moved LinkStatus.Next s t := by
  cases turned with
  | skip _ => exact .none rfl rfl
  | missing _ => exact .none rfl rfl
  | start unstarted => exact .one unstarted .start rfl rfl
  | interrupt listed waits => exact .one (scheduled.unstarted listed waits) .start rfl rfl
  | @finish i _ _ t _ _ alike =>
    have statuses : t.statuses = s.statuses := alike.statuses
    have moves : t.moves = s.moves := alike.moves
    refine .one ((scheduled.onStack.mem_iff i).mpr List.mem_cons_self) .finish ?_ ?_
    · exact congrArg (Array.setIfInBounds · i .finished) statuses
    · exact congrArg ((i, .finished) :: ·) moves

/-- An attempt to finish a link: its searches end by themselves, and a link that it has to wait for has
not been started. -/
structure Attempt (links : List StnuLink) (s : StnuRun LinkStatus) (i : Nat) (link : StnuLink) :
    Prop where
  propagates : EndsWith (BackPropagation.Query.visit ⟨s.network, links, s.statuses, i, link⟩)
    (BackPropagation.Query.origin ⟨s.network, links, s.statuses, i, link⟩)
    (.ofLink s.network links s.statuses i link)
  unstarted : ∀ next, BackPropagation.ofLink s.network links s.statuses i link = .interrupted next →
    s.statuses[next]? = some .unstarted
  lowers : ∀ edges, BackPropagation.ofLink s.network links s.statuses i link = .completed edges →
    ∀ g sources, Network.tightenEach link.activation s.network edges = (g, sources) →
      ∀ decrease, EndsWith (Potential.Descent.next g decrease) (.origin g link.activation)
        (Potential.lowered g decrease (g.nodeCount + 1)
          (MinQueue.empty.insertOrDecrease link.activation 0).1 (Array.replicate g.nodeCount false))

theorem Fit.attempt (fit : Fit links s) (listed : links[i]? = some link) :
    Attempt links s i link := by
  obtain ⟨inside, inside'⟩ := fit.within link (List.mem_of_getElem? listed)
  refine ⟨?_, fun next => fit.unstarted listed, fun edges completes g sources tightened decrease => ?_⟩
  · exact BackPropagation.endsWith_ofLink fit.wellFormed links s.statuses i inside'
  · have after := fit.tightens listed completes
    rw [tightened] at after
    exact Potential.endsWith_lowered after.wellFormed decrease
      (after.tightened.nodeCount.symm ▸ inside)

/-- A moment of a run, with the calls that are not over. -/
structure Moment (links : List StnuLink) (incremental : Bool) (stops : Polls) (stack : List Call)
    (s : StnuRun LinkStatus) : Prop where
  onStack : OnStack .started s.statuses (atWork stack)
  moves : ∀ call rest, stack = call :: rest → Ends (turn links incremental stops call) s
    (fun _ => Moved LinkStatus.Next s) fun _ => Moved LinkStatus.Next s
  attempts : ∀ i rest link, stack = .work i :: rest → links[i]? = some link → Attempt links s i link

/-- What a run that succeeds has done. -/
structure Completed (links : List StnuLink) (first last : StnuRun LinkStatus) : Prop where
  finished : ∀ i < links.length, last.statuses[i]? = some .finished
  attempts : last.statistics.backPropagations + first.statistics.restartedBackPropagations =
    first.statistics.backPropagations + links.length + last.statistics.restartedBackPropagations
  restarts : last.statistics.restartedBackPropagations <
    first.statistics.restartedBackPropagations + max 1 links.length

namespace Scheduled

variable {first : StnuRun LinkStatus} {stack : List Call}

theorem of_comes (scheduled : Scheduled links first stack s) {stack' : List Call}
    (comes : Comes (stackTurn (turn links incremental stops)) (stack, s) (stack', t)) :
    Scheduled links first stack' t :=
  comes.keeps_stack (I := Scheduled links first) scheduled fun call _ u scheduled =>
    (turn_ends links incremental stops u call).mono
      (fun _ _ turned => turned.scheduled scheduled) fun _ _ _ => trivial

theorem moment (scheduled : Scheduled links first stack s) (incremental : Bool) (stops : Polls) :
    Moment links incremental stops stack s := by
  refine ⟨scheduled.onStack, ?_, fun i rest link _ listed => scheduled.attempt listed⟩
  rintro call rest rfl
  exact (turn_ends links incremental stops s call).mono
    (fun _ _ turned => turned.moved scheduled) fun _ _ unmoved => .none unmoved.1 unmoved.2

theorem finished (scheduled : Scheduled links first [] s) {i : Nat} (inside : i < links.length) :
    s.statuses[i]? = some .finished := by
  have within : i < s.statuses.size := scheduled.size.symm ▸ inside
  have pending := scheduled.pending i
  have onStack := scheduled.onStack.mem_iff i
  rw [Array.getElem?_eq_getElem within] at pending onStack ⊢
  cases status : s.statuses[i] with
  | unstarted => exact absurd (pending (congrArg some status)) List.not_mem_nil
  | started => exact absurd (onStack.mp (congrArg some status)) List.not_mem_nil
  | finished => rfl

theorem completed (scheduled : Scheduled links first [] s) : Completed links first s := by
  have all : LinkRun.completed s.statuses = links.length := by
    rw [LinkRun.completed, ← scheduled.size, Array.countP_eq_size]
    intro status mem
    obtain ⟨i, within, rfl⟩ := Array.mem_iff_getElem.mp mem
    have finished := scheduled.finished (scheduled.size ▸ within)
    rw [Array.getElem?_eq_getElem within] at finished
    rw [Option.some.inj finished]
    rfl
  have attempts := scheduled.attempts
  have restarts := scheduled.restarts
  rw [all] at attempts
  refine ⟨fun i inside => scheduled.finished inside, attempts, ?_⟩
  omega

end Scheduled

/-- Both runs over the links end by themselves, whatever the potential. At every moment the links that
have been started are those on the stack, each once, and no status goes back or skips one; a link that
another one waits for has not been started. A run that succeeds has finished every link, with one
attempt for each and one for each restart, of which there are fewer than links. -/
theorem processAll_ends_by_itself {links : List StnuLink} {s : StnuRun LinkStatus}
    (wf : s.network.WellFormed)
    (within : ∀ link ∈ links, link.activation < s.network.nodeCount ∧
      link.contingent < s.network.nodeCount)
    (fresh : s.statuses = Array.replicate links.length .unstarted) (incremental : Bool)
    (stops : Polls) :
    (∀ r, EndsWith (stackTurn (turn links incremental stops))
      ((List.range links.length).map .process, s) r ↔
        r = (processAll links incremental stops).run s) ∧
    (∀ stack t, Comes (stackTurn (turn links incremental stops))
      ((List.range links.length).map .process, s) (stack, t) →
        Moment links incremental stops stack t) ∧
    ∀ t, (processAll links incremental stops).run s = .ok () t → Completed links s t := by
  have fit : Fit links s := ⟨wf, within, by rw [fresh, Array.size_replicate]⟩
  have scheduled := Scheduled.start fit fresh
  have performs := performs_processAll incremental stops s fit
  refine ⟨fun r => performs.endsWith_iff, fun stack t comes => ?_, fun t run => ?_⟩
  · exact (scheduled.of_comes comes).moment incremental stops
  · have ends := performs []
    rw [List.append_nil] at ends
    exact (scheduled.of_comes (ends.of_ok run)).completed

/-- The links of `chainedNetwork`. -/
def chainedLinks : List StnuLink := [⟨1, 2, 1, 3⟩, ⟨3, 4, 2, 4⟩]

/-- One of the two links has to wait for the other. -/
theorem processAll_ends_by_itself_chained : ∃ links d s t,
    StnuLink.prepareAll.run ⟨chainedNetwork, []⟩ = .ok links d ∧
    Potential.compute.run (.start d.network .zero (Array.replicate 2 .unstarted)) = .ok () s ∧
    (processAll chainedLinks true .never).run s = .ok () t ∧
    t.statistics.restartedBackPropagations = 1 ∧
    (∀ r, EndsWith (stackTurn (turn chainedLinks true .never)) ([.process 0, .process 1], s) r ↔
      r = .ok () t) ∧
    (∀ stack u, Comes (stackTurn (turn chainedLinks true .never)) ([.process 0, .process 1], s)
      (stack, u) → Moment chainedLinks true .never stack u) ∧
    Completed chainedLinks s t := by
  have computes : (match StnuLink.prepareAll.run ⟨chainedNetwork, []⟩ with
      | .ok _ d =>
        match Potential.compute.run (.start d.network .zero (Array.replicate 2 .unstarted)) with
        | .ok _ s =>
          s.network.nodeCount == 5 &&
          match (processAll chainedLinks true .never).run s with
          | .ok _ t => t.statistics.restartedBackPropagations == 1
          | .error .. => false
        | .error .. => false
      | .error .. => false) = true := by decide +kernel
  -- One evaluation shows that all three runs succeed; what is known of the results is read off the
  -- general theorem.
  split at computes
  · rename_i links d prepared
    split at computes
    · rename_i s computed
      obtain ⟨counted, computes⟩ := Bool.and_eq_true_iff.mp computes
      split at computes
      · rename_i t run
        have ready := (StnuLink.prepareAll_ends (Network.wellFormed_getD_build _ _)).of_ok prepared
        have refreshed := ((Potential.compute_ends ready.wellFormed).of_ok computed).1
        have within : ∀ link ∈ chainedLinks, link.activation < s.network.nodeCount ∧
            link.contingent < s.network.nodeCount := by
          rw [beq_iff_eq.mp counted]
          decide
        obtain ⟨ends, moments, succeeds⟩ := processAll_ends_by_itself
          (refreshed.edges.wellFormed ready.wellFormed) within refreshed.statuses true .never
        refine ⟨links, d, s, t, prepared, computed, run, beq_iff_eq.mp computes, fun r => ?_, moments,
          succeeds t run⟩
        rw [← run]
        exact ends r
      · cases computes
    · cases computes
  · cases computes

end LinkRun

end TemporalNetwork
