import TemporalNetwork.Proofs.Stnu.SearchEnds
import TemporalNetwork.Proofs.Stnu.Statuses

/-!
The stages of a run over the links. A link is started, and finished when its back-propagation has
been completed; a link that has been started waits on a stack until those above it are finished. What
holds at every stage is proved along the ways to reach one.
-/

namespace TemporalNetwork

/-- A stage of a run. The links that have been finished and those that wait are listed with the
latest first. -/
structure LinkStage where
  network : PlainNetwork
  statuses : Array LinkStatus
  finished : List Nat
  stack : List Nat

namespace LinkStage

/-- The stages of the runs that begin with the network `first`. -/
inductive Reachable (links : List StnuLink) (first : PlainNetwork) : LinkStage → Prop
  | begin : Reachable links first ⟨first, Array.replicate links.length .unstarted, [], []⟩
  | start {g : PlainNetwork} {statuses : Array LinkStatus} {finished : List Nat} {i : Nat}
      (before : Reachable links first ⟨g, statuses, finished, []⟩)
      (unstarted : statuses[i]? = some .unstarted) :
      Reachable links first ⟨g, statuses.setIfInBounds i .started, finished, [i]⟩
  | interrupt {g : PlainNetwork} {statuses : Array LinkStatus} {finished rest : List Nat}
      {i next : Nat} {link : StnuLink}
      (before : Reachable links first ⟨g, statuses, finished, i :: rest⟩)
      (listed : links[i]? = some link)
      (waits : BackPropagation.ofLink g links statuses i link = .interrupted next) :
      Reachable links first
        ⟨g, statuses.setIfInBounds next .started, finished, next :: i :: rest⟩
  | finish {g : PlainNetwork} {statuses : Array LinkStatus} {finished rest : List Nat}
      {i : Nat} {link : StnuLink} {edges : List (NodeId × Value)} {potentials : Array Int}
      (before : Reachable links first ⟨g, statuses, finished, i :: rest⟩)
      (listed : links[i]? = some link)
      (completes : BackPropagation.ofLink g links statuses i link = .completed edges)
      (relaxed : ((Network.tightenEach link.activation g edges).1.setPotentials
        potentials).Relaxed) :
      Reachable links first
        ⟨(Network.tightenEach link.activation g edges).1.setPotentials potentials,
          statuses.setIfInBounds i .finished, i :: finished, rest⟩

/-- The stages at which the network is found to be not controllable. -/
inductive Rejected (links : List StnuLink) : LinkStage → Prop
  | propagation {g : PlainNetwork} {statuses : Array LinkStatus} {finished rest : List Nat}
      {i : Nat} {link : StnuLink} (listed : links[i]? = some link)
      (fails : BackPropagation.ofLink g links statuses i link = .failed .notControllable) :
      Rejected links ⟨g, statuses, finished, i :: rest⟩
  | potential {g : PlainNetwork} {statuses : Array LinkStatus} {finished rest : List Nat}
      {i : Nat} {link : StnuLink} {edges : List (NodeId × Value)} (listed : links[i]? = some link)
      (completes : BackPropagation.ofLink g links statuses i link = .completed edges)
      (none : ∀ p, ¬ (Network.tightenEach link.activation g edges).1.Admits p) :
      Rejected links ⟨g, statuses, finished, i :: rest⟩

end LinkStage

/-- The ends of the links are nodes, and no link ends where it starts. -/
def LinksWithin (links : List StnuLink) (g : PlainNetwork) : Prop :=
  ∀ (i : Nat) (link : StnuLink), links[i]? = some link → link.activation < g.nodeCount ∧
    link.contingent < g.nodeCount ∧ link.activation ≠ link.contingent

theorem lt_of_reaches {g : PlainNetwork} (wf : g.WellFormed) {link : StnuLink}
    (inside : link.contingent < g.nodeCount) {v : NodeId} {d : Int}
    (reaches : g.Reaches link v d) : v < g.nodeCount := by
  cases reaches with
  | origin => exact inside
  | step _ _ _ weight => exact (Network.lt_of_stepWeight? wf weight).1

/-- The number of links that are not started. -/
def waiting (statuses : Array LinkStatus) : Nat := statuses.countP fun s => s == .unstarted

section statuses

variable {statuses : Array LinkStatus} {i : Nat}

theorem waiting_start (unstarted : statuses[i]? = some .unstarted) :
    waiting (statuses.setIfInBounds i .started) + 1 = waiting statuses :=
  countP_setIfInBounds (fun s => s == LinkStatus.unstarted) unstarted .started

theorem waiting_finish (started : statuses[i]? = some .started) :
    waiting (statuses.setIfInBounds i .finished) = waiting statuses :=
  countP_setIfInBounds (fun s => s == LinkStatus.unstarted) started .finished

theorem waiting_finish_le (statuses : Array LinkStatus) (i : Nat) :
    waiting (statuses.setIfInBounds i .finished) ≤ waiting statuses := by
  by_cases inside : i < statuses.size
  · have counted := countP_setIfInBounds (fun s => s == LinkStatus.unstarted)
      (Array.getElem?_eq_getElem inside) .finished
    exact (Nat.le_add_right _ _).trans counted.le
  · rw [Array.setIfInBounds, dif_neg inside]

theorem waiting_le_size (statuses : Array LinkStatus) : waiting statuses ≤ statuses.size :=
  Array.countP_le_size

theorem waiting_lt_size (started : statuses[i]? = some .started) :
    waiting statuses < statuses.size := by
  have more : waiting (statuses.setIfInBounds i .unstarted) = waiting statuses + 1 :=
    countP_setIfInBounds (fun s => s == LinkStatus.unstarted) started .unstarted
  have all := waiting_le_size (statuses.setIfInBounds i .unstarted)
  rw [more, Array.size_setIfInBounds] at all
  exact all

end statuses

/-- What holds at every stage. -/
structure LinkStage.Progress (links : List StnuLink) (stage : LinkStage) : Prop where
  wellFormed : stage.network.WellFormed
  relaxed : stage.network.Relaxed
  within : LinksWithin links stage.network
  size : stage.statuses.size = links.length
  started : ∀ i, stage.statuses[i]? = some .started ↔ i ∈ stage.stack
  nodup : stage.stack.Nodup
  done : ∀ i, stage.statuses[i]? = some .finished ↔ i ∈ stage.finished
  distinct : stage.finished.Nodup

namespace LinkStage.Progress

variable {links : List StnuLink} {g : PlainNetwork} {statuses : Array LinkStatus}
  {finished stack rest : List Nat} {i : Nat} {link : StnuLink} {edges : List (NodeId × Value)}

theorem status_top (progress : Progress links ⟨g, statuses, finished, i :: rest⟩) :
    statuses[i]? = some .started :=
  (progress.started i).mpr List.mem_cons_self

theorem exists_link (progress : Progress links ⟨g, statuses, finished, i :: rest⟩) :
    ∃ link, links[i]? = some link := by
  have inside := lt_of_status progress.status_top
  rw [progress.size] at inside
  exact ⟨links[i], List.getElem?_eq_getElem inside⟩

theorem explains (progress : Progress links ⟨g, statuses, finished, stack⟩)
    (listed : links[i]? = some link) :
    BackPropagation.Query.Explains ⟨g, links, statuses, i, link⟩
      (BackPropagation.ofLink g links statuses i link) := by
  obtain ⟨_, inside, apart⟩ := progress.within i link listed
  exact BackPropagation.ofLink_spec progress.wellFormed progress.relaxed.valid links statuses i
    inside apart

/-- A link that interrupts another one has not been started. -/
theorem unstarted (progress : Progress links ⟨g, statuses, finished, stack⟩)
    (listed : links[i]? = some link) {next : Nat}
    (waits : BackPropagation.ofLink g links statuses i link = .interrupted next) :
    statuses[next]? = some .unstarted :=
  BackPropagation.unstarted_of_interrupted progress.wellFormed
    (progress.within i link listed).2.1 progress.size waits

/-- What a completed back-propagation has found, and what adding its edges does. -/
theorem tightens (progress : Progress links ⟨g, statuses, finished, stack⟩)
    (listed : links[i]? = some link)
    (completes : BackPropagation.ofLink g links statuses i link = .completed edges) :
    (∃ distances, BackPropagation.Completed ⟨g, links, statuses, i, link⟩ distances edges) ∧
      g.TightenedBy link.activation edges (Network.tightenEach link.activation g edges).1
        (Network.tightenEach link.activation g edges).2 := by
  have explained := progress.explains listed
  rw [completes] at explained
  obtain ⟨distances, completed⟩ := explained
  obtain ⟨inside, inside', _⟩ := progress.within i link listed
  exact ⟨⟨distances, completed⟩,
    BackPropagation.tightenedBy_of_completed progress.wellFormed ⟨inside, inside'⟩ completes⟩

theorem onStack (progress : Progress links ⟨g, statuses, finished, stack⟩) :
    OnStack .started statuses stack := ⟨progress.started, progress.nodup⟩

theorem start (progress : Progress links ⟨g, statuses, finished, stack⟩)
    (unstarted : statuses[i]? = some .unstarted) :
    Progress links ⟨g, statuses.setIfInBounds i .started, finished, i :: stack⟩ := by
  have onStack := progress.onStack.push unstarted nofun
  have unfinished : i ∉ finished := by
    intro mem
    rw [(progress.done i).mpr mem] at unstarted
    cases unstarted
  refine ⟨progress.wellFormed, progress.relaxed, progress.within,
    Array.size_setIfInBounds.trans progress.size, onStack.mem_iff, onStack.nodup, fun k => ?_,
    progress.distinct⟩
  have before := progress.done k
  dsimp only at before ⊢
  rw [getElem?_setStatus (lt_of_status unstarted)]
  by_cases same : k = i
  · simp [same, unfinished]
  · rw [if_neg same, before]

theorem finish (progress : Progress links ⟨g, statuses, finished, i :: rest⟩)
    (listed : links[i]? = some link)
    (completes : BackPropagation.ofLink g links statuses i link = .completed edges)
    {potentials : Array Int}
    (relaxed : ((Network.tightenEach link.activation g edges).1.setPotentials potentials).Relaxed) :
    Progress links ⟨(Network.tightenEach link.activation g edges).1.setPotentials potentials,
      statuses.setIfInBounds i .finished, i :: finished, rest⟩ := by
  obtain ⟨_, after⟩ := progress.tightens listed completes
  have same := Network.sameEdges_setPotentials (Network.tightenEach link.activation g edges).1
    potentials
  have started := progress.status_top
  have onStack : OnStack .started (statuses.setIfInBounds i .finished) rest :=
    progress.onStack.pop nofun
  have unfinished : i ∉ finished := by
    intro mem
    rw [(progress.done i).mpr mem] at started
    cases started
  refine ⟨same.wellFormed after.wellFormed, relaxed, fun k other found => ?_,
    Array.size_setIfInBounds.trans progress.size, onStack.mem_iff, onStack.nodup, fun k => ?_,
    List.nodup_cons.mpr ⟨unfinished, progress.distinct⟩⟩
  · have inside := progress.within k other found
    dsimp only at inside ⊢
    rwa [same.nodeCount, after.tightened.nodeCount]
  · have before := progress.done k
    dsimp only at before ⊢
    rw [getElem?_setStatus (lt_of_status started)]
    by_cases same : k = i
    · simp [same]
    · rw [if_neg same, before]
      simp [same]

end LinkStage.Progress

/-- A network in which a run can begin. -/
structure Runnable (links : List StnuLink) (g : PlainNetwork) : Prop where
  wellFormed : g.WellFormed
  relaxed : g.Relaxed
  within : LinksWithin links g

theorem LinkStage.Reachable.progress {links : List StnuLink} {first : PlainNetwork}
    (runnable : Runnable links first) {stage : LinkStage}
    (reachable : Reachable links first stage) : stage.Progress links := by
  induction reachable with
  | begin =>
    refine ⟨runnable.wellFormed, runnable.relaxed, runnable.within, Array.size_replicate, ?_,
      List.nodup_nil, ?_, List.nodup_nil⟩ <;>
    · intro i
      simp only [Array.getElem?_replicate, List.not_mem_nil, iff_false]
      split <;> simp
  | start _ unstarted progress => exact progress.start unstarted
  | interrupt _ listed waits progress => exact progress.start (progress.unstarted listed waits)
  | finish _ listed completes relaxed progress => exact progress.finish listed completes relaxed

end TemporalNetwork
