import TemporalNetwork.Proofs.Stnu.NodeVerdict
import TemporalNetwork.Proofs.Stnu.NormalStrategy
import TemporalNetwork.Proofs.Stnu.Refutation

/-!
Why a run over the nodes with negative incoming edges is right to give up. Whatever is reached backwards
from a node is respected by every strategy, if the link whose upper-case edge the path ends with takes
as long as it can. With the longest durations a node whose back-propagation waits for that of another
node is executed before it; so no node can wait for itself.
-/

namespace TemporalNetwork

variable {T : Type*} [Field T] [LinearOrder T] [IsStrictOrderedRing T]

/-- Whether the link that ends at the origin takes as long as it can. -/
def TakesLongest (links : List StnuLink) (origin : Option NodeId) (ω : Nat → T) : Prop :=
  ∀ (i : Nat) (link : StnuLink), links[i]? = some link → origin = some link.contingent → ω i = link.upper

/-- What a strategy tells of a path of length `d` from `n` to `source`. -/
structure Backward (links : List StnuLink) (σ : (Nat → T) → NodeId → T) (source n : NodeId) (d : Int)
    (origin : Option NodeId) : Prop where
  owner : ∀ c, origin = some c → ∃ link ∈ links, link.contingent = c ∧ link.activation = source
  le : ∀ ω, Proper links ω → TakesLongest links origin ω → σ ω source ≤ σ ω n + d

/-- The time of a node if all links take as long as they can. -/
def latest (links : List StnuLink) (σ : (Nat → T) → NodeId → T) (n : NodeId) : T :=
  σ (longestDurations T links) n

namespace Respects

variable {links : List StnuLink} {σ : (Nat → T) → NodeId → T} {h k : PlainNetwork}
  {source n m : NodeId} {d : Int} {w : Value} {origin : Option NodeId}

theorem backward_start (respects : Respects links σ h) (start : h.Start source n w origin) :
    Backward links σ source n w origin := by
  cases start with
  | ordinary weight _ => exact ⟨nofun, fun ω proper _ => respects.ordinary ω proper _ _ _ weight⟩
  | upper held _ =>
    obtain ⟨link, mem, ⟨_, _, same⟩ | ⟨rfl, rfl, same⟩⟩ := respects.carries.owned _ _ _ held
    · cases same
    · cases same
      refine ⟨fun c same => ⟨link, mem, Option.some.inj same, rfl⟩, fun ω proper lasting => ?_⟩
      obtain ⟨i, listed⟩ := List.getElem?_of_mem mem
      have lasts := respects.unforeseeing.lasts ω proper.admissible i link listed
      rw [lasts, lasting i link listed rfl, Int.cast_neg]
      linarith

/-- The lower-case edge of another link may be passed as long as the path is negative: the source
cannot wait for the link to end. -/
theorem backward_extension (respects : Respects links σ h) (inside : source < h.nodeCount)
    (path : Backward links σ source n d origin) (negative : d < 0)
    (weight : h.extension? m n origin = some w) : Backward links σ source m (d + w) origin := by
  refine ⟨path.owner, fun ω proper lasting => ?_⟩
  push_cast
  obtain ⟨_, weight | ⟨c, held, other⟩⟩ := Network.extension?_cases weight
  · have := respects.ordinary ω proper m n w weight
    have := path.le ω proper lasting
    linarith
  · obtain ⟨link, mem, ⟨rfl, rfl, same⟩ | ⟨_, _, same⟩⟩ := respects.carries.owned _ _ _ held
    · cases same
      obtain ⟨i, listed⟩ := List.getElem?_of_mem mem
      have before := respects.unforeseeing.le_of_before listed (respects.carries.nonneg link mem)
        (Finset.mem_range.mpr inside) (by exact_mod_cast negative : (d : T) < 0) proper
        fun z proper' => path.le _ proper' fun j first listed' begins => ?_
      · linarith
      · rw [Function.update_of_ne]
        · exact lasting j first listed' begins
        · rintro rfl
          rw [listed] at listed'
          cases listed'
          exact other begins.symm
    · cases same

/-- A path that is not negative can be made an edge: the node it begins at cannot wait for the link
that the path ends with. -/
theorem le_of_far (respects : Respects links σ h) (inside : n < h.nodeCount)
    (path : Backward links σ source n d origin) (far : 0 ≤ d) {ω : Nat → T} (proper : Proper links ω) :
    σ ω source ≤ σ ω n + d := by
  by_cases lasting : TakesLongest links origin ω
  · exact path.le ω proper lasting
  · unfold TakesLongest at lasting
    push Not at lasting
    obtain ⟨i, link, listed, begins, _⟩ := lasting
    have mem := List.mem_of_getElem? listed
    obtain ⟨link', mem', same, rfl⟩ := path.owner _ begins
    obtain ⟨j, listed'⟩ := List.getElem?_of_mem mem'
    obtain rfl := respects.carries.eq_of_contingent listed' listed same
    obtain rfl := Option.some.inj (listed.symm.trans listed')
    have range := respects.carries.range link mem
    have nonneg := respects.carries.nonneg link mem
    have later := respects.unforeseeing.le_of_after listed nonneg range (Finset.mem_range.mpr inside)
      (d := (d + link.upper : T)) (by
        have : (0 : T) ≤ d := by exact_mod_cast far
        have : (0 : T) ≤ link.lower := by exact_mod_cast nonneg
        linarith) proper fun proper' => ?_
    · linarith
    · have lasts := respects.unforeseeing.lasts _ proper'.admissible j link listed
      have near := path.le _ proper' fun k other listed'' begins' => ?_
      · rw [lasts, Function.update_self]
        linarith
      · have here := Option.some.inj (begins.symm.trans begins')
        obtain rfl := respects.carries.eq_of_contingent listed'' listed here.symm
        obtain rfl := Option.some.inj (listed''.symm.trans listed)
        exact Function.update_self ..

theorem latest_le (respects : Respects links σ h) (path : Backward links σ source n d origin) :
    latest links σ source ≤ latest links σ n + d :=
  path.le _ (proper_longestDurations respects.carries.nonneg respects.carries.range)
    fun _ _ listed _ => longestDurations_eq T listed

omit [IsStrictOrderedRing T] in
theorem tighten (respects : Respects links σ h) (hn : n < h.nodeCount) (hs : source < h.nodeCount)
    (finite : w < Value.posInf) (holds : ∀ ω, Proper links ω → σ ω source ≤ σ ω n + w) :
    Respects links σ (h.tighten n source w).1 := by
  have wf := respects.carries.wellFormed
  have tightened := Network.tightenedInto_tighten wf hn hs finite
  refine ⟨respects.carries.tightened tightened (wf.tighten hn hs w), ?_, fun ω proper u v x weight => ?_⟩
  · rw [tightened.nodeCount]
    exact respects.unforeseeing
  · obtain ⟨bound, finite'⟩ := Network.ordinary?_eq_some_iff.mp weight
    rw [Network.bound_tighten wf hn hs] at bound
    split at bound
    · rename_i same
      obtain ⟨rfl, rfl⟩ := same
      rcases min_choice w (h.bound n source) with least | least
      · rw [← bound, least]
        exact holds ω proper
      · rw [least] at bound
        exact respects.ordinary ω proper _ _ _ (Network.ordinary?_eq_some_iff.mpr ⟨bound, finite'⟩)
    · exact respects.ordinary ω proper _ _ _ (Network.ordinary?_eq_some_iff.mpr ⟨bound, finite'⟩)

end Respects

namespace NodeRun

variable {links : List StnuLink} {σ : (Nat → T) → NodeId → T}

/-- What the treatment of a node leaves as it is, apart from what the strategy tells of the network. -/
structure Sound (links : List StnuLink) (σ : (Nat → T) → NodeId → T) (s t : StnuRun NodeStatus) :
    Prop where
  respects : Respects links σ t.network
  nodeCount : t.network.nodeCount = s.network.nodeCount
  waiting : ∀ p : Nat, t.statuses[p]? = some .inProgress ↔ s.statuses[p]? = some .inProgress

/-- The nodes in progress are executed before a time if all links take as long as they can. -/
def WaitsBefore (links : List StnuLink) (σ : (Nat → T) → NodeId → T) (s : StnuRun NodeStatus)
    (time : T) : Prop :=
  ∀ p : Nat, s.statuses[p]? = some .inProgress → latest links σ p < time

omit [IsStrictOrderedRing T] in
theorem Sound.trans {s t r : StnuRun NodeStatus} (first : Sound links σ s t)
    (second : Sound links σ t r) : Sound links σ s r :=
  ⟨second.respects, second.nodeCount.trans first.nodeCount,
    fun p => (second.waiting p).trans (first.waiting p)⟩

/-- A back-propagation finds no negative cycle, and treats only nodes that are executed later. -/
theorem drain_sound {visit : NodeId → NodeRun Unit} {source : NodeId} {s : StnuRun NodeStatus}
    (visits : ∀ n t, n < s.network.nodeCount → Sound links σ s t →
      latest links σ source < latest links σ n →
      Ends (visit n) t (fun _ t' => Sound links σ t t') fun e _ => e ≠ .notControllable)
    (respects : Respects links σ s.network) (inside : source < s.network.nodeCount) (fuel : Nat) :
    Ends (drain visit source fuel (Frontier.ofSource s.network source)) s
      (fun _ t => Sound links σ s t) fun e _ => e ≠ .notControllable := by
  refine drain_ends (I := fun _ t f => Sound links σ s t ∧
    f.Traced s.network.nodeCount (Backward links σ source)) (fun e s => nofun)
    (fun _ _ holds => holds.1) (fun _ _ _ holds _ => holds.1) ?_ ?_ ?_ fuel s _ ⟨⟨respects, rfl,
      fun _ => Iff.rfl⟩, ?_⟩
  · rintro fuel t f d rest ⟨sound, traced⟩ popped
    obtain ⟨⟨_, path⟩, traced'⟩ := traced.pop popped (f.settled.setIfInBounds source true)
    split
    · exact ⟨sound, traced'⟩
    · rename_i negative
      -- A negative walk from the source to itself would have it executed before itself.
      have cycle := sound.respects.latest_le path
      have : (d : T) < 0 := by exact_mod_cast not_le.mp negative
      linarith
  · rintro fuel t f n d rest ⟨sound, traced⟩ popped apart far finite
    obtain ⟨⟨hn, path⟩, traced'⟩ := traced.pop popped (f.settled.setIfInBounds n true)
    rw [← sound.nodeCount] at hn inside
    have wf := sound.respects.carries.wellFormed
    have tightened := Network.tightenedInto_tighten wf hn inside finite.2
    refine ⟨⟨?_, tightened.nodeCount.trans sound.nodeCount, sound.waiting⟩, traced'⟩
    exact sound.respects.tighten hn inside finite.2
      fun ω proper => sound.respects.le_of_far hn path far proper
  · rintro fuel t f n d rest ⟨sound, traced⟩ popped apart near
    obtain ⟨⟨hn, path⟩, traced'⟩ := traced.pop popped (f.settled.setIfInBounds n true)
    -- A negative distance from `n` makes `n` later than the source, which is why the visits come to an
    -- end.
    have later : latest links σ source < latest links σ n := by
      have := sound.respects.latest_le path
      have : (d : T) < 0 := by exact_mod_cast near
      linarith
    have extends' : ∀ t', Sound links σ t t' → Sound links σ s t' ∧
        ((settled f rest n).extend t'.network n d).Traced s.network.nodeCount
          (Backward links σ source) := by
      intro t' sound'
      have sound'' := sound.trans sound'
      refine ⟨sound'', ?_⟩
      rw [Frontier.extend_eq]
      refine traced'.offerAll fun m k o mem => ?_
      have hn' : n < t'.network.nodeCount := by rwa [sound''.nodeCount]
      obtain ⟨_, w, weight, rfl, rfl⟩ :=
        (Frontier.mem_extensions sound''.respects.carries.wellFormed hn').mp mem
      obtain ⟨hm, _⟩ := Network.lt_of_extension? sound''.respects.carries.wellFormed weight
      rw [sound''.nodeCount] at hm
      exact ⟨hm, sound''.respects.backward_extension (by rwa [sound''.nodeCount]) path near weight⟩
    split
    · exact (visits n t hn sound later).mono (fun _ t' sound' => extends' t' sound') fun _ _ h => h
    · exact extends' t ⟨sound.respects, rfl, fun _ => Iff.rfl⟩
  · rw [Frontier.ofSource_eq]
    refine (Frontier.traced_blank _ _).offerAll fun n k o mem => ?_
    have start := (Frontier.mem_startsInto respects.carries.wellFormed inside).mp mem
    exact ⟨(start.lt respects.carries.wellFormed).1, respects.backward_start start⟩

theorem backPropagate_sound (stops : Polls) (depth : Nat) (source : NodeId) (s : StnuRun NodeStatus)
    (respects : Respects links σ s.network) (inside : source < s.network.nodeCount)
    (waits : WaitsBefore links σ s (latest links σ source)) :
    Ends (backPropagate stops depth source) s (fun _ t => Sound links σ s t)
      fun e _ => e ≠ .notControllable := by
  induction depth generalizing source s with
  | zero => exact ⟨respects, rfl, fun _ => Iff.rfl⟩
  | succ depth ih =>
    refine backPropagate_ends (fun t => nofun) (fun _ => ⟨respects, rfl, fun _ => Iff.rfl⟩)
      (fun started => absurd (waits source started) (lt_irrefl _)) fun _ fresh => ?_
    have status : ∀ (statuses : Array NodeStatus) (status : NodeStatus) (p : Nat), p ≠ source →
        (statuses.setIfInBounds source status)[p]? = statuses[p]? :=
      fun statuses status p other => Array.getElem?_setIfInBounds_ne (Ne.symm other)
    refine (drain_sound (s := begun s source) ?_ respects inside _).mono ?_ fun _ _ h => h
    · intro n t hn sound later
      refine ih n t sound.respects (by rwa [sound.nodeCount]) fun p started => ?_
      rw [sound.waiting] at started
      by_cases same : p = source
      · rw [same]
        exact later
      · rw [begun, status _ _ p same] at started
        exact (waits p started).trans later
    · rintro _ t sound
      refine ⟨sound.respects, sound.nodeCount, fun p => ?_⟩
      by_cases same : p = source
      · subst same
        refine iff_of_false ?_ fresh
        rw [ended, Array.getElem?_setIfInBounds, if_pos rfl]
        split <;> simp
      · rw [ended]
        dsimp only
        rw [status _ _ p same, sound.waiting p, begun]
        dsimp only
        rw [status _ _ p same]

/-- With a strategy a run over the nodes of a network does not reject it. -/
theorem processAll_sound (stops : Polls) (s : StnuRun NodeStatus) (respects : Respects links σ s.network)
    (fresh : ∀ p : Nat, s.statuses[p]? ≠ some .inProgress) :
    Ends (processAll stops) s (fun _ _ => True) fun e _ => e ≠ .notControllable := by
  unfold processAll
  rw [ends_bind]
  change Ends (List.forM _ _) s _ _
  refine (ends_forM (fun todo t => Sound links σ s t ∧ ∀ n ∈ todo, n < s.network.nodeCount) ?_ _ s
    ⟨⟨respects, rfl, fun _ => Iff.rfl⟩, ?_⟩).mono (fun _ _ _ => trivial) fun _ _ h => h
  · rintro n rest t ⟨sound, inside⟩
    refine (backPropagate_sound stops _ n t sound.respects ?_ ?_).mono ?_ fun _ _ h => h
    · rw [sound.nodeCount]
      exact inside n List.mem_cons_self
    · exact fun p started => absurd ((sound.waiting p).mp started) (fresh p)
    · exact fun _ t' sound' => ⟨sound.trans sound', fun m mem => inside m (List.mem_cons_of_mem _ mem)⟩
  · intro n mem
    exact List.mem_range.mp (List.mem_filter.mp mem).1

end NodeRun

theorem Prepared.respects {g h : PlainNetwork} {links : List StnuLink} (prepared : Prepared g h links)
    (raw : ∀ u v, g.case? u v = none) {σ : (Nat → T) → NodeId → T}
    (strategy : ControlStrategy g links σ) : Respects links σ h := by
  have carries := prepared.carries raw
  refine ⟨carries, ⟨fun link mem => ?_, strategy.lasts, fun ω ω' admissible admissible' n mem => ?_⟩,
    (prepared.justified raw strategy).ordinary⟩
  · simpa using carries.inside link mem
  · exact strategy.dynamic ω ω' admissible admissible' n
      (prepared.nodes n (Finset.mem_range.mp mem))

theorem Prepared.processAll_sound {g h : PlainNetwork} {links : List StnuLink}
    (prepared : Prepared g h links) (raw : ∀ u v, g.case? u v = none) {σ : (Nat → T) → NodeId → T}
    (strategy : ControlStrategy g links σ) (stops : Polls) (statistics : StnuStatistics) :
    Ends (NodeRun.processAll stops) (StnuChecker.nodeStart h links statistics) (fun _ _ => True)
      fun e _ => e ≠ .notControllable := by
  obtain ⟨σ', respects⟩ := (prepared.respects raw strategy).ofLinks
  refine NodeRun.processAll_sound stops (StnuChecker.nodeStart h links statistics) respects fun p => ?_
  rw [StnuChecker.nodeStart, StnuRun.start, Array.getElem?_replicate]
  split <;> simp

/-- An inconsistent verdict of a check over the nodes is right: the network, whose links are those that
the initialisation finds, is not controlled by any strategy. -/
theorem not_controllable_of_inconsistent_by_nodes (T : Type*) [Field T] [LinearOrder T]
    [IsStrictOrderedRing T] (g : PlainNetwork) (wf : g.WellFormed)
    (raw : ∀ u v, g.case? u v = none) (options : CheckerOptions)
    (byNodes : options.algorithm = .morris2014) (stops : Polls) (c : StnuChecker)
    (status : CheckStatus)
    (checked : (StnuChecker.ofNetwork g options).check stops = (c, .ok status))
    (inconsistent : status.outcome = .inconsistent) (links : List StnuLink)
    (found : (StnuChecker.ofNetwork g options).initialise.1.links = links) :
    (∀ link, link ∈ links ↔ g.IsLink link) ∧ (links.map StnuLink.contingent).Nodup ∧
      ¬ ∃ σ : (Nat → T) → NodeId → T, ControlStrategy g links σ := by
  subst found
  obtain ⟨h, prepared, statistics, answers⟩ := StnuChecker.ran_over_nodes wf byNodes checked
  refine ⟨prepared.mem_iff, prepared.distinct, ?_⟩
  rintro ⟨σ, strategy⟩
  obtain ⟨_, rejected⟩ := (answers
    (prepared.processAll_sound raw strategy stops statistics)).2 inconsistent
  exact rejected rfl

theorem not_controllable_of_inconsistent_by_nodes_foresight : ∃ c status,
    (StnuChecker.ofNetwork foresightNetwork ⟨none, false, true, .morris2014⟩).check .never =
        (c, .ok status) ∧ status.outcome = .inconsistent ∧
      (StnuChecker.ofNetwork foresightNetwork ⟨none, false, true, .morris2014⟩).initialise.1.links =
        [⟨1, 2, 1, 3⟩] ∧ ¬ ∃ σ : (Nat → ℚ) → NodeId → ℚ,
        ControlStrategy foresightNetwork [⟨1, 2, 1, 3⟩] σ := by
  have answered : ((StnuChecker.ofNetwork foresightNetwork ⟨none, false, true, .morris2014⟩).check
      .never).2.toOption.map CheckStatus.outcome = some .inconsistent := by decide +kernel
  have found : (StnuChecker.ofNetwork foresightNetwork
      ⟨none, false, true, .morris2014⟩).initialise.1.links = [⟨1, 2, 1, 3⟩] := by decide +kernel
  cases checked : (StnuChecker.ofNetwork foresightNetwork ⟨none, false, true, .morris2014⟩).check
      .never with
  | mk c answer =>
    rw [checked] at answered
    cases answer with
    | error e => cases answered
    | ok status =>
      have inconsistent : status.outcome = .inconsistent := Option.some.inj answered
      exact ⟨c, status, rfl, inconsistent, found, (not_controllable_of_inconsistent_by_nodes ℚ
        foresightNetwork (Network.wellFormed_getD_build _ _) foresightNetwork_raw _ rfl _ c status
        checked inconsistent _ found).2.2⟩

end TemporalNetwork
