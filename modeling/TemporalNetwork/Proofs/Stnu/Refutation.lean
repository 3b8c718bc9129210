import Mathlib.Algebra.BigOperators.Ring.Finset
import Mathlib.Algebra.Order.BigOperators.Group.Finset
import Mathlib.Algebra.Order.Floor.Ring
import Mathlib.Algebra.Order.Field.Rat
import Mathlib.Data.Rat.Floor
import TemporalNetwork.Proofs.Stnu.Strategy
import TemporalNetwork.Proofs.Stnu.Verdict

/-!
No strategy controls a network that is found to be not controllable. Every constraint that a run adds
holds for every strategy, and a link has to wait for another one only if it is started later whenever
all links take as long as they can; so no strategy survives a stage at which a run gives up.
-/

namespace TemporalNetwork

variable {T : Type*} [Field T] [LinearOrder T] [IsStrictOrderedRing T]

/-- Times that satisfy the constraints but for a small slack can be rounded to a potential: of a few
ways to round, one does not tell a time from the same time with the slack. -/
theorem Network.exists_admits_of_slack [FloorRing T] {g : PlainNetwork} (wf : g.WellFormed)
    {p : NodeId → T} {ε : T} (positive : 0 < ε) (small : (g.nodeCount + 1) * ε ≤ 1)
    (slack : ∀ u v w, g.weightBetween? u v = some w → p v ≤ p u + w + ε) :
    ∃ q, g.Admits q := by
  let total : Nat → Int := fun j => ∑ u ∈ Finset.range g.nodeCount, ⌊p u + j * ε⌋
  have step : ∀ (j : Nat) (u : NodeId), ⌊p u + j * ε⌋ ≤ ⌊p u + (j + 1 : Nat) * ε⌋ := by
    intro j u
    refine Int.floor_le_floor ?_
    push_cast
    linarith
  obtain ⟨j, still⟩ : ∃ j, total (j + 1) ≤ total j := by
    by_contra grows
    push Not at grows
    have least : ∀ j : Nat, total 0 + j ≤ total j := by
      intro j
      induction j with
      | zero => simp
      | succ j ih =>
        have := grows j
        push_cast
        omega
    have most : total (g.nodeCount + 1) ≤ total 0 + g.nodeCount := by
      have each : ∀ u ∈ Finset.range g.nodeCount,
          ⌊p u + (g.nodeCount + 1 : Nat) * ε⌋ ≤ ⌊p u + (0 : Nat) * ε⌋ + 1 := by
        intro u _
        rw [← Int.floor_add_one]
        refine Int.floor_le_floor ?_
        push_cast
        linarith
      refine (Finset.sum_le_sum each).trans_eq ?_
      rw [Finset.sum_add_distrib, Finset.sum_const, Finset.card_range, nsmul_one]
    have := least (g.nodeCount + 1)
    push_cast at this
    omega
  have rounds : ∀ u, u < g.nodeCount → ⌊p u + (j + 1 : Nat) * ε⌋ = ⌊p u + j * ε⌋ := by
    intro u hu
    have equal := le_antisymm (Finset.sum_le_sum fun u _ => step j u) still
    exact ((Finset.sum_eq_sum_iff_of_le fun u _ => step j u).mp equal u
      (Finset.mem_range.mpr hu)).symm
  refine ⟨fun v => ⌊p v + j * ε⌋, fun u v w weight => ?_⟩
  have inside := (Network.lt_of_weightBetween? wf weight).1
  have le := slack u v w weight
  calc ⌊p v + j * ε⌋ ≤ ⌊p u + (j + 1 : Nat) * ε + w⌋ := by
        refine Int.floor_le_floor ?_
        push_cast
        linarith
    _ = ⌊p u + j * ε⌋ + w := by rw [Int.floor_add_intCast, rounds u inside]

/-- When a link is started if all links take as long as they can. -/
def latestStart (links : List StnuLink) (σ : (Nat → T) → NodeId → T) (i : Nat) : T :=
  ((links[i]?).map fun link => σ (longestDurations T links) link.activation).getD 0

/-- What a strategy justifies of a network: its ordinary constraints hold, and its lower cases are
those of the links. -/
structure Justified (g : PlainNetwork) (links : List StnuLink) (σ : (Nat → T) → NodeId → T)
    (h : PlainNetwork) : Prop where
  nodes : ∀ n, n < h.nodeCount → g.Scheduled n
  ordinary : ∀ ω, Proper links ω → ∀ u v w, h.ordinary? u v = some w → σ ω v ≤ σ ω u + w
  lower : ∀ u v w, h.lowerWeight? u v = some w →
    ∃ link ∈ links, u = link.activation ∧ v = link.contingent ∧ w = link.lower

/-- What is assumed of the links of a strategy. -/
structure Linked (g : PlainNetwork) (links : List StnuLink) : Prop where
  scheduled : LinksScheduled links g
  nonneg : ∀ link ∈ links, 0 ≤ link.lower
  range : ∀ link ∈ links, link.lower < link.upper

section soundness

variable {g h : PlainNetwork} {links : List StnuLink} {σ : (Nat → T) → NodeId → T}

theorem Linked.proper_longest (linked : Linked g links) :
    Proper links (longestDurations T links) :=
  proper_longestDurations linked.nonneg linked.range

variable (strategy : ControlStrategy g links σ) (linked : Linked g links)

include strategy linked in
/-- The distances found by a back-propagation are respected by every strategy. -/
theorem Justified.le_of_reaches (justified : Justified g links σ h)
    {link : StnuLink} (mem : link ∈ links) {v : NodeId} {d : Int} (reaches : h.Reaches link v d)
    {ω : Nat → T} (proper : Proper links ω) : σ ω link.contingent ≤ σ ω v + d := by
  induction reaches generalizing ω with
  | origin => simp
  | @step u v d w _ _ onward weight ih =>
    push_cast
    rcases Network.stepWeight?_cases weight with ordinary | ⟨negative, lower⟩
    · have := justified.ordinary ω proper v u w ordinary
      have := ih proper
      linarith
    · obtain ⟨other, mem', rfl, rfl, rfl⟩ := justified.lower v u w lower
      obtain ⟨k, listed⟩ := List.getElem?_of_mem mem'
      have := strategy.le_of_before linked.scheduled listed (linked.nonneg other mem')
        (linked.scheduled link mem).2 (by exact_mod_cast negative) (fun ω proper => ih proper) proper
      linarith

include strategy linked in
theorem Justified.tightenEach (justified : Justified g links σ h) (wf : h.WellFormed)
    {statuses : Array LinkStatus} {i : Nat} {link : StnuLink} (listed : links[i]? = some link)
    (inside : link.contingent < h.nodeCount) {distances : NodeId → Option Int}
    {edges : List (NodeId × Value)}
    (completed : BackPropagation.Completed ⟨h, links, statuses, i, link⟩ distances edges)
    {k : PlainNetwork} {sources : List NodeId}
    (after : h.TightenedBy link.activation edges k sources) : Justified g links σ k := by
  have mem := List.mem_of_getElem? listed
  refine ⟨fun n hn => justified.nodes n (after.tightened.nodeCount ▸ hn),
    fun ω proper u v w weight => ?_, fun u v w weight => ?_⟩
  · rcases after.origin u v w weight with before | ⟨rfl, added⟩
    · exact justified.ordinary ω proper u v w before
    · obtain ⟨_, _, _, d, found, far, rfl⟩ := completed.listed u w added
      have reaches := completed.reaches u d found
      have scheduled := justified.nodes u (lt_of_reaches wf inside reaches)
      push_cast
      exact strategy.le_of_after linked.scheduled listed (linked.nonneg link mem)
        (linked.range link mem) scheduled (by exact_mod_cast far)
        (fun ω proper => justified.le_of_reaches strategy linked mem reaches proper) proper
  · rw [after.tightened.lowerWeight?] at weight
    exact justified.lower u v w weight

include strategy linked in
/-- A link waits only for links that are started later if all links take as long as they can. -/
theorem Justified.latestStart_lt (justified : Justified g links σ h)
    {statuses : Array LinkStatus} {i next : Nat} {link other : StnuLink} {d : Int}
    (listed : links[i]? = some link)
    (waits : BackPropagation.Query.Waits ⟨h, links, statuses, i, link⟩ next other d) :
    latestStart links σ i < latestStart links σ next := by
  have mem := List.mem_of_getElem? listed
  have proper : Proper links (longestDurations T links) := linked.proper_longest
  have listed' : links[next]? = some other := waits.listed
  have near : (d : T) < link.upper - link.lower := by exact_mod_cast waits.near
  have nonneg : (0 : T) ≤ link.lower := by exact_mod_cast linked.nonneg link mem
  have reached := justified.le_of_reaches strategy linked mem waits.reaches proper
  have lasts := strategy.lasts _ proper.admissible i link listed
  have longest : longestDurations T links i = link.upper := longestDurations_eq T listed
  rw [latestStart, listed, Option.map_some, Option.getD_some, latestStart, listed',
    Option.map_some, Option.getD_some]
  linarith

include strategy linked in
theorem Justified.exists_admits [FloorRing T] (justified : Justified g links σ h)
    (wf : h.WellFormed) : ∃ p, h.Admits p := by
  let ε : T := 1 / (h.nodeCount + 1)
  have count : (0 : T) < h.nodeCount + 1 := by positivity
  have positive : 0 < ε := by positivity
  have small : ε ≤ 1 := by
    rw [div_le_one count]
    linarith [(Nat.cast_nonneg h.nodeCount : (0 : T) ≤ h.nodeCount)]
  -- Every link is made to end soon after its shortest duration.
  let ω : Nat → T := fun i => ((links[i]?).map fun link => (link.lower : T) + ε).getD 0
  have here : ∀ (i : Nat) (link : StnuLink), links[i]? = some link → ω i = link.lower + ε := by
    intro i link listed
    dsimp only [ω]
    rw [listed]
    rfl
  have proper : Proper links ω := by
    constructor
    · intro i link listed
      have range : (link.lower : T) + 1 ≤ link.upper := by
        exact_mod_cast linked.range link (List.mem_of_getElem? listed)
      rw [here i link listed]
      constructor <;> linarith
    · intro i link listed
      have nonneg : (0 : T) ≤ link.lower := by
        exact_mod_cast linked.nonneg link (List.mem_of_getElem? listed)
      rw [here i link listed]
      linarith
  refine Network.exists_admits_of_slack wf positive (mul_one_div_cancel count.ne').le
    (p := σ ω) fun u v w weight => ?_
  rw [Network.weightBetween?_eq] at weight
  rcases PlainEdge.lesser_cases weight with ordinary | lower
  · have := justified.ordinary ω proper u v w ordinary
    linarith
  · obtain ⟨link, mem, rfl, rfl, rfl⟩ := justified.lower u v w lower
    obtain ⟨i, listed⟩ := List.getElem?_of_mem mem
    rw [strategy.lasts ω proper.admissible i link listed, here i link listed]
    linarith

omit [IsStrictOrderedRing T] in
theorem Justified.of_sameEdges {k : PlainNetwork} (justified : Justified g links σ h)
    (same : h.SameEdges k) : Justified g links σ k := by
  refine ⟨fun n hn => justified.nodes n (same.nodeCount ▸ hn), fun ω proper u v w weight => ?_,
    fun u v w weight => ?_⟩
  · rw [Network.ordinary?, same.bound] at weight
    exact justified.ordinary ω proper u v w weight
  · rw [Network.lowerWeight?, same.case?] at weight
    exact justified.lower u v w weight

/-- What a strategy tells of a stage: the network is justified, and of the links that wait the later
ones are started later if all links take as long as they can. -/
structure LinkStage.Sound (g : PlainNetwork) (links : List StnuLink) (σ : (Nat → T) → NodeId → T)
    (stage : LinkStage) : Prop where
  justified : Justified g links σ stage.network
  ordered : stage.stack.Pairwise fun i j => latestStart links σ j < latestStart links σ i

variable {first : PlainNetwork}

include strategy linked in
/-- A link that waits for another one is started before it, and so before it waits for any of those
that wait for itself. -/
theorem LinkStage.Sound.lt_next {statuses : Array LinkStatus} {finished rest : List Nat} {i next : Nat}
    (sound : Sound g links σ ⟨h, statuses, finished, i :: rest⟩) {link other : StnuLink} {d : Int}
    (listed : links[i]? = some link)
    (waits : BackPropagation.Query.Waits ⟨h, links, statuses, i, link⟩ next other d) :
    ∀ k ∈ i :: rest, latestStart links σ k < latestStart links σ next := by
  have later := sound.justified.latestStart_lt strategy linked listed waits
  intro k mem
  rcases List.mem_cons.mp mem with rfl | below
  · exact later
  · exact ((List.pairwise_cons.mp sound.ordered).1 k below).trans later

include strategy linked in
theorem LinkStage.Reachable.sound (runnable : Runnable links first)
    (justified : Justified g links σ first) {stage : LinkStage}
    (reachable : Reachable links first stage) : stage.Sound g links σ := by
  induction reachable with
  | begin => exact ⟨justified, .nil⟩
  | start _ _ sound => exact ⟨sound.justified, List.pairwise_singleton _ _⟩
  | interrupt before listed waits sound =>
    have explained := (before.progress runnable).explains listed
    rw [waits] at explained
    obtain ⟨_, other, d, waits⟩ := explained
    exact ⟨sound.justified,
      List.pairwise_cons.mpr ⟨sound.lt_next strategy linked listed waits, sound.ordered⟩⟩
  | finish before listed completes _ sound =>
    have progress := before.progress runnable
    obtain ⟨⟨distances, completed⟩, after⟩ := progress.tightens listed completes
    obtain ⟨_, inside, _⟩ := progress.within _ _ listed
    refine ⟨?_, (List.pairwise_cons.mp sound.ordered).2⟩
    exact (sound.justified.tightenEach strategy linked progress.wellFormed listed inside completed
      after).of_sameEdges (Network.sameEdges_setPotentials _ _)

include strategy linked in
theorem Justified.upper_le (justified : Justified g links σ h) {i : Nat} {link : StnuLink}
    (listed : links[i]? = some link) {d : Int} (reaches : h.Reaches link link.activation d) :
    link.upper ≤ d := by
  have proper : Proper links (longestDurations T links) := linked.proper_longest
  have near := justified.le_of_reaches strategy linked (List.mem_of_getElem? listed) reaches proper
  rw [strategy.lasts _ proper.admissible i link listed, longestDurations_eq T listed,
    add_le_add_iff_left] at near
  exact_mod_cast near

include strategy linked in
/-- With a strategy no run is at a stage at which the network is found to be not controllable. -/
theorem LinkStage.Reachable.not_rejected [FloorRing T] (runnable : Runnable links first)
    (justified : Justified g links σ first) {stage : LinkStage}
    (reachable : Reachable links first stage) : ¬ stage.Rejected links := by
  have progress := reachable.progress runnable
  have sound := reachable.sound strategy linked runnable justified
  intro rejected
  cases rejected with
  | propagation listed fails =>
    have explained := progress.explains listed
    rw [fails] at explained
    rcases explained with ⟨d, reaches, near⟩ | ⟨next, other, d, waits, started⟩
    · exact absurd near (not_lt.mpr (sound.justified.upper_le strategy linked listed reaches))
    · have waiting := (progress.started next).mp started
      exact lt_irrefl _ (sound.lt_next strategy linked listed waits next waiting)
  | potential listed completes none =>
    obtain ⟨⟨distances, completed⟩, after⟩ := progress.tightens listed completes
    obtain ⟨_, inside, _⟩ := progress.within _ _ listed
    have justified' := sound.justified.tightenEach strategy linked progress.wellFormed listed inside
      completed after
    obtain ⟨p, valid⟩ := justified'.exists_admits strategy linked after.wellFormed
    exact none p valid

end soundness

section prepared

variable {g h : PlainNetwork} {links : List StnuLink}

theorem Prepared.linked (prepared : Prepared g h links) : Linked g links := by
  refine ⟨fun link mem => ?_, fun link mem => (prepared.link link mem).nonneg,
    fun link mem => (prepared.link link mem).range⟩
  obtain ⟨inside, inside'⟩ := (prepared.link link mem).inside
  exact ⟨prepared.nodes _ inside, prepared.nodes _ inside'⟩

theorem Prepared.justified (prepared : Prepared g h links) (raw : ∀ u v, g.case? u v = none)
    {σ : (Nat → T) → NodeId → T} (strategy : ControlStrategy g links σ) :
    Justified g links σ h := by
  refine ⟨prepared.nodes, fun ω proper u v w weight => ?_, fun u v w weight => ?_⟩
  · have admissible := proper.admissible
    rcases prepared.ordinary u v w weight with ⟨before, free⟩ | ⟨rfl, rfl⟩ |
      ⟨link, mem, ⟨rfl, rfl, rfl⟩ | ⟨rfl, rfl, rfl⟩⟩
    · rw [← Network.bind_value?] at before
      obtain ⟨edge, joined, stored⟩ := Option.bind_eq_some_iff.mp before
      exact strategy.constraint ω admissible u v edge w joined (fun kind => free ⟨edge, joined, kind⟩)
        stored
    · have inside : u < h.nodeCount := by
        rw [← Network.bind_value?] at weight
        obtain ⟨edge, joined, _⟩ := Option.bind_eq_some_iff.mp weight
        exact (prepared.wellFormed.lt_of_edgeBetween? joined).1
      simpa using strategy.first ω admissible u (prepared.nodes u inside)
    · obtain ⟨i, listed⟩ := List.getElem?_of_mem mem
      rw [strategy.lasts ω admissible i link listed]
      linarith [(admissible i link listed).2]
    · obtain ⟨i, listed⟩ := List.getElem?_of_mem mem
      rw [strategy.lasts ω admissible i link listed, Int.cast_neg]
      linarith [(admissible i link listed).1]
  · rcases prepared.lower u v w weight with before | here
    · rw [Network.lowerWeight?, raw] at before
      cases before
    · exact here

theorem Prepared.not_rejects [FloorRing T] (prepared : Prepared g h links)
    (raw : ∀ u v, g.case? u v = none) {σ : (Nat → T) → NodeId → T}
    (strategy : ControlStrategy g links σ) : ¬ StnuChecker.Rejects links h := by
  have justified := prepared.justified raw strategy
  have linked := prepared.linked
  rintro (none | ⟨first, stage, runnable, same, reachable, rejected⟩)
  · obtain ⟨p, valid⟩ := justified.exists_admits strategy linked prepared.wellFormed
    exact none p valid
  · exact reachable.not_rejected strategy linked runnable (justified.of_sameEdges same) rejected

end prepared

/-- An inconsistent verdict of a check over the links is right: the network, whose links are those
that the check has found, is not controlled by any strategy. -/
theorem not_controllable_of_inconsistent (T : Type*) [Field T] [LinearOrder T]
    [IsStrictOrderedRing T] [FloorRing T] (g : PlainNetwork) (wf : g.WellFormed)
    (raw : ∀ u v, g.case? u v = none) (options : CheckerOptions)
    (byLinks : options.algorithm ≠ .morris2014) (stops : Polls) (c : StnuChecker)
    (status : CheckStatus)
    (checked : (StnuChecker.ofNetwork g options).check stops = (c, .ok status))
    (inconsistent : status.outcome = .inconsistent) :
    (∀ link, link ∈ c.links ↔ g.IsLink link) ∧
      ¬ ∃ σ : (Nat → T) → NodeId → T, ControlStrategy g c.links σ := by
  obtain ⟨h, prepared, ran⟩ := StnuChecker.ran_of_check wf byLinks checked
  refine ⟨prepared.mem_iff, ?_⟩
  rintro ⟨σ, strategy⟩
  exact prepared.not_rejects raw strategy (ran.inconsistent inconsistent)

/-- The node `X` has to be one or two units before the end of a link that takes one to three. -/
def foresightNetwork : PlainNetwork :=
  (Network.build [.named "Z", .named "A", .named "C", .named "X"]
    [("AC", 1, 2, ⟨.contingent, 3, none⟩), ("CA", 2, 1, ⟨.contingent, -1, none⟩),
      ("XC", 3, 2, ⟨.ordinary, 2, none⟩), ("CX", 2, 3, ⟨.ordinary, -1, none⟩)]).getD .empty

theorem foresightNetwork_raw (u v : NodeId) : foresightNetwork.case? u v = none := by
  have none : ∀ s ∈ foresightNetwork.slots.toList, ∀ t, s = some t → t.payload.case = none := by
    decide +kernel
  rw [Network.case?]
  cases joined : foresightNetwork.edgeBetween? u v with
  | none => rfl
  | some edge =>
    obtain ⟨e, slot, stored, _, _, rfl⟩ :=
      (Network.wellFormed_getD_build _ _).edgeBetween?_eq_some_iff.mp joined
    rw [Network.slot?, Option.join_eq_some_iff] at stored
    exact none _ (Array.mem_toList_iff.mpr (Array.mem_of_getElem? stored)) slot rfl

theorem not_controllable_of_inconsistent_foresight : ∃ c status,
    (StnuChecker.ofNetwork foresightNetwork ⟨none, false, true, .rul2020⟩).check .never =
        (c, .ok status) ∧ status.outcome = .inconsistent ∧
      c.links = [⟨1, 2, 1, 3⟩] ∧ ¬ ∃ σ : (Nat → ℚ) → NodeId → ℚ,
        ControlStrategy foresightNetwork c.links σ := by
  have answered : ((StnuChecker.ofNetwork foresightNetwork ⟨none, false, true, .rul2020⟩).check
      .never).2.toOption.map CheckStatus.outcome = some .inconsistent := by decide +kernel
  have found : ((StnuChecker.ofNetwork foresightNetwork ⟨none, false, true, .rul2020⟩).check
      .never).1.links = [⟨1, 2, 1, 3⟩] := by decide +kernel
  cases checked : (StnuChecker.ofNetwork foresightNetwork ⟨none, false, true, .rul2020⟩).check
      .never with
  | mk c answer =>
    rw [checked] at answered found
    cases answer with
    | error e => cases answered
    | ok status =>
      have inconsistent : status.outcome = .inconsistent := Option.some.inj answered
      exact ⟨c, status, rfl, inconsistent, found, (not_controllable_of_inconsistent ℚ
        foresightNetwork (Network.wellFormed_getD_build _ _) foresightNetwork_raw _ (by decide) _ c
        status checked inconsistent).2⟩

end TemporalNetwork
