import TemporalNetwork.Proofs.Conditional.Fixpoint
import TemporalNetwork.Proofs.Conditional.Trace
import TemporalNetwork.Proofs.Network.Removal
import TemporalNetwork.Proofs.Values.Reporting

/-!
Propagation is monotone. A merge leaves nodes alone, keeps every edge with its number, name and ends,
and drops a value only in favour of one that makes it redundant. The counts of the rules are those of
the merges that have changed an edge.
-/

namespace TemporalNetwork

/-- What becomes of an edge: it may be given values that make others redundant. -/
structure EdgeSlot.Evolves (s t : EdgeSlot LabeledEdge) : Prop where
  name : t.name = s.name
  source : t.source = s.source
  target : t.target = s.target
  kind : t.payload.kind = s.payload.kind
  lower : t.payload.lower = s.payload.lower
  values : ∀ x ∈ s.payload.allValues, ∃ y ∈ t.payload.allValues, MakesRedundant y x

/-- What becomes of a network: its nodes, with what they observe, its reference node and its links
stay, and no edge is removed or renumbered. -/
structure Network.Evolves (g h : LabeledNetwork) : Prop where
  nodes : h.nodes = g.nodes
  z : h.z = g.z
  activations : h.activations = g.activations
  slots : ∀ e s, g.slot? e = some s → ∃ t, h.slot? e = some t ∧ s.Evolves t

theorem EdgeSlot.Evolves.refl (s : EdgeSlot LabeledEdge) : s.Evolves s :=
  ⟨rfl, rfl, rfl, rfl, rfl, fun x mem => ⟨x, mem, .refl x⟩⟩

theorem EdgeSlot.Evolves.trans {s t u : EdgeSlot LabeledEdge} (first : s.Evolves t)
    (second : t.Evolves u) : s.Evolves u where
  name := second.name.trans first.name
  source := second.source.trans first.source
  target := second.target.trans first.target
  kind := second.kind.trans first.kind
  lower := second.lower.trans first.lower
  values x mem := by
    obtain ⟨y, mem', redundant⟩ := first.values x mem
    obtain ⟨w, mem'', redundant'⟩ := second.values y mem'
    exact ⟨w, mem'', redundant'.trans redundant⟩

namespace Network

variable {g h k : LabeledNetwork}

theorem Evolves.refl (g : LabeledNetwork) : g.Evolves g :=
  ⟨rfl, rfl, rfl, fun _ s stored => ⟨s, stored, .refl s⟩⟩

theorem Evolves.trans (first : g.Evolves h) (second : h.Evolves k) : g.Evolves k where
  nodes := second.nodes.trans first.nodes
  z := second.z.trans first.z
  activations := second.activations.trans first.activations
  slots e s stored := by
    obtain ⟨t, stored', evolves⟩ := first.slots e s stored
    obtain ⟨u, stored'', evolves'⟩ := second.slots e t stored'
    exact ⟨u, stored'', evolves.trans evolves'⟩

theorem evolves_edgeOrInsert (wf : g.WellFormed) (u v : NodeId) (payload : LabeledEdge) :
    g.Evolves (g.edgeOrInsert u v payload).1 := by
  unfold edgeOrInsert
  split
  · exact .refl g
  · obtain ⟨nodes, z, activations⟩ := sameNodes_insertEdge g (g.freshEdgeName u v) payload u v
    obtain ⟨fresh, slots⟩ := slot?_insertEdge wf (g.freshEdgeName u v) payload u v
    refine ⟨nodes, z, activations, fun e s stored => ⟨s, ?_, .refl s⟩⟩
    rw [slots, if_neg, stored]
    rintro rfl
    rw [fresh] at stored
    cases stored

theorem evolves_mergeInto (wf : g.WellFormed) (kind : ConstraintKind) (u v : NodeId)
    (case : CaseLabel) (label : Label) (value : Value) :
    g.Evolves (g.mergeInto kind u v case label value).1 := by
  have inserted := evolves_edgeOrInsert wf u v (LabeledEdge.ofKind kind)
  unfold mergeInto
  dsimp only
  split
  · exact inserted
  · rename_i edge here
    refine inserted.trans ⟨rfl, rfl, rfl, fun e s stored => ?_⟩
    rw [slot?_modifyEdge, stored]
    split
    · rename_i same
      obtain rfl : s.payload = edge := by
        rw [Network.edge?, same, stored] at here
        exact Option.some.inj here
      have grows := s.payload.growsTo_merge case label value
      exact ⟨_, rfl, rfl, rfl, rfl, grows.kind, grows.lower, fun x mem =>
        LabeledEdge.redundantIn_merge mem case label value⟩
    · exact ⟨s, rfl, .refl s⟩

end Network

namespace Progress

variable {p : Progress} {u v : NodeId}

theorem network_merge (p : Progress) (rule : Rule) (u v : NodeId) (case : CaseLabel) (label : Label)
    (value : Value) : (p.merge rule u v case label value).1.network = p.network ∨
      (p.merge rule u v case label value).1.network =
        (p.network.mergeInto .derived u v case label value).1 := by
  obtain ⟨g, applied, cycles, polls⟩ := p
  rw [merge]
  split
  · exact Or.inl rfl
  · exact Or.inr rfl

theorem evolves_merge (wf : p.network.WellFormed) (rule : Rule) (u v : NodeId) (case : CaseLabel)
    (label : Label) (value : Value) :
    p.network.Evolves (p.merge rule u v case label value).1.network := by
  rcases p.network_merge rule u v case label value with same | merged
  · rw [same]
    exact .refl p.network
  · rw [merged]
    exact Network.evolves_mergeInto wf .derived u v case label value

/-- A merge reports a change if and only if the contents of the edge are others afterwards. -/
theorem merge_changes_iff (rule : Rule) (wf : p.network.WellFormed) (hu : u < p.network.nodeCount)
    (hv : v < p.network.nodeCount) (case : CaseLabel) (label : Label) (value : Value) :
    (p.merge rule u v case label value).2 = true ↔
      (p.merge rule u v case label value).1.network.edgeBetween? u v ≠
        p.network.edgeBetween? u v := by
  obtain ⟨_, settled, unchanged⟩ := merge_spec rule wf hu hv case label value
  constructor
  · intro changed same
    have already : (Derivation.value case label value).SettledAt p.network u v := by
      simpa only [Derivation.SettledAt, Network.Covers, same] using settled
    rw [merge_of_settled rule wf already] at changed
    cases changed
  · intro other
    rw [← Bool.not_eq_false]
    intro idle
    exact other (by rw [unchanged idle])

theorem count_merge (rule : Rule) (u v : NodeId) (case : CaseLabel) (label : Label) (value : Value)
    (r : Rule) : (p.merge rule u v case label value).1.applied.count r =
      p.applied.count r +
        if rule = r ∧ (p.merge rule u v case label value).2 = true then 1 else 0 := by
  obtain ⟨g, applied, cycles, polls⟩ := p
  rw [merge]
  split
  · simp
  · cases changed : (g.mergeInto .derived u v case label value).2
    · simp [changed]
    · simp [changed, RuleCounts.count_record]

end Progress

/-- The merges of a rule that have changed the contents of an edge. -/
def changesBy (r : Rule) (merges : List Merge) : Nat :=
  merges.countP fun m => m.rule = r ∧ m.changes

/-- What holds along a trace: no state has lost anything that an earlier one had, and each rule has
been counted once for each of its changes. -/
structure Accumulates (start : Progress) (states : List Progress) (merges : List Merge)
    (q : Progress) : Prop where
  mem_start : start ∈ q :: states
  wellFormed : ∀ p ∈ q :: states, p.network.WellFormed
  evolves : (q :: states).Pairwise fun later earlier => earlier.network.Evolves later.network
  counts : ∀ r, q.applied.count r = start.applied.count r + changesBy r merges

namespace Accumulates

variable {start p q : Progress} {states : List Progress} {merges : List Merge}

theorem evolves_of_mem (before : Accumulates start states merges p) {k : Progress}
    (earlier : k ∈ p :: states) : k.network.Evolves p.network := by
  rcases List.mem_cons.mp earlier with rfl | older
  · exact .refl k.network
  · exact List.rel_of_pairwise_cons before.evolves older

theorem inRange (before : Accumulates start states merges p) {k : Progress} {ctx : RuleContext}
    {a : Application} {d : Derivation} (earlier : k ∈ p :: states)
    (derived : d ∈ a.derivations ctx k.network) :
    a.source < p.network.nodeCount ∧ a.target < p.network.nodeCount := by
  have there := a.inRange (before.wellFormed k earlier) (List.ne_nil_of_mem derived)
  rwa [Network.nodeCount, ← (before.evolves_of_mem earlier).nodes, ← Network.nodeCount] at there

theorem step (before : Accumulates start states merges p) {merges' : List Merge}
    (wf : q.network.WellFormed) (next : p.network.Evolves q.network)
    (counts : ∀ r, q.applied.count r = start.applied.count r + changesBy r merges') :
    Accumulates start (p :: states) merges' q where
  mem_start := List.mem_cons_of_mem _ before.mem_start
  wellFormed := List.forall_mem_cons.mpr ⟨wf, before.wellFormed⟩
  evolves := List.pairwise_cons.mpr
    ⟨fun _ earlier => (before.evolves_of_mem earlier).trans next, before.evolves⟩
  counts := counts

end Accumulates

/-- Along every trace from a well-formed network nothing is lost. -/
theorem Trace.accumulates {ctx : RuleContext} {start q : Progress} {states : List Progress}
    {merges : List Merge} (wf : start.network.WellFormed)
    (trace : Trace ctx start states merges q) : Accumulates start states merges q := by
  induction trace with
  | start =>
    exact ⟨List.mem_cons_self, by simpa using wf, List.pairwise_singleton _ _, fun _ => rfl⟩
  | @count states merges p q _ network applied ih =>
    have present := ih.wellFormed p List.mem_cons_self
    refine ih.step (network ▸ present) (network ▸ .refl p.network) fun r => ?_
    rw [applied, ih.counts r]
  | @merge states merges p k case label value a _ _ earlier derived ih =>
    have present := ih.wellFormed p List.mem_cons_self
    have inRange := ih.inRange earlier derived
    obtain ⟨grows, _, _⟩ :=
      Progress.merge_spec (a.rule ctx) present inRange.1 inRange.2 case label value
    refine ih.step grows.wellFormed (Progress.evolves_merge present ..) fun r => ?_
    have changes :=
      Progress.merge_changes_iff (a.rule ctx) present inRange.1 inRange.2 case label value
    simp only [Progress.count_merge, ih.counts r, changesBy, List.countP_cons, changes,
      Nat.add_assoc, Merge.changes, bne_iff_ne, decide_eq_true_eq]

end TemporalNetwork
