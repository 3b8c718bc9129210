import TemporalNetwork.Proofs.Conditional.Initialised

/-!
The literals that a node inherits from the observers of the propositions it mentions. The labels of the
nodes are closed one after the other, in place, so a closure may read labels that have been extended
already. What it reads there is inherited, too: whatever the order, every node ends with the literals
that it has or inherits in the original network.
-/

namespace TemporalNetwork

namespace Label

theorem exists_state_eq (given : Proposition → Option LiteralState) :
    ∃ a : Label, ∀ p, a.state p = given p := by
  have among : ∀ ps : List Proposition,
      ∃ a : Label, ∀ p, a.state p = if p ∈ ps then given p else none := by
    intro ps
    induction ps with
    | nil => exact ⟨empty, fun p => by simp⟩
    | cons q rest ih =>
      obtain ⟨a, states⟩ := ih
      cases here : given q with
      | none =>
        refine ⟨a.erase q, fun p => ?_⟩
        rw [state_erase, states]
        by_cases same : q = p
        · simp [← same, here]
        · simp [same, Ne.symm same]
      | some s =>
        refine ⟨a.replace ⟨q, s⟩, fun p => ?_⟩
        rw [state_replace, states]
        by_cases same : q = p
        · simp [← same, here]
        · simp [same, Ne.symm same]
  obtain ⟨a, states⟩ := among Proposition.all
  exact ⟨a, fun p => by simp [states, Proposition.all]⟩

end Label

section Closing

open Label

variable {f : Proposition → Option Label} {label c d : Label} {p : Proposition} {s : LiteralState}

/-- The literals of a label, and those of the observer of each proposition that comes to be mentioned. -/
inductive Gathers (f : Proposition → Option Label) (label : Label) : Proposition → LiteralState → Prop
  | own {p : Proposition} {s : LiteralState} (stated : label.state p = some s) : Gathers f label p s
  | observer {p q : Proposition} {s t : LiteralState} {k : Label} (mentioned : Gathers f label p s)
    (observer : f p = some k) (stated : k.state q = some t) : Gathers f label q t

/-- Whether no proposition is gathered in two states. -/
def Consistent (f : Proposition → Option Label) (label : Label) : Prop :=
  ∀ p s t, Gathers f label p s → Gathers f label p t → s = t

/-- Rounds beyond those in which the label can still grow change nothing. -/
theorem closeWithin_of_enough {fuel : Nat} (enough : 32 < label.size + fuel) (more : Nat) :
    closeWithin f (fuel + more) label = closeWithin f fuel label := by
  induction fuel generalizing label with
  | zero =>
    have := label.size_le
    omega
  | succ fuel ih =>
    rw [Nat.add_right_comm, closeWithin, closeWithin]
    cases round : addObserverLabels f label label.propositions.toList with
    | error e => rfl
    | ok next =>
      dsimp only
      split
      · rfl
      · rename_i other
        have larger := size_lt_of_subsumes (addObserverLabels_spec round).1 fun same =>
          other same.symm
        exact ih (by omega)

theorem exists_closeWithin (above : c.subsumes label = true) (closed : c.IsClosed f) (fuel : Nat) :
    ∃ d, closeWithin f fuel label = .ok d := by
  induction fuel generalizing label with
  | zero => exact ⟨label, rfl⟩
  | succ fuel ih =>
    have all := closed.of_mentioned above
    obtain ⟨next, round⟩ := exists_addObserverLabels above all
    obtain ⟨_, _, least⟩ := addObserverLabels_spec round
    rw [closeWithin, round]
    dsimp only
    split
    · exact ⟨label, rfl⟩
    · exact ih (least c above all)

theorem Gathers.state_of_isClosed (gathered : Gathers f label p s)
    (above : c.subsumes label = true) (closed : c.IsClosed f) : c.state p = some s := by
  induction gathered with
  | own stated => exact subsumes_iff.mp above _ _ stated
  | observer _ observer stated ih =>
    obtain ⟨k, observer', general⟩ := closed _ (by rw [mentions_eq, ih]; rfl)
    rw [observer] at observer'
    cases observer'
    exact subsumes_iff.mp general _ _ stated

/-- What is gathered without contradiction makes a label. -/
theorem Consistent.exists_label (consistent : Consistent f label) :
    ∃ d : Label, ∀ p s, d.state p = some s ↔ Gathers f label p s := by
  classical
  obtain ⟨d, states⟩ := exists_state_eq fun p =>
    if gathered : ∃ s, Gathers f label p s then some gathered.choose else none
  refine ⟨d, fun p s => ?_⟩
  rw [states]
  split
  · rename_i gathered
    rw [Option.some.injEq]
    constructor
    · rintro rfl
      exact gathered.choose_spec
    · exact fun here => consistent p _ _ gathered.choose_spec here
  · rename_i none
    exact ⟨nofun, fun here => absurd ⟨s, here⟩ none⟩

/-- The label of what is gathered is closed if each of its propositions has an observer. -/
theorem isClosed_of_gathers (states : ∀ p s, d.state p = some s ↔ Gathers f label p s)
    (observed : ∀ p s, Gathers f label p s → ∃ k, f p = some k) :
    d.subsumes label = true ∧ d.IsClosed f := by
  refine ⟨subsumes_iff.mpr fun p s stated => (states p s).mpr (.own stated), fun p mentioned => ?_⟩
  rw [mentions_eq, Option.isSome_iff_exists] at mentioned
  obtain ⟨s, stated⟩ := mentioned
  have here := (states p s).mp stated
  obtain ⟨k, observer⟩ := observed p s here
  exact ⟨k, observer, subsumes_iff.mpr fun q t there => (states q t).mpr (here.observer observer there)⟩

/-- A label that is closed has gathered propositions without contradiction, each of them observed. -/
theorem gathers_of_isClosed (above : c.subsumes label = true) (closed : c.IsClosed f) :
    Consistent f label ∧ ∀ p s, Gathers f label p s → ∃ k, f p = some k := by
  refine ⟨fun p s t first second => ?_, fun p s here => ?_⟩
  · have stated := first.state_of_isClosed above closed
    exact Option.some.inj (stated.symm.trans (second.state_of_isClosed above closed))
  · obtain ⟨k, observer, _⟩ := closed p (by rw [mentions_eq, here.state_of_isClosed above closed]; rfl)
    exact ⟨k, observer⟩

theorem exists_closeLabel_iff : (∃ c, closeLabel f label = .ok c) ↔
    Consistent f label ∧ ∀ p s, Gathers f label p s → ∃ k, f p = some k := by
  constructor
  · rintro ⟨c, closes⟩
    obtain ⟨above, closed, _⟩ := closeLabel_spec closes
    exact gathers_of_isClosed above closed
  · rintro ⟨consistent, observed⟩
    obtain ⟨d, states⟩ := consistent.exists_label
    obtain ⟨above, closed⟩ := isClosed_of_gathers states observed
    exact exists_closeWithin above closed 33

theorem state_closeLabel_iff (closes : closeLabel f label = .ok c) :
    c.state p = some s ↔ Gathers f label p s := by
  obtain ⟨above, closed, least⟩ := closeLabel_spec closes
  refine ⟨fun stated => ?_, fun gathered => gathered.state_of_isClosed above closed⟩
  obtain ⟨consistent, observed⟩ := gathers_of_isClosed above closed
  obtain ⟨d, states⟩ := consistent.exists_label
  obtain ⟨above', closed'⟩ := isClosed_of_gathers states observed
  exact (states p s).mp (subsumes_iff.mp (least d above' closed') p s stated)

end Closing

namespace Network

variable {g h : LabeledNetwork} {n m : NodeId} {p q : Proposition} {s t : LiteralState} {c : Label}

/-- The literals that a node has, or inherits from the observer of a proposition that it has or
inherits. -/
inductive Acquires (g : LabeledNetwork) (n : NodeId) : Proposition → LiteralState → Prop
  | own {p : Proposition} {s : LiteralState} (stated : (g.nodeD n).label.state p = some s) :
    Acquires g n p s
  | observer {p q : Proposition} {s t : LiteralState} {m : NodeId} (mentioned : Acquires g n p s)
    (observes : (g.nodeD m).observed = some p) (stated : (g.nodeD m).label.state q = some t) :
    Acquires g n q t

/-- Whether the literals that a node inherits make a label over observed propositions. -/
structure Closable (g : LabeledNetwork) (n : NodeId) : Prop where
  consistent : ∀ p s t, g.Acquires n p s → g.Acquires n p t → s = t
  observed : ∀ p s, g.Acquires n p s → ∃ m, (g.nodeD m).observed = some p

theorem Acquires.trans (mentioned : g.Acquires n p s) (observes : (g.nodeD m).observed = some p)
    (inherited : g.Acquires m q t) : g.Acquires n q t := by
  induction inherited with
  | own stated => exact mentioned.observer observes stated
  | observer _ observes' stated ih => exact ih.observer observes' stated

theorem UniqueObservers.observerLabel?_eq_some_iff (unique : g.UniqueObservers) :
    g.observerLabel? p = some c ↔ ∃ m, (g.nodeD m).observed = some p ∧ (g.nodeD m).label = c := by
  simp only [observerLabel?, Option.map_eq_some_iff, unique.observerAmong?_eq_some_iff]

theorem UniqueObservers.gathers_iff (unique : g.UniqueObservers) :
    Gathers g.observerLabel? (g.nodeD n).label p s ↔ g.Acquires n p s := by
  constructor
  · intro gathered
    induction gathered with
    | own stated => exact .own stated
    | observer _ observer stated ih =>
      obtain ⟨m, observes, rfl⟩ := unique.observerLabel?_eq_some_iff.mp observer
      exact ih.observer observes stated
  · intro inherited
    induction inherited with
    | own stated => exact .own stated
    | observer _ observes stated ih =>
      exact ih.observer (unique.observerLabel?_eq_some_iff.mpr ⟨_, observes, rfl⟩) stated

theorem UniqueObservers.closable_iff (unique : g.UniqueObservers) : g.Closable n ↔
    ∃ c, closeLabel g.observerLabel? (g.nodeD n).label = .ok c := by
  rw [exists_closeLabel_iff]
  simp only [Consistent, unique.gathers_iff, unique.observerLabel?_eq_some_iff]
  constructor
  · rintro ⟨consistent, observed⟩
    refine ⟨consistent, fun p s here => ?_⟩
    obtain ⟨m, observes⟩ := observed p s here
    exact ⟨_, m, observes, rfl⟩
  · rintro ⟨consistent, observed⟩
    refine ⟨consistent, fun p s here => ?_⟩
    obtain ⟨_, m, observes, _⟩ := observed p s here
    exact ⟨m, observes⟩

/-- While labels are being closed: every node may have got literals that it inherits in `g`. -/
structure Extended (g h : LabeledNetwork) : Prop where
  rest : h = { g with nodes := h.nodes }
  node : ∀ n, h.node? n = (g.node? n).map fun node => { node with label := (h.nodeD n).label }
  own : ∀ n p s, (g.nodeD n).label.state p = some s → (h.nodeD n).label.state p = some s
  inherited : ∀ n p s, (h.nodeD n).label.state p = some s → g.Acquires n p s

namespace Extended

theorem refl (g : LabeledNetwork) : g.Extended g where
  rest := rfl
  node n := by
    rw [nodeD]
    cases g.node? n <;> rfl
  own _ _ _ stated := stated
  inherited _ _ _ stated := .own stated

theorem observed (extended : g.Extended h) (n : NodeId) :
    (h.nodeD n).observed = (g.nodeD n).observed := by
  refine (congrArg (fun node => (node.getD (Node.named "")).observed) (extended.node n)).trans ?_
  show _ = ((g.node? n).getD (Node.named "")).observed
  cases g.node? n <;> rfl

theorem nodeCount (extended : g.Extended h) : h.nodeCount = g.nodeCount := by
  have inside : ∀ (g : LabeledNetwork) (k : NodeId), (g.node? k).isSome = decide (k < g.nodeCount) :=
    fun g k => by
      rw [Bool.eq_iff_iff, Option.isSome_iff_exists, decide_eq_true_eq]
      exact ⟨fun ⟨_, here⟩ => (Array.getElem?_eq_some_iff.mp here).1,
        fun inside => ⟨_, Array.getElem?_eq_getElem inside⟩⟩
  have same : ∀ k, k < h.nodeCount ↔ k < g.nodeCount := by
    intro k
    rw [← decide_eq_decide, ← inside, ← inside, extended.node, Option.isSome_map]
  exact le_antisymm (not_lt.mp fun more => lt_irrefl _ ((same _).mp more))
    (not_lt.mp fun more => lt_irrefl _ ((same _).mpr more))

theorem uniqueObservers (extended : g.Extended h) (unique : g.UniqueObservers) :
    h.UniqueObservers := by
  intro m n p first second
  rw [extended.observed] at first second
  exact unique m n p first second

/-- The extensions so far change nothing about what is inherited. -/
theorem acquires_iff (extended : g.Extended h) : h.Acquires n p s ↔ g.Acquires n p s := by
  constructor
  · intro inherited
    induction inherited with
    | own stated => exact extended.inherited _ _ _ stated
    | observer _ observes stated ih =>
      rw [extended.observed] at observes
      exact ih.trans observes (extended.inherited _ _ _ stated)
  · intro inherited
    induction inherited with
    | own stated => exact .own (extended.own _ _ _ stated)
    | observer _ observes stated ih =>
      rw [← extended.observed] at observes
      exact ih.observer observes (extended.own _ _ _ stated)

theorem closable_iff (extended : g.Extended h) : h.Closable n ↔ g.Closable n := by
  constructor
  · rintro ⟨consistent, observed⟩
    simp only [extended.acquires_iff, extended.observed] at consistent observed
    exact ⟨consistent, observed⟩
  · rintro ⟨consistent, observed⟩
    refine ⟨?_, ?_⟩ <;> simp only [extended.acquires_iff, extended.observed]
    · exact consistent
    · exact observed

theorem relabel (extended : g.Extended h) (states : ∀ p s, c.state p = some s ↔ g.Acquires n p s) :
    g.Extended (h.modifyNode n fun node => { node with label := c }) where
  rest := by
    rw [extended.rest]
    rfl
  node m := by
    rw [node?_modifyNode, label_relabel, extended.node]
    cases present : g.node? m with
    | none => rw [Option.map_none, Option.map_none, Option.map_none, ite_self]
    | some node =>
      have inside : m < h.nodeCount := extended.nodeCount ▸ (Array.getElem?_eq_some_iff.mp present).1
      by_cases same : n = m
      · rw [if_pos same, if_pos ⟨same, inside⟩]
        rfl
      · rw [if_neg same, if_neg fun both => same both.1]
  own m p s stated := by
    rw [label_relabel]
    split
    · rename_i here
      exact (states p s).mpr (here.1 ▸ .own stated)
    · exact extended.own m p s stated
  inherited m p s stated := by
    rw [label_relabel] at stated
    split at stated
    · rename_i here
      exact here.1 ▸ (states p s).mp stated
    · exact extended.inherited m p s stated

end Extended

end Network

namespace WellDefined

open Network Preparation

variable {g : LabeledNetwork} {d : Draft LabeledEdge} {n : NodeId}

/-- While the labels are being closed: the nodes that are no longer `todo` have all they inherit. -/
structure Inheriting (g : LabeledNetwork) (todo : List NodeId) (h : LabeledNetwork) : Prop where
  extended : g.Extended h
  closable : ∀ n < g.nodeCount, n ∉ todo → g.Closable n
  state_iff : ∀ n < g.nodeCount, n ∉ todo → ∀ p s,
    (h.nodeD n).label.state p = some s ↔ g.Acquires n p s

theorem Inheriting.advance {rest : List NodeId} {h h' : LabeledNetwork}
    (inheriting : Inheriting g (n :: rest) h) (extended : g.Extended h') (closable : g.Closable n)
    (here : ∀ p s, (h'.nodeD n).label.state p = some s ↔ g.Acquires n p s)
    (others : ∀ m, n ≠ m → (h'.nodeD m).label = (h.nodeD m).label) : Inheriting g rest h' where
  extended := extended
  closable m inside later := by
    by_cases same : n = m
    · exact same ▸ closable
    · exact inheriting.closable m inside (List.not_mem_cons_of_ne_of_not_mem (Ne.symm same) later)
  state_iff m inside later p s := by
    by_cases same : n = m
    · exact same ▸ here p s
    · rw [others m same]
      exact inheriting.state_iff m inside (List.not_mem_cons_of_ne_of_not_mem (Ne.symm same) later) p s

/-- Closing the label of a node gives it what it inherits, or fails because that is no label. -/
theorem closeNodeLabel_inherits {rest : List NodeId} (unique : g.UniqueObservers)
    (inheriting : Inheriting g (n :: rest) d.network) (inside : n < g.nodeCount) :
    Ends (closeNodeLabel n) d (fun _ d' => Inheriting g rest d'.network)
      fun _ _ => ∃ n < g.nodeCount, ¬ g.Closable n := by
  have extended := inheriting.extended
  have unique' := extended.uniqueObservers unique
  have closable_iff := (extended.closable_iff (n := n)).symm.trans unique'.closable_iff
  have gathers_iff := fun p s => (unique'.gathers_iff (n := n) (p := p) (s := s)).trans
    extended.acquires_iff
  unfold closeNodeLabel
  rw [ends_bind, ends_network]
  dsimp only
  cases closes : closeLabel d.network.observerLabel? (d.network.nodeD n).label with
  | error failure =>
    have failed : ¬ g.Closable n := by
      rw [closable_iff, closes]
      rintro ⟨_, same⟩
      cases same
    cases failure <;> exact ⟨n, inside, failed⟩
  | ok c =>
    have closable : g.Closable n := closable_iff.mpr ⟨c, closes⟩
    have states : ∀ p s, c.state p = some s ↔ g.Acquires n p s :=
      fun p s => (state_closeLabel_iff closes).trans (gathers_iff p s)
    dsimp only
    split
    · rw [ends_bind, ends_noteFix, ends_modifyNetwork]
      refine inheriting.advance (extended.relabel states) closable (fun p s => ?_) fun m other => ?_
      · rw [label_relabel, if_pos ⟨rfl, extended.nodeCount ▸ inside⟩, states]
      · rw [label_relabel, if_neg fun both => other both.1]
    · rename_i same
      rw [not_not] at same
      exact inheriting.advance extended closable (same ▸ states) fun _ _ => rfl

/-- Every node is renumbered; labels and observed propositions go with it. -/
structure Renumbers (g g' : LabeledNetwork) (number : NodeId → NodeId) : Prop where
  surjective : Function.Surjective number
  label : ∀ n, (g'.nodeD (number n)).label = (g.nodeD n).label
  observed : ∀ n, (g'.nodeD (number n)).observed = (g.nodeD n).observed

theorem Renumbers.acquires_iff {g' : LabeledNetwork} {number : NodeId → NodeId} {p : Proposition}
    {s : LiteralState} (renumbers : Renumbers g g' number) :
    g'.Acquires (number n) p s ↔ g.Acquires n p s := by
  constructor
  · intro inherited
    induction inherited with
    | own stated => exact .own (renumbers.label n ▸ stated)
    | @observer _ _ _ _ m _ observes stated ih =>
      obtain ⟨m, rfl⟩ := renumbers.surjective m
      rw [renumbers.observed] at observes
      rw [renumbers.label] at stated
      exact ih.observer observes stated
  · intro inherited
    induction inherited with
    | own stated => exact .own (renumbers.label n ▸ stated)
    | observer _ observes stated ih =>
      rw [← renumbers.observed] at observes
      rw [← renumbers.label] at stated
      exact ih.observer observes stated

/-- Closing the labels of all nodes, in whatever order, succeeds if what each node inherits makes a
label over observed propositions. That is its label then, whatever the numbers of the nodes, and nothing
else has changed. No closure is cut short by the limit on its rounds. -/
theorem closeNodeLabels_inherits (g : LabeledNetwork) (unique : g.UniqueObservers) (fixes : List String)
    (order : List NodeId) (all : order.Perm g.nodeIds) :
    ((∃ d', (order.forM closeNodeLabel).run ⟨g, fixes⟩ = .ok () d') ↔
      ∀ n < g.nodeCount, g.Closable n) ∧
    (∀ d', (order.forM closeNodeLabel).run ⟨g, fixes⟩ = .ok () d' →
      d'.network = { g with nodes := d'.network.nodes } ∧ d'.network.nodeCount = g.nodeCount ∧
      ∀ n node, g.node? n = some node → ∃ label, d'.network.node? n = some { node with label := label } ∧
        ∀ p s, label.state p = some s ↔ g.Acquires n p s) ∧
    (∀ g' number, Renumbers g g' number →
      ∀ n p s, g'.Acquires (number n) p s ↔ g.Acquires n p s) ∧
    ∀ (f : Proposition → Option Label) (label : Label) (more : Nat),
      closeWithin f (33 + more) label = closeLabel f label := by
  have mem : ∀ n, n ∈ order ↔ n < g.nodeCount := fun n => by
    rw [all.mem_iff, nodeIds, List.mem_range]
  -- The nodes that are still to come have their own labels, the others what they inherit.
  have ends : Ends (order.forM closeNodeLabel) ⟨g, fixes⟩ (fun _ d' => Inheriting g [] d'.network)
      fun _ _ => ∃ n < g.nodeCount, ¬ g.Closable n := by
    refine (ends_forM (fun rest (d : Draft LabeledEdge) =>
      (∀ n ∈ rest, n < g.nodeCount) ∧ Inheriting g rest d.network) ?_ order ⟨g, fixes⟩ ?_).mono
        (fun _ _ done => done.2) fun _ _ => id
    · rintro n rest d ⟨inside, inheriting⟩
      exact (closeNodeLabel_inherits unique inheriting (inside n List.mem_cons_self)).mono
        (fun _ _ next => ⟨fun m later => inside m (List.mem_cons_of_mem n later), next⟩) fun _ _ => id
    · refine ⟨fun n here => (mem n).mp here, .refl g, fun n inside later => ?_, fun n inside later => ?_⟩
      · exact absurd ((mem n).mpr inside) later
      · exact absurd ((mem n).mpr inside) later
  refine ⟨?_, fun d' run => ?_, fun g' number renumbers n p s => renumbers.acquires_iff, ?_⟩
  · cases run : (order.forM closeNodeLabel).run ⟨g, fixes⟩ with
    | ok _ d' =>
      have inheriting := ends.of_ok run
      exact ⟨fun _ n inside => inheriting.closable n inside List.not_mem_nil, fun _ => ⟨d', rfl⟩⟩
    | error failure d' =>
      obtain ⟨n, inside, failed⟩ := ends.of_error run
      refine ⟨fun ⟨_, same⟩ => ?_, fun closable => absurd (closable n inside) failed⟩
      cases same
  · have inheriting := ends.of_ok run
    refine ⟨inheriting.extended.rest, inheriting.extended.nodeCount, fun n node present => ?_⟩
    refine ⟨(d'.network.nodeD n).label, ?_,
      inheriting.state_iff n (Array.getElem?_eq_some_iff.mp present).1 List.not_mem_nil⟩
    rw [inheriting.extended.node, present, Option.map_some]
  · exact fun f label more => closeWithin_of_enough (by omega) more

/-- X occurs if `b` is true, which is observed only if `a` is false. -/
def chainedNetwork : LabeledNetwork :=
  (Network.build [.named "Z", { Node.named "X" with label := .ofLiteral ⟨⟨0, by decide⟩, .straight⟩ },
    { Node.named "Pb" with observed := some ⟨0, by decide⟩, label := .ofLiteral ⟨.last 31, .negated⟩ },
    { Node.named "Pa" with observed := some (.last 31) }] []).getD .empty

/-- X inherits `¬a` from the observer of `b`, whichever of the two is closed first. -/
theorem closeNodeLabels_inherits_chained : ∃ d',
    (chainedNetwork.nodeIds.reverse.forM closeNodeLabel).run ⟨chainedNetwork, []⟩ = .ok () d' ∧
    chainedNetwork.Closable 1 ∧ ∃ node, d'.network.node? 1 = some node ∧ node.name = "X" ∧
      node.label.state (.last 31) = some .negated := by
  have unique : chainedNetwork.UniqueObservers :=
    uniqueObservers_of_check (by decide +kernel)
  obtain ⟨succeeds_iff, result, _⟩ := closeNodeLabels_inherits chainedNetwork unique []
    chainedNetwork.nodeIds.reverse (List.reverse_perm _)
  obtain ⟨_, d', run⟩ := exists_of_succeeds (m := chainedNetwork.nodeIds.reverse.forM closeNodeLabel)
    (s := ⟨chainedNetwork, []⟩) (by decide +kernel)
  have closable := succeeds_iff.mp ⟨d', run⟩ 1 (by decide +kernel)
  obtain ⟨_, _, nodes⟩ := result d' run
  obtain ⟨label, present, states⟩ := nodes 1
    { Node.named "X" with label := .ofLiteral ⟨⟨0, by decide⟩, .straight⟩ } (by decide +kernel)
  have own : chainedNetwork.Acquires 1 ⟨0, by decide⟩ .straight := .own (by decide +kernel)
  have inherited : chainedNetwork.Acquires 1 (.last 31) .negated :=
    own.observer (m := 2) (by decide +kernel) (by decide +kernel)
  exact ⟨d', run, closable, _, present, rfl, (states _ _).mpr inherited⟩

end WellDefined

end TemporalNetwork
