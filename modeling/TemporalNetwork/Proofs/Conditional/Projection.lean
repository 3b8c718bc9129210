import TemporalNetwork.Proofs.Conditional.Schedule

/-!
A consistent verdict of the controllability check comes with schedules in which every link takes as
long as it can. The network of maximal durations holds in each scenario what the fixpoint covers there,
upper-case values included, and its own check finds it consistent.
-/

namespace TemporalNetwork

namespace LabeledEdge

variable {e : LabeledEdge} {case : CaseLabel} {label : Label} {x : Value}

theorem mergeOrdinary_eq (e : LabeledEdge) (label : Label) (value : Value) :
    e.mergeOrdinary label value = e.merge .empty label value :=
  (if_pos (by decide)).symm

/-- The edge with values merged as ordinary ones. -/
def withOrdinary (e : LabeledEdge) (vs : List (CaseLabel × Label × Value)) : LabeledEdge :=
  vs.foldl (fun e v => (e.mergeOrdinary v.2.1 v.2.2).1) e

/-- Values that become ordinary are covered as such, and nothing else is given up. -/
theorem withOrdinary_covers (vs : List (CaseLabel × Label × Value)) (e : LabeledEdge) :
    (∀ c l v, e.Covers c l v → (e.withOrdinary vs).Covers c l v) ∧
      ∀ v ∈ vs, v.2.2 ≠ Value.posInf → (e.withOrdinary vs).Covers .empty v.2.1 v.2.2 := by
  induction vs generalizing e with
  | nil => exact ⟨fun _ _ _ h => h, nofun⟩
  | cons first rest ih =>
    obtain ⟨kept, listed⟩ := ih (e.mergeOrdinary first.2.1 first.2.2).1
    refine ⟨fun c l v covered => kept c l v ?_, fun v mem finite => ?_⟩
    · rw [mergeOrdinary_eq]
      exact covers_merge covered
    · rcases List.mem_cons.mp mem with rfl | later
      · refine kept _ _ _ ?_
        rw [mergeOrdinary_eq]
        exact merge_covers_self _ _ _ finite
      · exact listed v later finite

theorem allMax_values (e : LabeledEdge) :
    e.allMax.values = (e.dropUnknown.withOrdinary e.dropUnknown.upper.entries).values := by
  unfold allMax
  dsimp only
  split <;> rfl

theorem allMax_upper (e : LabeledEdge) : e.allMax.upper = .empty := by
  unfold allMax
  dsimp only
  split <;> rfl

theorem allMax_kind (e : LabeledEdge) : e.allMax.kind ≠ .contingent := by
  unfold allMax
  dsimp only
  split
  · nofun
  · assumption

theorem mem_dropUnknown_upper {c : CaseLabel} {m : ValueMap} (group : (c, m) ∈ e.upper.groups)
    (mem : (label, x) ∈ m.entries) (known : label.hasUnknown = false) :
    (c, label, x) ∈ e.dropUnknown.upper.entries := by
  have kept : (label, x) ∈ m.dropUnknown.entries := ValueMap.mem_dropUnknown.mpr ⟨mem, known⟩
  have self : m.dropUnknown.dominates label x = true :=
    ValueMap.dominates_iff.mpr ⟨(label, x), kept, Label.subsumes_refl label, le_rfl⟩
  have group' : (c, m.dropUnknown) ∈ e.dropUnknown.upper.groups :=
    UpperCaseMap.mem_mapGroups_of_dominates (f := fun _ m => m.dropUnknown) group self
  exact List.mem_flatMap.mpr ⟨_, group', List.mem_map.mpr ⟨(label, x), kept, rfl⟩⟩

theorem exists_mem_allMax {s : Label} (complete : s.IsComplete) (finite : x ≠ Value.posInf)
    (mem : (case, label, x) ∈ e.allValues) (holds : s.subsumes label = true) :
    ∃ l y, y ≤ x ∧ (l, y) ∈ e.allMax.values.entries ∧ s.subsumes l = true := by
  obtain ⟨kept, listed⟩ := withOrdinary_covers e.dropUnknown.upper.entries e.dropUnknown
  have known := complete.hasUnknown_of_subsumes holds
  have covers : (e.dropUnknown.withOrdinary e.dropUnknown.upper.entries).Covers .empty label x := by
    rcases List.mem_append.mp mem with mem | mem
    · obtain ⟨_, stored, same⟩ := List.mem_map.mp mem
      cases same
      exact kept _ _ _ (Or.inl (ValueMap.dominates_iff.mpr ⟨_,
        ValueMap.mem_dropUnknown.mpr ⟨stored, known⟩, Label.subsumes_refl _, le_rfl⟩))
    · obtain ⟨_, group, mapped⟩ := List.mem_flatMap.mp mem
      obtain ⟨_, stored, same⟩ := List.mem_map.mp mapped
      cases same
      exact listed _ (mem_dropUnknown_upper group stored known) finite
  have dominates := covers.resolve_right fun lettered => absurd lettered.1 (by decide)
  obtain ⟨⟨l, y⟩, mem, general, le⟩ := ValueMap.dominates_iff.mp dominates
  exact ⟨l, y, le, allMax_values e ▸ mem, Label.subsumes_trans holds general⟩

end LabeledEdge

namespace Network

variable {g : LabeledNetwork} {u v : NodeId} {s : Label} {case : CaseLabel} {x : Value}

theorem slot?_allMaxProjection (g : LabeledNetwork) (e : EdgeId) :
    g.allMaxProjection.slot? e =
      (g.slot? e).map fun slot => { slot with payload := slot.payload.allMax } := by
  unfold slot? allMaxProjection
  rw [Array.getElem?_map]
  cases g.slots[e]? <;> rfl

theorem edgeBetween?_allMaxProjection (g : LabeledNetwork) (u v : NodeId) :
    g.allMaxProjection.edgeBetween? u v = (g.edgeBetween? u v).map LabeledEdge.allMax := by
  have found : g.allMaxProjection.findEdge? u v = g.findEdge? u v := rfl
  rw [edgeBetween?, found, edgeBetween?, Option.map_bind]
  congr 1
  funext e
  rw [edge?, slot?_allMaxProjection, Function.comp_apply, edge?, Option.map_map, Option.map_map]
  rfl

theorem WellFormed.allMaxProjection (wf : g.WellFormed) : g.allMaxProjection.WellFormed := by
  refine wf.of_same_ends rfl rfl rfl (by simp [Network.allMaxProjection]) fun e => ?_
  rw [slot?_allMaxProjection, Option.map_map]
  rfl

/-- In a scenario the network of maximal durations bounds what the network bounds there. -/
theorem HoldsCase.allMaxProjection (complete : s.IsComplete) (finite : x ≠ Value.posInf)
    (holds : g.HoldsCase s case u v x) : ∃ y ≤ x, g.allMaxProjection.HoldsIn s u v y := by
  obtain ⟨e, label, joined, mem, here⟩ := holds
  obtain ⟨l, y, le, mem', here'⟩ := LabeledEdge.exists_mem_allMax complete finite mem here
  refine ⟨y, le, e.allMax, l, ?_, mem', here'⟩
  rw [edgeBetween?_allMaxProjection, joined, Option.map_some]

end Network

/-- Whether the labels of nodes do not matter, or no node has one. -/
def Network.Unlabelled (g : LabeledNetwork) (withNodeLabels : Bool) : Prop :=
  withNodeLabels = true → ∀ n, (g.nodeD n).label = .empty

/-- `h` has the nodes of `g`, and bounds in every scenario what `g` bounds there. -/
structure Network.Retains (withNodeLabels : Bool) (g h : LabeledNetwork) : Prop where
  nodeCount_le : g.nodeCount ≤ h.nodeCount
  unlabelled : h.Unlabelled withNodeLabels
  holds : ∀ s u v x, s.IsComplete → g.HoldsIn s u v x → ∃ y ≤ x, h.HoldsIn s u v y

namespace Network

variable {withNodeLabels : Bool} {g h k : LabeledNetwork}

theorem unlabelled_of_forall_mem (each : ∀ node ∈ g.nodes, node.label = .empty) :
    g.Unlabelled withNodeLabels := by
  intro _ n
  rw [nodeD, node?]
  cases here : g.nodes[n]? with
  | none => rfl
  | some node => exact each node (Array.mem_of_getElem? here)

theorem Unlabelled.boundLabel (unlabelled : g.Unlabelled withNodeLabels) (n : NodeId) :
    g.boundLabel withNodeLabels n = .empty := by
  unfold Network.boundLabel
  split
  · rename_i on
    exact unlabelled on n
  · rfl

theorem Unlabelled.of_nodes (unlabelled : g.Unlabelled withNodeLabels) (nodes : h.nodes = g.nodes) :
    h.Unlabelled withNodeLabels := by
  intro on n
  rw [nodeD, node?, nodes]
  exact unlabelled on n

theorem Unlabelled.addZ (unlabelled : g.Unlabelled withNodeLabels) {id : NodeId}
    (added : g.addNode (Node.named "Z") = some (h, id)) : h.Unlabelled withNodeLabels := by
  unfold addNode at added
  split at added
  · cases added
  · cases added
    intro on n
    have before := unlabelled on n
    simp only [nodeD, node?, Array.getElem?_push] at before ⊢
    split
    · rfl
    · exact before

theorem Unlabelled.clear (unlabelled : g.Unlabelled withNodeLabels) (z : NodeId) :
    (g.modifyNode z fun node => { node with label := .empty }).Unlabelled withNodeLabels := by
  intro on n
  rw [WellDefined.nodeD_modifyNode]
  split
  · rfl
  · exact unlabelled on n

theorem Unlabelled.observerLabel (unlabelled : g.Unlabelled true) {p : Proposition} {l : Label}
    (observer : g.observerLabel? p = some l) : l = .empty := by
  obtain ⟨n, _, rfl⟩ := Option.map_eq_some_iff.mp observer
  exact unlabelled rfl n

namespace Retains

theorem refl (unlabelled : g.Unlabelled withNodeLabels) : g.Retains withNodeLabels g :=
  ⟨le_rfl, unlabelled, fun _ _ _ x _ holds => ⟨x, le_rfl, holds⟩⟩

theorem trans (first : g.Retains withNodeLabels h) (second : h.Retains withNodeLabels k) :
    g.Retains withNodeLabels k := by
  refine ⟨first.nodeCount_le.trans second.nodeCount_le, second.unlabelled,
    fun s u v x complete holds => ?_⟩
  obtain ⟨y, le, held⟩ := first.holds s u v x complete holds
  obtain ⟨y', le', held'⟩ := second.holds s u v y complete held
  exact ⟨y', le'.trans le, held'⟩

theorem of_grows (unlabelled : g.Unlabelled withNodeLabels) (grows : g.Grows h) :
    g.Retains withNodeLabels h :=
  ⟨grows.nodeCount.ge, unlabelled.of_nodes grows.nodes, fun _ _ _ _ _ holds => holds.grows grows⟩

theorem of_edges (unlabelled : h.Unlabelled withNodeLabels) (count : g.nodeCount ≤ h.nodeCount)
    (edges : ∀ u v, h.edgeBetween? u v = g.edgeBetween? u v) : g.Retains withNodeLabels h := by
  refine ⟨count, unlabelled, fun s u v x _ holds => ?_⟩
  obtain ⟨e, l, joined, mem, here⟩ := holds
  exact ⟨x, le_rfl, e, l, (edges u v).trans joined, mem, here⟩

theorem of_erase (unlabelled : g.Unlabelled withNodeLabels) (e : EdgeId) (case : CaseLabel)
    {label : Label} (unknown : label.hasUnknown = true) :
    g.Retains withNodeLabels (g.modifyEdge e fun edge => edge.erase case label) := by
  refine ⟨le_rfl, unlabelled.of_nodes rfl, fun s u v x complete holds => ?_⟩
  obtain ⟨edge, l, joined, mem, here⟩ := holds
  obtain ⟨i, found, stored⟩ := Option.bind_eq_some_iff.mp joined
  have stored' := Network.edge?_modifyEdge g e (fun edge => edge.erase case label) i
  rw [stored, Option.map_some] at stored'
  have kept : (l, x) ∈ (edge.erase case label).values.entries := by
    unfold LabeledEdge.erase
    split
    · refine ValueMap.mem_erase.mpr ⟨mem, fun same => ?_⟩
      have known := complete.hasUnknown_of_subsumes here
      rw [show l = label from same, unknown] at known
      cases known
    · exact mem
  have joined' : (g.modifyEdge e fun edge => edge.erase case label).edgeBetween? u v =
      some (if e = i then edge.erase case label else edge) := by
    rw [edgeBetween?, findEdge?_modifyEdge, found, Option.bind_some, stored']
    split <;> rfl
  refine ⟨x, le_rfl, _, l, joined', ?_, here⟩
  split
  · exact kept
  · exact mem

end Retains

end Network

section closing

variable {g : LabeledNetwork}

theorem addObserverLabels_of_unlabelled (unlabelled : g.Unlabelled true) (label : Label)
    (ps : List Proposition) :
    addObserverLabels g.observerLabel? label ps = .ok label ∨
      ∃ p, addObserverLabels g.observerLabel? label ps = .error (.unobserved p) := by
  induction ps with
  | nil => exact Or.inl rfl
  | cons p ps ih =>
    rw [addObserverLabels]
    cases observer : g.observerLabel? p with
    | none => exact Or.inr ⟨p, rfl⟩
    | some l =>
      rw [unlabelled.observerLabel observer]
      dsimp only
      rw [Label.and?_empty]
      exact ih

theorem closeLabel_of_unlabelled (unlabelled : g.Unlabelled true) (label : Label) :
    closeLabel g.observerLabel? label = .ok label ∨
      ∃ p, closeLabel g.observerLabel? label = .error (.unobserved p) := by
  rw [closeLabel, closeWithin]
  rcases addObserverLabels_of_unlabelled unlabelled label label.propositions.toList with
    same | ⟨p, unobserved⟩
  · rw [same]
    exact Or.inl (if_pos rfl)
  · rw [unobserved]
    exact Or.inr ⟨p, rfl⟩

/-- Without node labels only values with unknown literals are repaired. -/
theorem labelRepair_of_unlabelled {withNodeLabels : Bool} (unlabelled : g.Unlabelled withNodeLabels)
    (source target : NodeId) (label : Label) :
    g.labelRepair withNodeLabels source target label = .dropUnknown ∧ label.hasUnknown = true ∨
      g.labelRepair withNodeLabels source target label = .keep ∨
      ∃ p, g.labelRepair withNodeLabels source target label = .reject p := by
  unfold Network.labelRepair
  split
  · rename_i unknown
    exact Or.inl ⟨rfl, unknown⟩
  · cases withNodeLabels with
    | false =>
      rw [if_neg Bool.false_ne_true]
      split
      · exact Or.inr (Or.inr ⟨_, rfl⟩)
      · exact Or.inr (Or.inl rfl)
    | true =>
      have ends : g.endpointLabel? source target label = some label := by
        rw [Network.endpointLabel?, unlabelled rfl, unlabelled rfl, Label.and?_empty,
          Option.bind_some, Label.and?_empty]
      rw [if_pos rfl, ends]
      dsimp only
      rcases closeLabel_of_unlabelled unlabelled label with closed | ⟨p, unobserved⟩
      · rw [closed]
        exact Or.inr (Or.inl (if_pos rfl))
      · rw [unobserved]
        exact Or.inr (Or.inr ⟨p, rfl⟩)

end closing

namespace WellDefined

open Preparation

variable {withNodeLabels : Bool} {d : Draft LabeledEdge}

theorem repairValue_retains (unlabelled : d.network.Unlabelled withNodeLabels) (e : EdgeId)
    (case : CaseLabel) (label : Label) (value : Value) :
    Ends (repairValue withNodeLabels e case label value) d
      (fun _ d' => d.network.Retains withNodeLabels d'.network) fun _ _ => True := by
  unfold repairValue
  rw [ends_bind, ends_network]
  cases d.network.slot? e with
  | none => exact .refl unlabelled
  | some slot =>
    dsimp only
    rcases labelRepair_of_unlabelled unlabelled slot.source slot.target label with
      ⟨drops, unknown⟩ | keeps | ⟨p, rejects⟩
    · rw [drops]
      dsimp only
      rw [ends_bind, ends_modifyNetwork, ends_noteFix]
      exact .of_erase unlabelled e case unknown
    · rw [keeps]
      exact .refl unlabelled
    · rw [rejects]
      exact trivial

theorem repairEdge_retains (unlabelled : d.network.Unlabelled withNodeLabels) (e : EdgeId) :
    Ends (repairEdge withNodeLabels e) d
      (fun _ d' => d.network.Retains withNodeLabels d'.network) fun _ _ => True := by
  unfold repairEdge
  rw [ends_bind, ends_network]
  cases d.network.edge? e with
  | none => exact .refl unlabelled
  | some edge =>
    exact ends_forM
      (fun _ (d' : Draft LabeledEdge) => d.network.Retains withNodeLabels d'.network)
      (fun (v : CaseLabel × Label × Value) _ _ retains =>
        (repairValue_retains retains.unlabelled e v.1 v.2.1 v.2.2).mono
          (fun _ _ next => retains.trans next) fun _ _ => id) _ _ (.refl unlabelled)

theorem ensureZ_retains (unlabelled : d.network.Unlabelled withNodeLabels)
    (wf : d.network.WellFormed) :
    Ends ensureZ d (fun _ d' => d.network.Retains withNodeLabels d'.network) fun _ _ => True := by
  unfold ensureZ
  rw [ends_bind, ends_network]
  split
  · exact .of_edges (unlabelled.of_nodes rfl) le_rfl fun _ _ => rfl
  · rw [ends_bind, ends_noteFix, ends_bind, ends_modifyNetwork, ends_bind, ends_modifyNetwork,
      ends_pure]
    dsimp only
    cases added : d.network.addNode (Node.named "Z") with
    | none => exact .of_edges (unlabelled.of_nodes rfl) le_rfl fun _ _ => rfl
    | some result =>
      obtain ⟨h, id⟩ := result
      have found := Network.findEdge?_addNode wf added
      have parts : h.slots = d.network.slots ∧ d.network.nodeCount ≤ h.nodeCount := by
        unfold Network.addNode at added
        split at added
        · cases added
        · cases added
          exact ⟨rfl, (Nat.le_succ _).trans_eq (Array.size_push _).symm⟩
      refine .of_edges ((unlabelled.addZ added).of_nodes rfl) parts.2 fun u v => ?_
      change (h.findEdge? u v).bind h.edge? = _
      have stored : h.edge? = d.network.edge? := by
        funext e
        rw [Network.edge?, Network.slot?, parts.1, Network.edge?, Network.slot?]
      rw [found, stored, Network.edgeBetween?]

theorem clearZLabel_retains (unlabelled : d.network.Unlabelled withNodeLabels) (z : NodeId) :
    Ends (clearZLabel z) d (fun _ d' => d.network.Retains withNodeLabels d'.network)
      fun _ _ => True := by
  unfold clearZLabel
  rw [ends_bind, ends_network]
  cases d.network.node? z with
  | none => exact trivial
  | some node =>
    dsimp only
    split
    · rw [ends_bind, ends_noteFix, ends_modifyNetwork]
      refine .of_edges (unlabelled.clear z) ?_ fun _ _ => rfl
      exact (by simp [Network.nodeCount, Network.modifyNode] : _ = _).le
    · exact .refl unlabelled

theorem closeNodeLabel_of_unlabelled (unlabelled : d.network.Unlabelled true) (n : NodeId) :
    Ends (closeNodeLabel n) d (fun _ d' => d' = d) fun _ _ => True := by
  unfold closeNodeLabel
  rw [ends_bind, ends_network]
  dsimp only
  rcases closeLabel_of_unlabelled unlabelled (d.network.nodeD n).label with
    closed | ⟨p, unobserved⟩
  · rw [closed]
    dsimp only
    rw [if_neg (not_not.mpr rfl)]
    exact rfl
  · rw [unobserved]
    exact trivial

theorem repairEdges_retains (unlabelled : d.network.Unlabelled withNodeLabels) (z : NodeId) :
    Ends (do
      (← network).edgeIds.forM (repairEdge withNodeLabels)
      return z) d (fun _ d' => d.network.Retains withNodeLabels d'.network) fun _ _ => True := by
  rw [ends_bind, ends_network]
  exact (ends_forM
    (fun _ (d' : Draft LabeledEdge) => d.network.Retains withNodeLabels d'.network)
    (fun e _ _ retains => (repairEdge_retains retains.unlabelled e).mono
      (fun _ _ next => retains.trans next) fun _ _ => id) _ _ (.refl unlabelled)).bind
    fun _ _ retains => retains

/-- Without node labels the preparation takes no value away that holds in a scenario. -/
theorem prepare_retains (unlabelled : d.network.Unlabelled withNodeLabels)
    (wf : d.network.WellFormed) :
    Ends (prepare withNodeLabels) d
      (fun _ d' => d.network.Retains withNodeLabels d'.network) fun _ _ => True := by
  unfold prepare
  refine (ensureZ_retains unlabelled wf).bind fun z d₁ first => ?_
  refine (clearZLabel_retains first.unlabelled z).bind fun _ d₂ second => ?_
  rw [ends_bind, ends_network]
  refine (failIf_ends d₂.network.duplicateObserver?).bind fun _ d₃ checked => ?_
  obtain ⟨rfl, _⟩ := checked
  have repaired := (repairEdges_retains second.unlabelled z).mono
    (fun _ _ third => (first.trans second).trans third) fun _ _ => id
  cases withNodeLabels with
  | false => exact repaired
  | true =>
    rw [if_pos rfl, ends_bind, ends_network]
    refine (ends_forM (fun _ (d' : Draft LabeledEdge) => d' = d₃)
      (fun n _ _ same => same ▸ closeNodeLabel_of_unlabelled second.unlabelled n) _ _ rfl).bind
      fun _ d₄ same => ?_
    subst same
    rw [ends_bind, ends_network]
    refine (failIf_ends _).bind fun _ d₅ checked => ?_
    obtain ⟨rfl, _⟩ := checked
    exact repaired

end WellDefined

namespace CstnChecker

variable {g : LabeledNetwork} {options : CheckerOptions} {rules : RuleSet} {stops : Polls}
  {c : CstnChecker} {status : CheckStatus} {s : Label} {withNodeLabels : Bool}
  {d : Draft LabeledEdge}

theorem prepare_retains (unlabelled : d.network.Unlabelled withNodeLabels)
    (wf : d.network.WellFormed) :
    Ends (prepare withNodeLabels) d
      (fun _ d' => d.network.Retains withNodeLabels d'.network) fun _ _ => True := by
  unfold prepare
  have repaired := (WellDefined.prepare_retains unlabelled wf).and
    (WellDefined.prepare_ends (I := Network.WellFormed) WellDefined.kept_wellFormed wf)
  refine (repaired.mono (fun _ _ => id) fun _ _ _ => trivial).bind ?_
  rintro z d₁ ⟨retains, wf₁, inside, _⟩
  rw [ends_bind, Preparation.ends_network]
  split
  · exact trivial
  · split
    · exact trivial
    · rename_i horizon known
      rw [ends_bind, Preparation.ends_modifyNetwork]
      have finite := (Network.horizon?_spec known).1.2
      exact retains.trans (.of_grows retains.unlabelled (Network.addBounds_spec wf₁ inside
        horizon.value (ne_of_lt finite) withNodeLabels).2.1)

/-- Without node labels a consistent verdict comes with times for every scenario that satisfy the
constraints of the network as it was given. -/
theorem exists_times_of_consistent (wf : g.WellFormed)
    (unlabelled : g.Unlabelled options.withNodeLabels)
    (enabled : Rule.labelPropagation ∈ rules)
    (checked : (ofNetwork g options rules).check stops = (c, .ok status))
    (consistent : status.outcome = .consistent) (complete : s.IsComplete) :
    ∃ t : NodeId → Int, (∀ n < g.nodeCount, 0 ≤ t n ∧ t n < Value.posInf) ∧
      ∀ u v x, u ≠ v → g.HoldsIn s u v x → t v ≤ t u + x := by
  obtain ⟨ctx, hz, closed, rfl, wf₀, grows, bounded⟩ :=
    closed_of_consistent wf enabled checked consistent
  obtain ⟨c₀, _, _, ready, _⟩ := propagation_of_check checked
  obtain ⟨_, _, d, run, initial⟩ := prepare_of_initialise ready
  have retains : g.Retains c.options.withNodeLabels c.network := by
    have prepared := (prepare_retains (d := ⟨g, []⟩) unlabelled wf).of_ok run
    rw [ready] at grows
    have network : c₀.network = d.network := by rw [initial]
    exact prepared.trans (.of_grows prepared.unlabelled (network ▸ grows))
  -- Each node gets the latest time that its bounds towards Z allow.
  have latest : ∀ n, ∃ e, n < g.nodeCount → Closed.Latest ctx c.network s n e := by
    intro n
    by_cases here : n = ctx.z
    · exact ⟨0, fun _ => Or.inl ⟨here, rfl⟩⟩
    by_cases inside : n < g.nodeCount
    · have occurs : (ofNetwork g c.options rules).initialise.1.network.Occurs
          c.options.withNodeLabels s n := by
        refine ⟨grows.nodeCount ▸ inside.trans_le retains.nodeCount_le, ?_⟩
        rw [← grows.boundLabel, retains.unlabelled.boundLabel]
        exact Label.subsumes_empty s
      have bounds := bounded s n here occurs
      obtain ⟨_, _, early⟩ := bounds.early
      obtain ⟨e, least⟩ := early.exists_isLeast
      exact ⟨e, fun _ => Or.inr ⟨here, bounds, least⟩⟩
    · exact ⟨0, fun within => absurd within inside⟩
  choose e latest using latest
  refine ⟨fun n => -e n, fun n inside => ?_, fun u v x apart holds => ?_⟩
  · have bounds := Closed.Latest.bounds closed complete (latest n inside)
    have finite := closed.finite
    exact ⟨by linarith, by linarith⟩
  · have inside : u < g.nodeCount ∧ v < g.nodeCount := by
      obtain ⟨_, _, joined, _⟩ := holds
      exact wf.lt_of_edgeBetween? joined
    obtain ⟨y, le, held⟩ := retains.holds s u v x complete holds
    have fits := closed.constraint complete apart (latest u inside.1) (latest v inside.2) held
    linarith

end CstnChecker

namespace CstnuChecker

variable {g h : LabeledNetwork} {options : CheckerOptions} {stops : Polls} {c : CstnuChecker}
  {status : CheckStatus}

theorem outcome_of_checkProjection {s : CheckStatus} (fresh : s.finished = false)
    (timely : s.timeout = false) (bounded : s.cycleBoundExceeded = false)
    (checked : checkProjection h options stops s = .ok status) :
    ∃ c status', (CstnChecker.ofNetwork h.allMaxProjection { options with onlyToZ := false }
      .full).check stops = (c, .ok status') ∧ status'.outcome = status.outcome := by
  unfold checkProjection at checked
  cases answered : (CstnChecker.ofNetwork h.allMaxProjection { options with onlyToZ := false }
    .full).check stops with
  | mk c answer =>
    dsimp only at checked
    rw [answered] at checked
    cases answer with
    | error e => cases checked
    | ok projected =>
      refine ⟨c, projected, rfl, ?_⟩
      dsimp only at checked
      cases projection : projected.outcome with
      | _ =>
        rw [projection] at checked
        cases checked
        simp [CheckStatus.addCounters, CheckStatus.setConsistent, CheckStatus.setInconsistent,
          CheckStatus.setTimeout, CheckStatus.setCycleBoundExceeded, CheckStatus.outcome, fresh,
          timely, bounded]

/-- A check that answers has initialised the checker. If its propagation ends with a fixpoint, the
answer is that of the projection; else it tells why the propagation has halted. -/
theorem propagation_of_check (checked : (ofNetwork g options).check stops = (c, .ok status)) :
    ∃ c₀ z horizon, (ofNetwork g options).initialise = (c₀, .ok ()) ∧ c₀.z = some z ∧
      c₀.horizon = some horizon ∧ c.links = c₀.links ∧
      Ends (Propagation.toFixpoint (c₀.context z horizon) stops
        (c₀.network.cycleBound horizon.maxWeight)) ⟨c₀.network, .zero, 0, 0⟩
        (fun _ p => ∃ c' status', (CstnChecker.ofNetwork p.network.allMaxProjection
          { options with onlyToZ := false } .full).check (fun k => stops (p.polls + k)) =
            (c', .ok status') ∧ status'.outcome = status.outcome)
        fun halt _ => status.outcome ≠ .consistent ∧
          (status.outcome = .inconsistent → ∃ loop, halt = .negativeLoop loop) := by
  unfold check at checked
  rw [if_neg (by simp [ofNetwork, Stage.isFinished])] at checked
  cases ready : (ofNetwork g options).initialise with
  | mk c₀ answer =>
    rw [ready] at checked
    cases answer with
    | error e => cases congrArg Prod.snd checked
    | ok _ =>
      obtain ⟨z, links, horizon, d, _, same⟩ := prepare_of_initialise ready
      have hz : c₀.z = some z := by rw [same]
      have hh : c₀.horizon = some horizon := by rw [same]
      have stage : c₀.stage = .initialised := by rw [same]
      have options' : c₀.options = options := by rw [same]
      have timely : c₀.status.timeout = false := by rw [same]; rfl
      have bounded : c₀.status.cycleBoundExceeded = false := by rw [same]; rfl
      have unfinished : c₀.status.finished = false := by rw [same]; rfl
      have fresh : (⟨c₀.network, .zero, 0, 0⟩ : Progress) =
          ⟨c₀.network, c₀.status.applied, c₀.status.cycles, 0⟩ := by rw [same]; rfl
      -- What is left of the check is the propagation, and what follows from its end.
      simp only [stage, hz, hh] at checked
      refine ⟨c₀, z, horizon, rfl, hz, hh, ?_⟩
      rw [fresh, Ends]
      cases run : (Propagation.toFixpoint (c₀.context z horizon) stops
          (c₀.network.cycleBound horizon.maxWeight)).run
            ⟨c₀.network, c₀.status.applied, c₀.status.cycles, 0⟩ with
      | ok a p =>
        rw [CheckStatus.propagate_of_ok run] at checked
        dsimp only at checked
        split at checked
        · rename_i answered
          cases checked
          rw [options'] at answered
          exact ⟨rfl, outcome_of_checkProjection (h := p.network)
            (s := { c₀.status with cycles := p.cycles, applied := p.applied }) unfinished timely
            bounded answered⟩
        · cases congrArg Prod.snd checked
      | error halt p =>
        rw [CheckStatus.propagate_of_error run] at checked
        dsimp only at checked
        split at checked
        · rename_i answered
          cases checked
          cases recorded : ({ c₀.status with cycles := p.cycles, applied := p.applied } :
              CheckStatus).recordHalt halt with
          | error e =>
            rw [recorded] at answered
            cases answered
          | ok t =>
            rw [recorded] at answered
            cases answered
            exact ⟨rfl, CheckStatus.outcome_recordHalt recorded timely bounded⟩
        · cases congrArg Prod.snd checked

/-- A consistent verdict is about a fixpoint whose network of maximal durations is consistent. -/
theorem fixpoint_of_consistent
    (checked : (ofNetwork g options).check stops = (c, .ok status))
    (consistent : status.outcome = .consistent) :
    ∃ c₀ z horizon p, (ofNetwork g options).initialise = (c₀, .ok ()) ∧ c₀.z = some z ∧
      c₀.horizon = some horizon ∧ c.links = c₀.links ∧
      (Propagation.toFixpoint (c₀.context z horizon) stops
        (c₀.network.cycleBound horizon.maxWeight)).run ⟨c₀.network, .zero, 0, 0⟩ = .ok () p ∧
      ∃ c' status', (CstnChecker.ofNetwork p.network.allMaxProjection
        { options with onlyToZ := false } .full).check (fun k => stops (p.polls + k)) =
          (c', .ok status') ∧ status'.outcome = .consistent := by
  obtain ⟨c₀, z, horizon, ready, hz, hh, links, ends⟩ := propagation_of_check checked
  cases run : (Propagation.toFixpoint (c₀.context z horizon) stops
      (c₀.network.cycleBound horizon.maxWeight)).run ⟨c₀.network, .zero, 0, 0⟩ with
  | ok a p => exact ⟨c₀, z, horizon, p, ready, hz, hh, links, run, consistent ▸ ends.of_ok run⟩
  | error halt p => exact absurd consistent (ends.of_error run).1

theorem exists_maximalTimes (wf : h.WellFormed) (unlabelled : h.Unlabelled options.withNodeLabels)
    {c : CstnChecker} (checked : (CstnChecker.ofNetwork h.allMaxProjection
      { options with onlyToZ := false } .full).check stops = (c, .ok status))
    (consistent : status.outcome = .consistent) {s : Label} (complete : s.IsComplete) :
    ∃ t : NodeId → Int, (∀ n < h.nodeCount, 0 ≤ t n ∧ t n < Value.posInf) ∧
      ∀ case u v x, u ≠ v → x ≠ Value.posInf → h.HoldsCase s case u v x → t v ≤ t u + x := by
  have unlabelled' : h.allMaxProjection.Unlabelled
      { options with onlyToZ := false }.withNodeLabels := unlabelled.of_nodes rfl
  obtain ⟨t, range, satisfied⟩ := CstnChecker.exists_times_of_consistent wf.allMaxProjection
    unlabelled' (by decide) checked consistent complete
  refine ⟨t, range, fun case u v x apart finite holds => ?_⟩
  obtain ⟨y, le, held⟩ := holds.allMaxProjection complete finite
  have := satisfied u v y apart held
  linarith

end CstnuChecker

end TemporalNetwork
