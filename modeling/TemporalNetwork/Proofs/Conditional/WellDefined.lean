import TemporalNetwork.Proofs.Conditional.Fitting
import TemporalNetwork.Proofs.Conditional.Preparation
import TemporalNetwork.Proofs.Values.Bound

/-!
What the repair of a network achieves. The labels of the nodes are closed one after the other, in
place; since each becomes its least closed extension, the closures before stay closed. The values of an
edge are repaired one after the other, too, and a repaired value may be joined with one that is still to
be repaired. The join fits if that one only lacked literals, but not if it is a contradiction.
-/

namespace TemporalNetwork

namespace Network

variable {g h : LabeledNetwork} {n m z : NodeId} {label c a : Label} {p : Proposition}

theorem labelRepair_of_nodes (same : h.nodes = g.nodes) : h.labelRepair = g.labelRepair := by
  cases g
  cases h
  cases same
  rfl

theorem observerLabel?_of_nodes (same : h.nodes = g.nodes) : h.observerLabel? = g.observerLabel? := by
  cases g
  cases h
  cases same
  rfl

theorem fits_of_nodes (same : h.nodes = g.nodes) (u v : NodeId) (label : Label) :
    h.Fits u v label ↔ g.Fits u v label := by
  rw [← labelRepair_eq_keep_iff, ← labelRepair_eq_keep_iff, labelRepair_of_nodes same]

theorem observerAmong?_relabel (g : LabeledNetwork) (n : NodeId) (label : Label) :
    observerAmong? (g.modifyNode n fun node => { node with label := label }).nodes =
      observerAmong? g.nodes := by
  funext p
  have same : (g.nodes.modify n fun node => { node with label := label }).map Node.observed =
      g.nodes.map Node.observed := by
    apply Array.ext
    · rw [Array.size_map, Array.size_map, Array.size_modify]
    · intro i hi hj
      rw [Array.getElem_map, Array.getElem_map, Array.getElem_modify]
      split <;> rfl
  have observers : ∀ nodes : Array Node, observerAmong? nodes p =
      (nodes.map Node.observed).findIdx? fun o => o == some p := by
    intro nodes
    rw [Array.findIdx?_map]
    rfl
  rw [observers, observers, modifyNode, same]

theorem label_relabel (g : LabeledNetwork) (n : NodeId) (label : Label) (m : NodeId) :
    ((g.modifyNode n fun node => { node with label := label }).nodeD m).label =
      if n = m ∧ m < g.nodeCount then label else (g.nodeD m).label := by
  rw [WellDefined.nodeD_modifyNode]
  split <;> rfl

theorem label_of_outside (outside : g.nodeCount ≤ n) : (g.nodeD n).label = .empty := by
  rw [nodeD, node?, Array.getElem?_eq_none outside]
  rfl

theorem knownNodes_of_forall_mem (each : ∀ node ∈ g.nodes, node.label.hasUnknown = false) :
    g.KnownNodes := by
  intro n
  rw [nodeD, node?]
  cases here : g.nodes[n]? with
  | none => rfl
  | some node => exact each node (Array.mem_of_getElem? here)

theorem observerLabel?_relabel {k : Label} (observer : g.observerLabel? p = some k) (n : NodeId)
    (label : Label) :
    ∃ k', (g.modifyNode n fun node => { node with label := label }).observerLabel? p = some k' ∧
      (k' = k ∨ k' = label ∧ k = (g.nodeD n).label) := by
  obtain ⟨m, first, rfl⟩ := Option.map_eq_some_iff.mp observer
  refine ⟨((g.modifyNode n fun node => { node with label := label }).nodeD m).label, ?_, ?_⟩
  · rw [observerLabel?, observerAmong?_relabel, first]
    rfl
  · rw [label_relabel]
    split
    · rename_i here
      exact Or.inr ⟨rfl, by rw [here.1]⟩
    · exact Or.inl rfl

/-- Closing the label of one node keeps all other labels closed: a closed label that has the literals
of the old label has those of its closure. -/
theorem isClosed_relabel (closed : a.IsClosed g.observerLabel?)
    (closes : closeLabel g.observerLabel? (g.nodeD n).label = .ok c) :
    a.IsClosed (g.modifyNode n fun node => { node with label := c }).observerLabel? := by
  intro p mentioned
  obtain ⟨k, observer, general⟩ := closed p mentioned
  obtain ⟨k', observer', rfl | ⟨rfl, rfl⟩⟩ := observerLabel?_relabel observer n c
  · exact ⟨k', observer', general⟩
  · exact ⟨k', observer', (closeLabel_spec closes).2.2 a general closed⟩

/-- Whether Z has the empty label, every node the literals of the observers of its propositions, and no
node a proposition that it observes itself. -/
structure WellDefinedNodes (g : LabeledNetwork) (z : NodeId) : Prop where
  origin : (g.nodeD z).label = .empty
  closed : ∀ n, (g.nodeD n).label.IsClosed g.observerLabel?
  own : ∀ n p, (g.nodeD n).observed = some p → (g.nodeD n).label.mentions p = false

theorem wellDefinedNodes_of_nodes (same : h.nodes = g.nodes) (nodes : g.WellDefinedNodes z) :
    h.WellDefinedNodes z := by
  cases g
  cases h
  cases same
  exact ⟨nodes.origin, nodes.closed, nodes.own⟩

/-- Whether the label of every value fits the ends of its edge. -/
def FittingValues (g : LabeledNetwork) : Prop :=
  ∀ e slot, g.slot? e = some slot →
    slot.payload.EveryValue fun _ label _ => g.Fits slot.source slot.target label

/-- Whether no value of `g` contradicts the node labels of `h` while a twin of its label fits them. -/
def Unopposed (g h : LabeledNetwork) : Prop :=
  ∀ e slot, g.slot? e = some slot → slot.payload.EveryValue fun _ label _ =>
    ∀ twin, label.Twins twin → h.Fits slot.source slot.target twin →
      h.labelRepair true slot.source slot.target label ≠ .dropContradictory

theorem selfDependentObserver?_eq_none_iff : g.selfDependentObserver? = none ↔
    ∀ n p, (g.nodeD n).observed = some p → (g.nodeD n).label.mentions p = false := by
  constructor
  · intro passed n p observes
    have inside := WellDefined.lt_of_observed observes
    have here := List.findSome?_eq_none_iff.mp passed n (List.mem_range.mpr inside)
    rw [observes, Option.bind_some] at here
    split at here
    · cases here
    · rename_i free
      exact Bool.eq_false_iff.mpr free
  · intro own
    refine List.findSome?_eq_none_iff.mpr fun n _ => ?_
    cases observed : (g.nodeD n).observed with
    | none => rfl
    | some p =>
      rw [Option.bind_some, own n p observed]
      rfl

theorem UniqueObservers.duplicateObserver? (unique : g.UniqueObservers) :
    g.duplicateObserver? = none := by
  refine List.findSome?_eq_none_iff.mpr fun n _ => ?_
  cases observed : (g.nodeD n).observed with
  | none => rfl
  | some p =>
    rw [Option.bind_some]
    cases first : observerAmong? g.nodes p with
    | none => rfl
    | some m =>
      obtain ⟨inside, here, _⟩ := Array.findIdx?_eq_some_iff_getElem.mp first
      have observes : (g.nodeD m).observed = some p := by
        rw [nodeD, node?, Array.getElem?_eq_getElem inside]
        exact beq_iff_eq.mp here
      rw [Option.bind_some, unique m n p observes observed, if_neg (lt_irrefl n)]

end Network

namespace WellDefined

open Preparation

variable {d : Draft LabeledEdge} {g : LabeledNetwork} {z : NodeId}

/-- While the node labels are being closed: the nodes still `todo` may have labels that are not closed.
The edges are those of `g`. -/
structure Closing (g : LabeledNetwork) (z : NodeId) (todo : List NodeId) (h : LabeledNetwork) :
    Prop where
  slots : h.slots = g.slots
  reference : h.z = some z
  known : g.KnownNodes → h.KnownNodes
  origin : (h.nodeD z).label = .empty
  closed : ∀ n, n ∉ todo → (h.nodeD n).label.IsClosed h.observerLabel?

theorem closeNodeLabel_closes {n : NodeId} {rest : List NodeId}
    (closing : Closing g z (n :: rest) d.network) :
    Ends (closeNodeLabel n) d (fun _ d' => Closing g z rest d'.network) fun _ _ => True := by
  unfold closeNodeLabel
  rw [ends_bind, ends_network]
  dsimp only
  split
  · exact trivial
  · exact trivial
  · rename_i c closes
    have isClosed := (closeLabel_spec closes).2.1
    split
    · rename_i changed
      rw [ends_bind, ends_noteFix, ends_modifyNetwork]
      refine ⟨closing.slots, closing.reference, fun known m => ?_, ?_, fun m later => ?_⟩
      · have knownNodes := closing.known known
        rw [Network.label_relabel]
        split
        · exact closeLabel_known knownNodes.observerLabel (knownNodes n) closes
        · exact knownNodes m
      · rw [Network.label_relabel]
        split
        · rename_i here
          rw [here.1, closing.origin, closeLabel_of_isClosed (Label.isClosed_empty _)] at closes
          cases closes
          rfl
        · exact closing.origin
      -- Another label stays closed since it has at least the literals that this one had.
      · refine Network.isClosed_relabel ?_ closes
        rw [Network.label_relabel]
        split
        · exact isClosed
        · rename_i elsewhere
          by_cases here : n = m
          · have outside : d.network.nodeCount ≤ m := not_lt.mp fun inside => elsewhere ⟨here, inside⟩
            rw [Network.label_of_outside outside]
            exact Label.isClosed_empty _
          · exact closing.closed m fun mem => by
              rcases List.mem_cons.mp mem with same | mem
              · exact here same.symm
              · exact later mem
    · rename_i same
      rw [not_not] at same
      subst same
      refine { closing with closed := fun m later => ?_ }
      by_cases here : n = m
      · exact here ▸ isClosed
      · exact closing.closed m fun mem => by
          rcases List.mem_cons.mp mem with same | mem
          · exact here same.symm
          · exact later mem

/-- The edges and nodes found by the repair of the edges: those still `todo` are as in `g`, and the
values of all others fit. -/
structure Repairing (g : LabeledNetwork) (todo : List EdgeId) (h : LabeledNetwork) : Prop where
  nodes : h.nodes = g.nodes
  reference : h.z = g.z
  lettered : h.Lettered
  edges : ∀ e slot, h.slot? e = some slot →
    (slot.payload.EveryValue fun _ label _ => g.Fits slot.source slot.target label) ∨
      e ∈ todo ∧ g.slot? e = some slot

/-- The edge `e` while its values are being repaired: those that do not fit are still to come. -/
structure RepairingEdge (g h₀ : LabeledNetwork) (e : EdgeId) (u v : NodeId)
    (rest : List (CaseLabel × Label × Value)) (h : LabeledNetwork) : Prop where
  nodes : h.nodes = g.nodes
  reference : h.z = g.z
  elsewhere : ∀ i, i ≠ e → h.slot? i = h₀.slot? i
  here : ∀ slot, h.slot? e = some slot → slot.source = u ∧ slot.target = v ∧
    slot.payload.upper.Lettered ∧
      slot.payload.EveryValue fun c label _ => g.Fits u v label ∨ ∃ w, (c, label, w) ∈ rest

/-- A value that fits may be joined with values that are still to be repaired. -/
theorem joins_repairing {u v : NodeId} {rest : List (CaseLabel × Label × Value)}
    (unopposed : ∀ x ∈ rest, ∀ twin, x.2.1.Twins twin → g.Fits u v twin → g.Fits u v x.2.1) :
    JoinsTwins (fun c label _ => g.Fits u v label ∨ ∃ w, (c, label, w) ∈ rest)
      fun _ label _ => g.Fits u v label where
  stored _ _ _ := Or.inl
  joined c label _ l _ merged flips twin := by
    refine merged.join flips (twin.elim id fun pending => ?_)
    obtain ⟨w, mem⟩ := pending
    exact unopposed _ mem label (Label.twins_iff.mpr ⟨l, flips, rfl⟩).symm merged

theorem repairValue_repairs {h₀ : LabeledNetwork} {e : EdgeId} {u v : NodeId}
    {x : CaseLabel × Label × Value} {rest : List (CaseLabel × Label × Value)}
    (known : g.KnownNodes)
    (unopposed : ∀ x ∈ rest, ∀ twin, x.2.1.Twins twin → g.Fits u v twin → g.Fits u v x.2.1)
    (repairing : RepairingEdge g h₀ e u v (x :: rest) d.network) :
    Ends (repairValue true e x.1 x.2.1 x.2.2) d
      (fun _ d' => RepairingEdge g h₀ e u v rest d'.network) fun _ _ => True := by
  obtain ⟨case, label, value⟩ := x
  unfold repairValue
  rw [ends_bind, ends_network]
  cases stored : d.network.slot? e with
  | none =>
    exact ⟨repairing.nodes, repairing.reference, repairing.elsewhere, fun slot here => by
      rw [stored] at here
      cases here⟩
  | some slot =>
    obtain ⟨source, target, lettered, every⟩ := repairing.here slot stored
    dsimp only
    rw [source, target, Network.labelRepair_of_nodes repairing.nodes]
    -- Once the value is removed, what does not fit is still to come.
    have removed : (slot.payload.erase case label).EveryValue fun c l _ =>
        g.Fits u v l ∨ ∃ w, (c, l, w) ∈ rest := by
      refine (every.erase lettered case label).mono ?_
      rintro c l _ ⟨fits | ⟨w, mem⟩, other⟩
      · exact Or.inl fits
      · rcases List.mem_cons.mp mem with same | mem
        · cases same
          exact absurd ⟨rfl, rfl⟩ other
        · exact Or.inr ⟨w, mem⟩
    have edited : ∀ f : LabeledEdge → LabeledEdge, (f slot.payload).upper.Lettered →
        ((f slot.payload).EveryValue fun c l _ => g.Fits u v l ∨ ∃ w, (c, l, w) ∈ rest) →
        RepairingEdge g h₀ e u v rest (d.network.modifyEdge e f) := by
      intro f letters fits
      refine ⟨repairing.nodes, repairing.reference, fun i other => ?_, fun slot' here => ?_⟩
      · rw [Network.slot?_modifyEdge, if_neg fun same => other same.symm]
        exact repairing.elsewhere i other
      · rw [Network.slot?_modifyEdge, if_pos rfl, stored] at here
        cases here
        exact ⟨source, target, letters, fits⟩
    have letters := LabeledEdge.lettered_erase lettered case label
    split
    · rename_i keeps
      have fits := Network.labelRepair_eq_keep_iff.mp keeps
      refine ⟨repairing.nodes, repairing.reference, repairing.elsewhere, fun slot' here => ?_⟩
      rw [stored] at here
      cases here
      refine ⟨source, target, lettered, every.mono ?_⟩
      rintro c l _ (fits' | ⟨w, mem⟩)
      · exact Or.inl fits'
      · rcases List.mem_cons.mp mem with same | mem
        · cases same
          exact Or.inl fits
        · exact Or.inr ⟨w, mem⟩
    · exact trivial
    · rw [ends_bind, ends_modifyNetwork, ends_noteFix]
      exact edited (fun edge => edge.erase case label) letters removed
    · rw [ends_bind, ends_modifyNetwork, ends_noteFix]
      exact edited (fun edge => edge.erase case label) letters removed
    · rename_i required relabels
      rw [ends_bind, ends_modifyNetwork, ends_noteFix]
      have fits := Network.fits_of_relabel known relabels
      exact edited (fun edge => ((edge.erase case label).merge case required value).1)
        (LabeledEdge.lettered_merge letters case required value) (removed.merge_twins
          (joins_repairing unopposed) fits)

/-- What the repair of the edges asks of a network in order to succeed. -/
structure Repairable (g : LabeledNetwork) : Prop where
  known : g.KnownNodes
  lettered : g.Lettered
  agree : ∀ e slot, g.slot? e = some slot → slot.payload.EveryValue fun _ label _ =>
    ∀ twin, label.Twins twin → g.Fits slot.source slot.target twin →
      g.Fits slot.source slot.target label

theorem repairEdge_repairs (repairable : Repairable g) {e : EdgeId} {todo : List EdgeId}
    (repairing : Repairing g (e :: todo) d.network) :
    Ends (repairEdge true e) d (fun _ d' => Repairing g todo d'.network) fun _ _ => True := by
  unfold repairEdge
  rw [ends_bind, ends_network]
  cases stored : d.network.slot? e with
  | none =>
    rw [Network.edge?, stored]
    refine { repairing with edges := fun i slot here => ?_ }
    rcases repairing.edges i slot here with fits | ⟨mem, same⟩
    · exact Or.inl fits
    · rcases List.mem_cons.mp mem with rfl | mem
      · rw [stored] at here
        cases here
      · exact Or.inr ⟨mem, same⟩
  | some slot =>
    rw [Network.edge?, stored]
    -- If the edge has been reached before, all of its values fit; otherwise it has the values it was
    -- given.
    have agree : ∀ x ∈ slot.payload.allValues, ∀ twin, x.2.1.Twins twin →
        g.Fits slot.source slot.target twin → g.Fits slot.source slot.target x.2.1 := by
      intro x mem twin twins fits
      rcases repairing.edges e slot stored with all | ⟨_, same⟩
      · exact all _ _ _ mem
      · exact repairable.agree e slot same _ _ _ mem twin twins fits
    refine (ends_forM (fun rest (d' : Draft LabeledEdge) =>
      (∀ x ∈ rest, x ∈ slot.payload.allValues) ∧
        RepairingEdge g d.network e slot.source slot.target rest d'.network) ?_ _ d
      ⟨fun _ => id, repairing.nodes, repairing.reference, fun _ _ => rfl, ?_⟩).mono ?_ fun _ _ => id
    · rintro x rest d' ⟨listed, repairing'⟩
      have later : ∀ y ∈ rest, y ∈ slot.payload.allValues := fun y mem =>
        listed y (List.mem_cons_of_mem x mem)
      refine (repairValue_repairs repairable.known (fun y mem => agree y (later y mem))
        repairing').mono (fun _ _ next => ⟨later, next⟩) fun _ _ => id
    · intro slot' here
      rw [stored] at here
      cases here
      exact ⟨rfl, rfl, repairing.lettered e slot stored, fun c l w mem => Or.inr ⟨w, mem⟩⟩
    · rintro _ d' ⟨_, repaired⟩
      refine ⟨repaired.nodes, repaired.reference, fun i slot' here => ?_, fun i slot' here => ?_⟩
      · by_cases same : i = e
        · exact (repaired.here slot' (same ▸ here)).2.2.1
        · rw [repaired.elsewhere i same] at here
          exact repairing.lettered i slot' here
      · by_cases same : i = e
        · obtain ⟨source, target, _, every⟩ := repaired.here slot' (same ▸ here)
          refine Or.inl (every.mono ?_)
          rintro c l _ (fits | ⟨w, mem⟩)
          · rwa [source, target]
          · cases mem
        · rw [repaired.elsewhere i same] at here
          rcases repairing.edges i slot' here with fits | ⟨mem, unaltered⟩
          · exact Or.inl fits
          · exact Or.inr ⟨(List.mem_cons.mp mem).resolve_left same, unaltered⟩

theorem repairValue_nodes (e : EdgeId) (case : CaseLabel) (label : Label) (value : Value) :
    Ends (repairValue true e case label value) d (fun _ d' =>
      d'.network.nodes = d.network.nodes ∧ d'.network.z = d.network.z) fun _ _ => True := by
  unfold repairValue
  rw [ends_bind, ends_network]
  split
  · exact ⟨rfl, rfl⟩
  · split
    · exact ⟨rfl, rfl⟩
    · exact trivial
    all_goals exact ⟨rfl, rfl⟩

theorem repairEdge_nodes (e : EdgeId) :
    Ends (repairEdge true e) d (fun _ d' =>
      d'.network.nodes = d.network.nodes ∧ d'.network.z = d.network.z) fun _ _ => True := by
  unfold repairEdge
  rw [ends_bind, ends_network]
  split
  · exact ⟨rfl, rfl⟩
  · exact ends_forM (fun _ (d' : Draft LabeledEdge) => d'.network.nodes = d.network.nodes ∧
      d'.network.z = d.network.z)
      (fun (x : CaseLabel × Label × Value) _ _ same => (repairValue_nodes e x.1 x.2.1 x.2.2).mono
        (fun _ _ next => ⟨next.1.trans same.1, next.2.trans same.2⟩) fun _ _ => id) _ _ ⟨rfl, rfl⟩

theorem repairEdges_repairs (z : NodeId) :
    Ends (do
      (← network).edgeIds.forM (repairEdge true)
      return z) d (fun z' d' => z' = z ∧ d'.network.nodes = d.network.nodes ∧
        d'.network.z = d.network.z ∧ (Repairable d.network → d'.network.FittingValues))
      fun _ _ => True := by
  rw [ends_bind, ends_network]
  refine (ends_forM (fun todo (d' : Draft LabeledEdge) => d'.network.nodes = d.network.nodes ∧
    d'.network.z = d.network.z ∧ (Repairable d.network → Repairing d.network todo d'.network))
    ?_ _ d ⟨rfl, rfl, fun repairable => ?_⟩).bind ?_
  · rintro e todo d' ⟨nodes, reference, repairing⟩
    by_cases repairable : Repairable d.network
    · refine ((repairEdge_nodes e).and (repairEdge_repairs repairable (repairing repairable))).mono
        (fun _ d'' done => ?_) fun _ _ => fun _ => trivial
      exact ⟨done.1.1.trans nodes, done.1.2.trans reference, fun _ => done.2⟩
    · refine (repairEdge_nodes e).mono (fun _ d'' done => ?_) fun _ _ => id
      exact ⟨done.1.trans nodes, done.2.trans reference, fun holds => absurd holds repairable⟩
  · refine ⟨rfl, rfl, repairable.lettered, fun e slot stored => Or.inr ⟨?_, stored⟩⟩
    rw [Network.mem_edgeIds, stored]
    rfl
  · rintro _ d' ⟨nodes, reference, repaired⟩
    refine ⟨rfl, nodes, reference, fun repairable e slot stored => ?_⟩
    rcases (repaired repairable).edges e slot stored with fits | ⟨mem, _⟩
    · exact fits.mono fun _ l _ => (Network.fits_of_nodes nodes _ _ l).mpr
    · cases mem

theorem ensureZ_starts :
    Ends ensureZ d (fun z d' => d'.network.z = some z ∧ d'.network.slots = d.network.slots ∧
      (d.network.KnownNodes → d'.network.KnownNodes)) fun _ _ => True := by
  unfold ensureZ
  rw [ends_bind, ends_network]
  split
  · exact ⟨rfl, rfl, id⟩
  · rw [ends_bind, ends_noteFix, ends_bind, ends_modifyNetwork, ends_bind, ends_modifyNetwork,
      ends_pure]
    dsimp only
    cases added : d.network.addNode (Node.named "Z") with
    | none => exact ⟨rfl, rfl, id⟩
    | some result =>
      unfold Network.addNode at added
      split at added
      · cases added
      · cases added
        refine ⟨rfl, rfl, fun known n => ?_⟩
        have here := known n
        rw [Network.nodeD, Network.node?] at here
        simp only [Option.map_some, Option.getD_some, Network.setZ, Network.nodeD, Network.node?,
          Array.getElem?_push]
        split
        · rfl
        · exact here

theorem clearZLabel_starts (z : NodeId) :
    Ends (clearZLabel z) d (fun _ d' => d'.network.z = d.network.z ∧
      d'.network.slots = d.network.slots ∧ (d.network.KnownNodes → d'.network.KnownNodes) ∧
      (d'.network.nodeD z).label = .empty) fun _ _ => True := by
  unfold clearZLabel
  rw [ends_bind, ends_network]
  cases here : d.network.node? z with
  | none => exact trivial
  | some node =>
    dsimp only
    split
    · rw [ends_bind, ends_noteFix, ends_modifyNetwork]
      have inside : z < d.network.nodeCount := by
        by_contra outside
        rw [Network.node?, Array.getElem?_eq_none (not_lt.mp outside)] at here
        cases here
      refine ⟨rfl, rfl, fun known n => ?_, ?_⟩
      · rw [Network.label_relabel]
        split
        · rfl
        · exact known n
      · rw [Network.label_relabel, if_pos ⟨rfl, inside⟩]
    · rename_i labelless
      refine ⟨rfl, rfl, id, ?_⟩
      rw [Network.nodeD, here, Option.getD_some]
      simpa [Label.isEmpty_iff] using labelless

/-- What the repair of a network achieves: the nodes are well-defined, and so are the values unless a
contradicting one could be joined with a twin that fits. -/
theorem prepare_repairs (lettered : d.network.Lettered) :
    Ends (prepare true) d (fun z d' => d'.network.z = some z ∧ d'.network.WellDefinedNodes z ∧
      (d.network.KnownNodes → d.network.Unopposed d'.network → d'.network.FittingValues))
      fun _ _ => True := by
  unfold prepare
  refine ensureZ_starts.bind fun z d₁ started => ?_
  obtain ⟨set, slots₁, known₁⟩ := started
  refine (clearZLabel_starts z).bind fun _ d₂ cleared => ?_
  obtain ⟨set₂, slots₂, known₂, origin⟩ := cleared
  rw [ends_bind, ends_network]
  refine (failIf_ends _).bind fun _ d₃ checked => ?_
  obtain ⟨rfl, _⟩ := checked
  rw [if_pos rfl, ends_bind, ends_network]
  have start : Closing d.network z d₃.network.nodeIds d₃.network := by
    refine ⟨slots₂.trans slots₁, set₂.trans set, fun known => known₂ (known₁ known), origin,
      fun n outside => ?_⟩
    rw [Network.label_of_outside (not_lt.mp fun inside => outside (List.mem_range.mpr inside))]
    exact Label.isClosed_empty _
  refine (ends_forM (fun todo (d' : Draft LabeledEdge) => Closing d.network z todo d'.network)
    (fun n rest _ closing => closeNodeLabel_closes closing) _ _ start).bind fun _ d₄ closing => ?_
  rw [ends_bind, ends_network]
  refine (failIf_ends _).bind fun _ d₅ checked => ?_
  obtain ⟨rfl, passed⟩ := checked
  have nodes : d₅.network.WellDefinedNodes z := ⟨closing.origin,
    fun n => closing.closed n List.not_mem_nil, Network.selfDependentObserver?_eq_none_iff.mp passed⟩
  refine (repairEdges_repairs z).mono ?_ fun _ _ => id
  rintro _ d' ⟨rfl, same, reference, fits⟩
  refine ⟨reference.trans closing.reference, Network.wellDefinedNodes_of_nodes same nodes,
    fun known unopposed => fits ⟨closing.known known, ?_, ?_⟩⟩
  · intro e slot stored
    rw [Network.slot?, closing.slots] at stored
    exact lettered e slot stored
  · intro e slot stored c l w mem twin twins twinFits
    rw [Network.slot?, closing.slots] at stored
    -- A twin that fits either fits together with the value, or contradicts what the value needs.
    have notContradictory := unopposed e slot stored c l w mem twin twins
      ((Network.fits_of_nodes same _ _ twin).mpr twinFits)
    rw [Network.labelRepair_of_nodes same] at notContradictory
    obtain ⟨x, flips, rfl⟩ := Label.twins_iff.mp twins.symm
    exact (twinFits.twin flips).resolve_right notContradictory

theorem repairEdge_idle {withNodeLabels : Bool} (keeps : ∀ e slot, d.network.slot? e = some slot →
    slot.payload.EveryValue fun _ label _ =>
      d.network.labelRepair withNodeLabels slot.source slot.target label = .keep) (e : EdgeId) :
    Ends (repairEdge withNodeLabels e) d (fun _ d' => d' = d) fun _ _ => False := by
  unfold repairEdge
  rw [ends_bind, ends_network]
  cases stored : d.network.slot? e with
  | none =>
    rw [Network.edge?, stored]
    exact rfl
  | some slot =>
    rw [Network.edge?, stored]
    refine (ends_forM (fun rest d' => d' = d ∧ ∀ x ∈ rest, x ∈ slot.payload.allValues) ?_ _ d
      ⟨rfl, fun _ => id⟩).mono (fun _ _ done => done.1) fun _ _ => id
    rintro ⟨c, l, w⟩ rest d' ⟨rfl, listed⟩
    unfold repairValue
    rw [ends_bind, ends_network, stored]
    dsimp only
    rw [keeps e slot stored c l w (listed _ List.mem_cons_self)]
    exact ⟨rfl, fun x mem => listed x (List.mem_cons_of_mem _ mem)⟩

theorem ensureZ_idle (reference : d.network.z = some z) :
    Ends ensureZ d (fun z' d' => z' = z ∧ d' = d) fun _ _ => False := by
  obtain ⟨g, fixes⟩ := d
  obtain ⟨nodes, adjacency, slots, free, reference', activations⟩ := g
  dsimp only at reference
  subst reference
  exact ⟨rfl, rfl⟩

theorem clearZLabel_idle (inside : z < d.network.nodeCount)
    (origin : (d.network.nodeD z).label = .empty) :
    Ends (clearZLabel z) d (fun _ d' => d' = d) fun _ _ => False := by
  have present : d.network.node? z = some (d.network.nodeD z) := by
    rw [Network.nodeD, Network.node?, Array.getElem?_eq_getElem inside]
    rfl
  unfold clearZLabel
  rw [ends_bind, ends_network, present]
  dsimp only
  rw [origin]
  exact rfl

theorem closeNodeLabel_idle {n : NodeId}
    (closed : (d.network.nodeD n).label.IsClosed d.network.observerLabel?) :
    Ends (closeNodeLabel n) d (fun _ d' => d' = d) fun _ _ => False := by
  unfold closeNodeLabel
  rw [ends_bind, ends_network]
  dsimp only
  rw [closeLabel_of_isClosed closed]
  dsimp only
  rw [if_neg (not_not.mpr rfl)]
  exact rfl

theorem failIf_idle {e : Option StructuralError} (none : e = none) :
    Ends (failIf e) d (fun _ d' => d' = d) fun _ _ => False := by
  subst none
  exact rfl

/-- A network that needs no repair is left as it is. -/
theorem prepare_idle {withNodeLabels : Bool} (reference : d.network.z = some z)
    (inside : z < d.network.nodeCount) (unique : d.network.UniqueObservers)
    (origin : (d.network.nodeD z).label = .empty)
    (nodes : withNodeLabels = true → d.network.WellDefinedNodes z)
    (keeps : ∀ e slot, d.network.slot? e = some slot → slot.payload.EveryValue fun _ label _ =>
      d.network.labelRepair withNodeLabels slot.source slot.target label = .keep) :
    (prepare withNodeLabels).run d = .ok z d := by
  -- The same edges are gone through with node labels and without.
  have repairs : Ends (do
      (← network).edgeIds.forM (repairEdge withNodeLabels)
      return z) d (fun z' d' => z' = z ∧ d' = d) fun _ _ => False := by
    rw [ends_bind, ends_network]
    refine (ends_forM (fun _ (d' : Draft LabeledEdge) => d' = d) (fun e _ d' same => ?_) _ _
      rfl).bind fun _ _ same => ⟨rfl, same⟩
    subst same
    exact repairEdge_idle keeps e
  apply run_eq_of_ends
  unfold prepare
  refine (ensureZ_idle reference).bind fun z' d₁ same => ?_
  obtain ⟨rfl, rfl⟩ := same
  refine (clearZLabel_idle inside origin).bind fun _ d₂ same => ?_
  subst same
  rw [ends_bind, ends_network]
  refine (failIf_idle unique.duplicateObserver?).bind fun _ d₃ same => ?_
  subst same
  cases withNodeLabels with
  | false => exact repairs
  | true =>
    rw [if_pos rfl, ends_bind, ends_network]
    refine (ends_forM (fun _ (d' : Draft LabeledEdge) => d' = d₃) (fun n _ d' same => ?_) _ _
      rfl).bind fun _ d₄ same => ?_
    · subst same
      exact closeNodeLabel_idle ((nodes rfl).closed n)
    subst same
    rw [ends_bind, ends_network]
    refine (failIf_idle (Network.selfDependentObserver?_eq_none_iff.mpr (nodes rfl).own)).bind
      fun _ d₅ same => ?_
    subst same
    exact repairs

/-- A successful preparation leaves well-defined nodes. If moreover no node label has an unknown
literal, and no value contradicts what it needs while a twin of its label fits, then the label of every
value fits the ends of its edge, and preparing the network again changes nothing. -/
theorem wellDefined_of_prepare {d d' : Draft LabeledEdge} {z : NodeId}
    (lettered : d.network.Lettered) (prepared : (prepare true).run d = .ok z d') :
    d'.network.WellDefinedNodes z ∧
      (d.network.KnownNodes → d.network.Unopposed d'.network →
        d'.network.FittingValues ∧ (prepare true).run d' = .ok z d') := by
  have always : Kept true fun _ => True := by constructor <;> intros <;> trivial
  obtain ⟨reference, nodes, fits⟩ := (prepare_repairs lettered).of_ok prepared
  obtain ⟨_, inside, unique, _⟩ := (prepare_ends always trivial).of_ok prepared
  refine ⟨nodes, fun known unopposed => ?_⟩
  have fitting := fits known unopposed
  exact ⟨fitting, prepare_idle reference inside unique nodes.origin (fun _ => nodes)
    fun e slot stored c l w mem => Network.labelRepair_eq_keep_iff.mpr (fitting e slot stored c l w mem)⟩

/-- A node that occurs in the scenarios of `a` only, and a time after it, given by two values. -/
def conditionalNetwork (state : LiteralState) : LabeledNetwork :=
  (Network.build
    [.named "Z", { Node.named "P" with observed := some (.last 31) },
      { Node.named "X" with label := .ofLiteral ⟨.last 31, .straight⟩ }, .named "Y"]
    [("later", 2, 3, ((LabeledEdge.ofKind .ordinary).mergeAll
      [(.empty, .empty, 3), (.empty, .ofLiteral ⟨.last 31, state⟩, 2)]))]).getD .empty

/-- The value `3` gets the label of X, which the value `2` has already. -/
theorem wellDefined_of_prepare_conditional :
    ∃ z d', (prepare true).run ⟨conditionalNetwork .straight, []⟩ = .ok z d' ∧
      d'.network.WellDefinedNodes z ∧ d'.network.FittingValues ∧
      (prepare true).run d' = .ok z d' := by
  have lettered : (conditionalNetwork .straight).Lettered := by
    intro e slot stored c m mem
    have none : ∀ s ∈ (conditionalNetwork .straight).slots.toList, ∀ t,
        s = some t → t.payload.upper.groups = [] := by
      decide +kernel
    rw [none _ (Network.mem_slots stored) slot rfl] at mem
    cases mem
  have known : (conditionalNetwork .straight).KnownNodes :=
    Network.knownNodes_of_forall_mem (by decide +kernel)
  have agree : (match (prepare true).run ⟨conditionalNetwork .straight, []⟩ with
      | .ok _ d' => (conditionalNetwork .straight).slots.toList.all fun s =>
          s.all fun slot => slot.payload.allValues.all fun x => decide
            (d'.network.labelRepair true slot.source slot.target x.2.1 ≠ .dropContradictory)
      | .error .. => false) = true := by
    decide +kernel
  cases run : (prepare true).run ⟨conditionalNetwork .straight, []⟩ with
  | error e d' =>
    rw [run] at agree
    cases agree
  | ok z d' =>
    rw [run] at agree
    have unopposed : (conditionalNetwork .straight).Unopposed d'.network := by
      intro e slot stored c l w mem twin _ _
      have here := List.all_eq_true.mp agree _ (Network.mem_slots stored)
      exact of_decide_eq_true (List.all_eq_true.mp here (c, l, w) mem)
    obtain ⟨nodes, values⟩ := wellDefined_of_prepare lettered run
    obtain ⟨fits, again⟩ := values known unopposed
    exact ⟨z, d', rfl, nodes, fits, again⟩

/-- With the value `2` in the scenarios of `¬a` the preparation leaves a value without the label of X:
the value `3` gets that label, and is joined with its twin before that one is removed. -/
example :
    (match (prepare true).run ⟨conditionalNetwork .negated, []⟩ with
      | .ok _ d' => (d'.network.edge? 0).map LabeledEdge.allValues
      | .error .. => none) = some [(.empty, .empty, 3)] := by
  decide +kernel

end WellDefined

end TemporalNetwork
