import TemporalNetwork.Proofs.Conditional.Merging
import TemporalNetwork.Proofs.Network.Edits
import TemporalNetwork.Proofs.Network.Observations

/-!
What a network remembers is what it would find. A change forgets the answers that it could affect, unless
it is known not to: names are no part of an answer, and the values of an edge are changed behind its back,
which is right as long as its kind stays. So after any changes and questions what is remembered is right,
and what has been asked makes no difference to the network.
-/

namespace TemporalNetwork

variable {E : Type} {g h : Network E} {n : NodeId}

/-- The list has the contingent edges and is in increasing order. -/
structure Network.ListsContingent [EdgePayload E] (g : Network E) (es : List EdgeId) : Prop where
  increasing : es.Pairwise (· < ·)
  mem_iff : ∀ e, e ∈ es ↔
    ∃ slot, g.slot? e = some slot ∧ EdgePayload.kind slot.payload = .contingent

namespace Network

theorem listsContingent_contingentEdges [EdgePayload E] (g : Network E) :
    g.ListsContingent g.contingentEdges where
  increasing := (List.pairwise_lt_range.filter _).filter _
  mem_iff e := by
    simp only [contingentEdges, List.mem_filter, mem_edgeIds, edge?, Option.any_eq_true,
      Option.map_eq_some_iff, beq_iff_eq, Option.isSome_iff_exists]
    constructor
    · rintro ⟨_, _, ⟨slot, stored, rfl⟩, kind⟩
      exact ⟨slot, stored, kind⟩
    · rintro ⟨slot, stored, kind⟩
      exact ⟨⟨slot, stored⟩, _, ⟨slot, stored, rfl⟩, kind⟩

/-- Whether the edges are of the same kinds. -/
def SameKinds [EdgePayload E] (g h : Network E) : Prop :=
  ∀ e, (h.slot? e).map (fun slot => EdgePayload.kind slot.payload) =
    (g.slot? e).map fun slot => EdgePayload.kind slot.payload

theorem SameKinds.listsContingent [EdgePayload E] {es : List EdgeId} (same : g.SameKinds h)
    (l : g.ListsContingent es) : h.ListsContingent es where
  increasing := l.increasing
  mem_iff e := by
    have view : ∀ g : Network E,
        (∃ slot, g.slot? e = some slot ∧ EdgePayload.kind slot.payload = .contingent) ↔
          (g.slot? e).map (fun slot => EdgePayload.kind slot.payload) = some .contingent := by
      simp
    rw [l.mem_iff, view, view, same e]

end Network

namespace Edit

/-- The edit of a network that remembers answers. -/
def remember [EdgePayload E] (m : MemoNetwork E) : Edit E → Except Fault (MemoNetwork E)
  | addNode n => .ok ((m.addNode n).elim m Prod.fst)
  | modifyNode n f => .ok (m.modifyNode n f)
  | renameNode n name => (m.renameNode n name).map Prod.fst
  | removeNode n => .ok ((m.removeNode n).elim m Prod.fst)
  | addEdge name payload source target => .ok ((m.addEdge name payload source target).elim m Prod.fst)
  | addEdgeBetween name payload source target =>
    .ok ((m.addEdgeBetween name payload source target).elim m Prod.fst)
  | edgeOrInsert source target payload => (m.edgeOrInsert source target payload).map Prod.fst
  | modifyEdge e f => .ok (m.modifyEdge e f)
  | renameEdge e name => .ok (m.renameEdge e name).1
  | removeEdge e => .ok (m.removeEdge e).1
  | reverse => .ok m.reverse
  | setZ z => .ok (m.setZ z)
  | setActivation contingent activation => .ok (m.setActivation contingent activation)

end Edit

/-- A change of the values of an edge, which leaves its kind as it is. -/
structure ValueChange (E : Type) [EdgePayload E] where
  change : E → E
  kind_change : ∀ payload, EdgePayload.kind (change payload) = EdgePayload.kind payload

namespace ValueChange

def tighten (value : Value) : ValueChange PlainEdge where
  change edge := (edge.tighten value).1
  kind_change edge := by
    show (edge.tighten value).1.kind = edge.kind
    unfold PlainEdge.tighten
    split <;> rfl

def merge (case : CaseLabel) (label : Label) (value : Value) : ValueChange LabeledEdge where
  change edge := (edge.merge case label value).1
  kind_change edge := (edge.growsTo_merge case label value).kind

def dropUnknown : ValueChange LabeledEdge where
  change := LabeledEdge.dropUnknown
  kind_change _ := rfl

end ValueChange

/-- A change to a network, or a question to it. -/
inductive Request (E : Type) [EdgePayload E] where
  | edit (edit : Edit E)
  | modifyValues (e : EdgeId) (values : ValueChange E)
  | observer (p : Proposition)
  | propositions
  | children (p : Proposition)
  | contingentEdges

namespace Request

variable [EdgePayload E]

/-- The network after a request, with what it remembers then. -/
def perform (m : MemoNetwork E) : Request E → Except Fault (MemoNetwork E)
  | edit change => change.remember m
  | modifyValues e values => .ok (m.modifyValues e values.change)
  | observer p => .ok (m.observer? p).1
  | propositions => .ok m.propositions.1
  | children p => .ok (m.childrenOf p).1
  | contingentEdges => .ok m.contingentEdges.1

/-- What a request changes. -/
def edit? : Request E → Option (Edit E)
  | edit change => some change
  | modifyValues e values => some (.modifyEdge e values.change)
  | _ => none

end Request

namespace MemoNetwork

theorem addEdge_eq (m : MemoNetwork E) (name : String) (payload : E) (source target : String) :
    m.addEdge name payload source target = (m.network.findNode? source).bind fun u =>
      (m.network.findNode? target).bind fun v => m.addEdgeBetween name payload u v := by
  unfold MemoNetwork.addEdge Network.addEdge
  cases m.network.findNode? source with
  | none => rfl
  | some u => cases m.network.findNode? target <;> rfl

theorem network_observations (m : MemoNetwork E) : m.observations.1.network = m.network := by
  unfold MemoNetwork.observations
  split <;> rfl

variable [EdgePayload E] {m m' : MemoNetwork E}

def run (m : MemoNetwork E) (requests : List (Request E)) : Except Fault (MemoNetwork E) :=
  requests.foldlM (fun m request => request.perform m) m

/-- What is remembered is right. -/
structure Fresh (m : MemoNetwork E) : Prop where
  observations : ∀ i, m.observations? = some i → i.Describes m.network
  contingentEdges : ∀ es, m.contingentEdges? = some es → m.network.ListsContingent es

/-- The network answers as the definitions say. -/
structure Answers (m : MemoNetwork E) : Prop where
  observer?_iff : ∀ p n, (m.observer? p).2 = some n ↔ m.network.IsObserver n p
  contains_propositions : ∀ p, m.propositions.2.contains p = true ↔ ∃ n, m.network.Observes n p
  contains_children : ∀ p q, (m.childrenOf p).2.contains q = true ↔
    q ≠ p ∧ ∃ n, m.network.IsObserver n q ∧ m.network.LabelMentions n p
  contingentEdges : m.network.ListsContingent m.contingentEdges.2

theorem fresh_empty : (empty : MemoNetwork E).Fresh := ⟨nofun, nofun⟩

namespace Fresh

/-- A change has to forget what it does not keep. -/
theorem of_change (fresh : m.Fresh)
    (nodes : m'.observations? = none ∨
      m'.observations? = m.observations? ∧ m.network.SameObservations m'.network)
    (edges : m'.contingentEdges? = none ∨
      m'.contingentEdges? = m.contingentEdges? ∧ m.network.SameKinds m'.network) : m'.Fresh where
  observations i remembered := by
    rcases nodes with forgotten | ⟨kept, same⟩
    · rw [forgotten] at remembered
      cases remembered
    · exact same.describes (fresh.observations i (kept ▸ remembered))
  contingentEdges es remembered := by
    rcases edges with forgotten | ⟨kept, same⟩
    · rw [forgotten] at remembered
      cases remembered
    · exact same.listsContingent (fresh.contingentEdges es (kept ▸ remembered))

theorem ask_observations (fresh : m.Fresh) :
    m.observations.1.Fresh ∧ m.observations.2.Describes m.network := by
  unfold MemoNetwork.observations
  split
  · rename_i i remembered
    exact ⟨fresh, fresh.observations i remembered⟩
  · have gathered := ObservationIndex.describes_gather m.network
    generalize ObservationIndex.gather m.network.nodes = i at gathered ⊢
    refine ⟨⟨?_, fresh.contingentEdges⟩, gathered⟩
    rintro i ⟨⟩
    exact gathered

theorem ask_contingentEdges (fresh : m.Fresh) :
    m.contingentEdges.1.Fresh ∧ m.network.ListsContingent m.contingentEdges.2 := by
  unfold MemoNetwork.contingentEdges
  split
  · rename_i es remembered
    exact ⟨fresh, fresh.contingentEdges es remembered⟩
  · have listed := m.network.listsContingent_contingentEdges
    refine ⟨⟨fresh.observations, ?_⟩, listed⟩
    rintro es ⟨⟩
    exact listed

theorem answers (fresh : m.Fresh) : m.Answers where
  observer?_iff := fresh.ask_observations.2.observer?_iff
  contains_propositions := fresh.ask_observations.2.contains_propositions
  contains_children := fresh.ask_observations.2.contains_children
  contingentEdges := fresh.ask_contingentEdges.2

theorem addNode (fresh : m.Fresh) (n : Node) : ((m.addNode n).elim m Prod.fst).Fresh := by
  unfold MemoNetwork.addNode
  cases added : m.network.addNode n with
  | none => exact fresh
  | some result =>
    refine fresh.of_change (Or.inl rfl) (Or.inr ⟨rfl, fun e => ?_⟩)
    unfold Network.addNode at added
    split at added
    · cases added
    · cases added
      rfl

theorem renameNode (fresh : m.Fresh) {n : NodeId} {name : String} {result : MemoNetwork E × Bool}
    (renamed : m.renameNode n name = .ok result) : result.1.Fresh := by
  unfold MemoNetwork.renameNode at renamed
  obtain ⟨⟨g, done⟩, renamed, rfl⟩ := of_map_eq_ok renamed
  unfold Network.renameNode at renamed
  split at renamed
  · cases renamed
    exact fresh.of_change (Or.inr ⟨rfl, fun _ => rfl⟩) (Or.inr ⟨rfl, fun _ => rfl⟩)
  · split at renamed <;> cases renamed
    refine fresh.of_change (Or.inr ⟨rfl, fun k => ?_⟩) (Or.inr ⟨rfl, fun _ => rfl⟩)
    rw [Network.node?_modifyNode]
    split
    · rw [Option.map_map]
      rfl
    · rfl

theorem removeNode (fresh : m.Fresh) (n : NodeId) : ((m.removeNode n).elim m Prod.fst).Fresh := by
  unfold MemoNetwork.removeNode
  cases m.network.removeNode n with
  | none => exact fresh
  | some result => exact fresh.of_change (Or.inl rfl) (Or.inl rfl)

theorem addEdgeBetween (fresh : m.Fresh) (name : String) (payload : E) (source target : NodeId) :
    ((m.addEdgeBetween name payload source target).elim m Prod.fst).Fresh := by
  unfold MemoNetwork.addEdgeBetween
  cases added : m.network.addEdgeBetween name payload source target with
  | none => exact fresh
  | some result =>
    refine fresh.of_change (Or.inr ⟨rfl, .of_nodes ?_⟩) (Or.inl rfl)
    unfold Network.addEdgeBetween at added
    split at added
    · cases added
    · cases added
      exact Network.nodes_insertEdge m.network name payload source target

theorem addEdge (fresh : m.Fresh) (name : String) (payload : E) (source target : String) :
    ((m.addEdge name payload source target).elim m Prod.fst).Fresh := by
  rw [addEdge_eq]
  cases m.network.findNode? source with
  | none => exact fresh
  | some u =>
    cases m.network.findNode? target with
    | none => exact fresh
    | some v => exact fresh.addEdgeBetween name payload u v

theorem edgeOrInsert (fresh : m.Fresh) {source target : NodeId} {payload : E}
    {result : MemoNetwork E × EdgeId} (inserted : m.edgeOrInsert source target payload = .ok result) :
    result.1.Fresh := by
  unfold MemoNetwork.edgeOrInsert at inserted
  split at inserted
  · cases inserted
    exact fresh
  · cases first : m.network.node source with
    | error fault =>
      rw [first] at inserted
      cases inserted
    | ok a =>
      cases second : m.network.node target with
      | error fault =>
        rw [first, second] at inserted
        cases inserted
      | ok b =>
        rw [first, second] at inserted
        cases inserted
        exact fresh.of_change
          (Or.inr ⟨rfl, .of_nodes (Network.nodes_edgeOrInsert m.network source target payload)⟩)
          (Or.inl rfl)

theorem modifyValues (fresh : m.Fresh) (e : EdgeId) (values : ValueChange E) :
    (m.modifyValues e values.change).Fresh := by
  refine fresh.of_change (Or.inr ⟨rfl, fun _ => rfl⟩) (Or.inr ⟨rfl, fun d => ?_⟩)
  show ((m.network.modifyEdge e values.change).slot? d).map _ = _
  rw [Network.slot?_modifyEdge]
  split
  · rw [Option.map_map]
    simp only [Function.comp_def, values.kind_change]
  · rfl

theorem renameEdge (fresh : m.Fresh) (e : EdgeId) (name : String) : (m.renameEdge e name).1.Fresh := by
  have nodes := (Network.sameNodes_renameEdge m.network e name).nodes
  refine fresh.of_change (Or.inr ⟨rfl, .of_nodes nodes⟩) (Or.inr ⟨rfl, fun d => ?_⟩)
  show ((m.network.renameEdge e name).1.slot? d).map _ = _
  cases taken : m.network.findEdgeByName? name with
  | some present => rw [Network.renameEdge, taken]
  | none =>
    rw [Network.slot?_renameEdge taken]
    split
    · rw [Option.map_map]
      rfl
    · rfl

theorem removeEdge (fresh : m.Fresh) (e : EdgeId) : (m.removeEdge e).1.Fresh := by
  unfold MemoNetwork.removeEdge
  split
  · exact fresh
  · exact fresh.of_change
      (Or.inr ⟨rfl, .of_nodes (Network.sameNodes_removeEdge m.network e).nodes⟩) (Or.inl rfl)

/-- After an edit all that is remembered is right again. -/
theorem edit (fresh : m.Fresh) {change : Edit E} (done : change.remember m = .ok m') : m'.Fresh := by
  cases change with
  | addNode n =>
    cases done
    exact fresh.addNode n
  | modifyNode n f =>
    cases done
    exact fresh.of_change (Or.inl rfl) (Or.inr ⟨rfl, fun _ => rfl⟩)
  | renameNode n name =>
    obtain ⟨result, renamed, rfl⟩ := of_map_eq_ok done
    exact fresh.renameNode renamed
  | removeNode n =>
    cases done
    exact fresh.removeNode n
  | addEdge name payload source target =>
    cases done
    exact fresh.addEdge name payload source target
  | addEdgeBetween name payload source target =>
    cases done
    exact fresh.addEdgeBetween name payload source target
  | edgeOrInsert source target payload =>
    obtain ⟨result, inserted, rfl⟩ := of_map_eq_ok done
    exact fresh.edgeOrInsert inserted
  | modifyEdge e f =>
    cases done
    exact fresh.of_change (Or.inr ⟨rfl, fun _ => rfl⟩) (Or.inl rfl)
  | renameEdge e name =>
    cases done
    exact fresh.renameEdge e name
  | removeEdge e =>
    cases done
    exact fresh.removeEdge e
  | reverse =>
    cases done
    exact fresh.of_change (Or.inr ⟨rfl, fun _ => rfl⟩) (Or.inl rfl)
  | setZ z =>
    cases done
    exact fresh.of_change (Or.inr ⟨rfl, fun _ => rfl⟩) (Or.inr ⟨rfl, fun _ => rfl⟩)
  | setActivation contingent activation =>
    cases done
    exact fresh.of_change (Or.inr ⟨rfl, fun _ => rfl⟩) (Or.inr ⟨rfl, fun _ => rfl⟩)

theorem perform (fresh : m.Fresh) {request : Request E} (done : request.perform m = .ok m') : m'.Fresh := by
  cases request with
  | edit change => exact fresh.edit done
  | modifyValues e values =>
    cases done
    exact fresh.modifyValues e values
  | observer p =>
    cases done
    exact fresh.ask_observations.1
  | propositions =>
    cases done
    exact fresh.ask_observations.1
  | children p =>
    cases done
    exact fresh.ask_observations.1
  | contingentEdges =>
    cases done
    exact fresh.ask_contingentEdges.1

end Fresh

/-- An edit changes the network as if nothing were remembered. -/
theorem remember_network (wf : m.network.WellFormed) (change : Edit E) :
    (change.remember m).map network = change.apply m.network := by
  cases change with
  | addNode n =>
    refine congrArg Except.ok ?_
    unfold MemoNetwork.addNode
    cases m.network.addNode n <;> rfl
  | modifyNode n f => rfl
  | renameNode n name =>
    show ((m.renameNode n name).map Prod.fst).map network =
      (m.network.renameNode n name).map Prod.fst
    unfold MemoNetwork.renameNode
    cases m.network.renameNode n name <;> rfl
  | removeNode n =>
    refine congrArg Except.ok ?_
    unfold MemoNetwork.removeNode
    cases m.network.removeNode n <;> rfl
  | addEdge name payload source target =>
    refine congrArg Except.ok ?_
    unfold MemoNetwork.addEdge
    cases m.network.addEdge name payload source target <;> rfl
  | addEdgeBetween name payload source target =>
    refine congrArg Except.ok ?_
    unfold MemoNetwork.addEdgeBetween
    cases m.network.addEdgeBetween name payload source target <;> rfl
  | edgeOrInsert source target payload =>
    show ((m.edgeOrInsert source target payload).map Prod.fst).map network = (do
      let _ ← m.network.node source
      let _ ← m.network.node target
      return (m.network.edgeOrInsert source target payload).1)
    -- The memory looks for the edge first, the network for the nodes; an edge that is found has both.
    unfold MemoNetwork.edgeOrInsert
    cases found : m.network.findEdge? source target with
    | some e =>
      obtain ⟨hs, ht⟩ := wf.lt_of_findEdge? found
      rw [Network.node_eq_ok hs, Network.node_eq_ok ht, Network.edgeOrInsert, found]
      rfl
    | none =>
      cases m.network.node source with
      | error fault => rfl
      | ok a => cases m.network.node target <;> rfl
  | modifyEdge e f => rfl
  | renameEdge e name => rfl
  | removeEdge e =>
    refine congrArg Except.ok ?_
    unfold MemoNetwork.removeEdge
    split
    · rename_i absent
      rw [Network.removeEdge, absent]
    · rfl
  | reverse => rfl
  | setZ z => rfl
  | setActivation contingent activation => rfl

theorem network_contingentEdges (m : MemoNetwork E) : m.contingentEdges.1.network = m.network := by
  unfold MemoNetwork.contingentEdges
  split <;> rfl

theorem perform_network (wf : m.network.WellFormed) (request : Request E) :
    (request.perform m).map network =
      (request.edit?.map fun change => change.apply m.network).getD (.ok m.network) := by
  cases request with
  | edit change => exact remember_network wf change
  | modifyValues e values => rfl
  | observer p => exact congrArg Except.ok m.network_observations
  | propositions => exact congrArg Except.ok m.network_observations
  | children p => exact congrArg Except.ok m.network_observations
  | contingentEdges => exact congrArg Except.ok m.network_contingentEdges

theorem run_network (requests : List (Request E)) (wf : m.network.WellFormed) :
    (m.run requests).map network =
      (requests.filterMap Request.edit?).foldlM (fun g (change : Edit E) => change.apply g) m.network := by
  induction requests generalizing m with
  | nil => rfl
  | cons request rest ih =>
    have step := perform_network wf request
    rw [run, List.foldlM_cons]
    cases changes : request.edit? with
    | none =>
      rw [List.filterMap_cons_none changes]
      rw [changes] at step
      obtain ⟨next, performed, same⟩ := of_map_eq_ok step
      rw [performed]
      exact (ih (same ▸ wf)).trans (same ▸ rfl)
    | some change =>
      rw [List.filterMap_cons_some changes, List.foldlM_cons]
      rw [changes] at step
      cases performed : request.perform m with
      | error fault =>
        rw [performed] at step
        rw [← show Except.error fault = change.apply m.network from step]
        rfl
      | ok next =>
        rw [performed] at step
        have done : change.apply m.network = .ok next.network := step.symm
        rw [done]
        exact ih (wf.apply done)

theorem Fresh.run (fresh : m.Fresh) {requests : List (Request E)}
    (done : m.run requests = .ok m') : m'.Fresh :=
  foldlM_keeps (fun _ _ _ _ fresh performed => fresh.perform performed) fresh done

/-- Changes and questions in any order, from the network without nodes on: the questions make no
difference to the network, and all that is remembered and answered is what the definitions say. -/
theorem remembers_what_holds (requests : List (Request E)) :
    (empty.run requests).map network =
        (requests.filterMap Request.edit?).foldlM (fun g (change : Edit E) => change.apply g) .empty ∧
      ∀ m, empty.run requests = .ok m → m.Fresh ∧ m.Answers :=
  ⟨run_network requests Network.wellFormed_empty, fun _ done =>
    ⟨fresh_empty.run done, (fresh_empty.run done).answers⟩⟩

/-- A node stops observing what has been asked for, a value is merged into an edge without the contingent
edges being forgotten, and the last node takes the number of one that is removed. -/
theorem remembers_what_holds_of_observers :
    let requests : List (Request LabeledEdge) := [
      .edit (.addNode { Node.named "P" with observed := some 0 }),
      .edit (.addNode { Node.named "Q" with observed := some 1 }),
      .edit (.addNode { Node.named "R" with observed := some 1 }),
      .edit (.addEdge "PR" (.ofKind .contingent) "P" "R"),
      .observer 1, .contingentEdges,
      .edit (.modifyNode 1 fun node => { node with observed := none }),
      .modifyValues 0 (.merge .empty .empty 3), .observer 1, .edit (.removeNode 1), .contingentEdges]
    ∃ m, empty.run requests = .ok m ∧ m.Fresh ∧ m.Answers ∧
      (m.observer? 1).2 = some 1 ∧ m.contingentEdges? = some [0] := by
  intro requests
  have right := (remembers_what_holds requests).2 _ rfl
  exact ⟨_, rfl, right.1, right.2, by decide +kernel, by decide +kernel⟩

end MemoNetwork

end TemporalNetwork
