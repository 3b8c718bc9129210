import TemporalNetwork.Label.Lemmas
import TemporalNetwork.Network.Memo

/-!
What the nodes observe. The index of the observers is put together in two passes, of which the first
keeps the first observer of a proposition, and the second may take the children in any order; its answers
are those of the definitions, and they only depend on the labels and propositions of the nodes.
-/

namespace TemporalNetwork

namespace ObservationIndex

variable {i j : ObservationIndex} {n : NodeId} {node : Node} {nodes : Array Node}
  {child parent p q : Proposition}

theorem ext_answers (observers : ∀ p, i.observer? p = j.observer? p)
    (children : ∀ p q, (i.childrenOf p).contains q = true ↔ (j.childrenOf p).contains q = true)
    (propositions : ∀ p, i.propositions.contains p = true ↔ j.propositions.contains p = true) :
    i = j := by
  obtain ⟨os, cs, ps⟩ := i
  obtain ⟨os', cs', ps'⟩ := j
  have first : os = os' := Vector.ext fun k inside => observers ⟨k, inside⟩
  have second : cs = cs' := Vector.ext fun k inside =>
    PropositionSet.ext_contains fun q => Bool.eq_iff_iff.mpr (children ⟨k, inside⟩ q)
  have third : ps = ps' := PropositionSet.ext_contains fun p => Bool.eq_iff_iff.mpr (propositions p)
  rw [first, second, third]

@[simp] theorem observer?_empty (p : Proposition) : empty.observer? p = none := by
  simp [empty, observer?]

@[simp] theorem childrenOf_empty (p : Proposition) : empty.childrenOf p = .empty := by
  simp [empty, childrenOf]

@[simp] theorem observer?_ofNodes (nodes : Array Node) (p : Proposition) :
    (ofNodes nodes).observer? p = observerAmong? nodes p := by
  simp [ofNodes, observer?]

@[simp] theorem childrenOf_ofNodes (nodes : Array Node) (p : Proposition) :
    (ofNodes nodes).childrenOf p = childrenAmong nodes p := by
  simp [ofNodes, childrenOf]

theorem observer?_enterNode (i : ObservationIndex) (n : NodeId) (node : Node) (p : Proposition) :
    (i.enterNode n node).observer? p =
      (i.observer? p).or (if node.observed = some p then some n else none) := by
  unfold enterNode
  split
  · rename_i none_observed
    simp [none_observed]
  · rename_i q observed
    simp only [observer?, observed, Option.some.injEq, Fin.getElem_fin, Vector.getElem_setIfInBounds]
    by_cases same : q = p
    · simp [same]
    · have apart : q.val ≠ p.val := fun h => same (Fin.ext h)
      simp [same, apart]

theorem contains_propositions_enterNode (i : ObservationIndex) (n : NodeId) (node : Node)
    (p : Proposition) : (i.enterNode n node).propositions.contains p = true ↔
      i.propositions.contains p = true ∨ node.observed = some p := by
  unfold enterNode
  split
  · rename_i none_observed
    simp [none_observed]
  · rename_i q observed
    simp [observed]

theorem childrenOf_enterNode (i : ObservationIndex) (n : NodeId) (node : Node) (p : Proposition) :
    (i.enterNode n node).childrenOf p = i.childrenOf p := by
  unfold enterNode
  split <;> rfl

/-- What a pass over nodes that are numbered from `k` on adds to an index. -/
theorem foldl_enterNode (nodes : List Node) (k : NodeId) (i : ObservationIndex) (p : Proposition) :
    let r := (nodes.zipIdx k).foldl (fun i entry => i.enterNode entry.2 entry.1) i
    r.observer? p =
        (i.observer? p).or ((nodes.findIdx? fun node => node.observed == some p).map (· + k)) ∧
      (r.propositions.contains p = true ↔
        i.propositions.contains p = true ∨ ∃ node ∈ nodes, node.observed = some p) ∧
      r.childrenOf p = i.childrenOf p := by
  induction nodes generalizing k i with
  | nil => simp
  | cons node rest ih =>
    obtain ⟨observer, propositions, children⟩ := ih (k + 1) (i.enterNode k node)
    refine ⟨observer.trans ?_, propositions.trans ?_, children.trans (childrenOf_enterNode ..)⟩
    · rw [observer?_enterNode, Option.or_assoc, List.findIdx?_cons]
      by_cases here : node.observed = some p
      · simp [here]
      · simp [here, Nat.add_assoc, Nat.add_comm 1 k, Function.comp_def]
    · rw [contains_propositions_enterNode, or_assoc]
      simp

theorem observer?_addChild (i : ObservationIndex) (child parent p : Proposition) :
    (i.addChild child parent).observer? p = i.observer? p := by
  unfold addChild
  split <;> rfl

theorem propositions_addChild (i : ObservationIndex) (child parent : Proposition) :
    (i.addChild child parent).propositions = i.propositions := by
  unfold addChild
  split <;> rfl

theorem contains_childrenOf_addChild (i : ObservationIndex) (child parent p q : Proposition) :
    ((i.addChild child parent).childrenOf p).contains q = true ↔
      (i.childrenOf p).contains q = true ∨ parent = p ∧ child = q ∧ p ≠ q := by
  unfold addChild
  split
  · rename_i same
    subst same
    simp only [iff_self_or]
    rintro ⟨rfl, rfl, apart⟩
    exact absurd rfl apart
  · rename_i apart
    simp only [childrenOf, Fin.getElem_fin, Vector.getElem_setIfInBounds]
    by_cases same : parent = p
    · subst same
      simp only [if_true, PropositionSet.contains_insert, Bool.or_eq_true, decide_eq_true_eq, true_and]
      refine or_congr_right ⟨?_, And.left⟩
      rintro rfl
      exact ⟨rfl, apart⟩
    · have other : parent.val ≠ p.val := fun h => same (Fin.ext h)
      simp [same, other]

/-- What a pass over the parents of one child adds to an index. -/
theorem foldl_addChild (parents : List Proposition) (i : ObservationIndex) (child p q : Proposition) :
    let r := parents.foldl (fun i parent => i.addChild child parent) i
    r.observer? p = i.observer? p ∧ r.propositions = i.propositions ∧
      ((r.childrenOf p).contains q = true ↔
        (i.childrenOf p).contains q = true ∨ p ∈ parents ∧ child = q ∧ p ≠ q) := by
  induction parents generalizing i with
  | nil => simp
  | cons parent rest ih =>
    obtain ⟨observer, propositions, children⟩ := ih (i.addChild child parent)
    refine ⟨observer.trans (observer?_addChild ..), propositions.trans (propositions_addChild ..),
      children.trans ?_⟩
    rw [contains_childrenOf_addChild, or_assoc, ← or_and_right, List.mem_cons, eq_comm (a := p)]

/-- The label of the observer of `q` mentions `p`. -/
def Mentioned (i : ObservationIndex) (nodes : Array Node) (p q : Proposition) : Prop :=
  ∃ node, ((i.observer? q).bind fun n => nodes[n]?) = some node ∧ node.label.mentions p = true

theorem enterChild_spec (nodes : Array Node) (i : ObservationIndex) (child p q : Proposition) :
    (i.enterChild nodes child).observer? p = i.observer? p ∧
      (i.enterChild nodes child).propositions = i.propositions ∧
      (((i.enterChild nodes child).childrenOf p).contains q = true ↔
        (i.childrenOf p).contains q = true ∨ child = q ∧ p ≠ q ∧ i.Mentioned nodes p q) := by
  unfold enterChild
  split
  · rename_i absent
    refine ⟨rfl, rfl, ?_⟩
    simp only [iff_self_or]
    rintro ⟨rfl, _, node, found, _⟩
    rw [absent] at found
    cases found
  · rename_i node found
    obtain ⟨observer, propositions, children⟩ :=
      foldl_addChild node.label.propositions.toList i child p q
    refine ⟨observer, propositions, children.trans (or_congr_right ?_)⟩
    rw [PropositionSet.mem_toList]
    constructor
    · rintro ⟨mentioned, rfl, apart⟩
      exact ⟨rfl, apart, node, found, mentioned⟩
    · rintro ⟨rfl, apart, node', found', mentioned⟩
      cases found.symm.trans found'
      exact ⟨mentioned, rfl, apart⟩

/-- What a pass over the children adds to an index, in whatever order they come. -/
theorem foldl_enterChild (children : List Proposition) (nodes : Array Node) (i : ObservationIndex)
    (p q : Proposition) :
    let r := children.foldl (enterChild nodes) i
    r.observer? p = i.observer? p ∧ r.propositions = i.propositions ∧
      ((r.childrenOf p).contains q = true ↔
        (i.childrenOf p).contains q = true ∨ q ∈ children ∧ p ≠ q ∧ i.Mentioned nodes p q) := by
  induction children generalizing i with
  | nil => simp
  | cons child rest ih =>
    obtain ⟨observer, propositions, inChildren⟩ := ih (i.enterChild nodes child)
    obtain ⟨observer', propositions', inChildren'⟩ := enterChild_spec nodes i child p q
    have same : (i.enterChild nodes child).Mentioned nodes p q ↔ i.Mentioned nodes p q := by
      rw [Mentioned, (enterChild_spec nodes i child q q).1, Mentioned]
    refine ⟨observer.trans observer', propositions.trans propositions', inChildren.trans ?_⟩
    rw [inChildren', same, or_assoc, ← or_and_right, List.mem_cons, eq_comm (a := q)]

theorem gather_eq (nodes : Array Node) : gather nodes = ofNodes nodes := by
  have found := fun p => foldl_enterNode nodes.toList 0 empty p
  unfold gather
  generalize nodes.toList.zipIdx.foldl (fun i entry => i.enterNode entry.2 entry.1) empty = i at found
  have observers : ∀ p, i.observer? p = observerAmong? nodes p := by
    intro p
    obtain ⟨listed⟩ := nodes
    rw [(found p).1, observer?_empty, Option.none_or, observerAmong?, List.findIdx?_toArray]
    exact Option.map_id'
  refine ext_answers (fun p => ?_) (fun p q => ?_) fun p => ?_
  · rw [(foldl_enterChild Proposition.all nodes i p p).1, observers, observer?_ofNodes]
  · rw [(foldl_enterChild Proposition.all nodes i p q).2.2, (found p).2.2, childrenOf_empty,
      childrenOf_ofNodes, childrenAmong, PropositionSet.contains_ofList, List.mem_filter, Mentioned,
      observers]
    simp [Proposition.all, eq_comm (a := q), Option.any_eq_true]
  · rw [(foldl_enterChild Proposition.all nodes i p p).2.1, (found p).2.1]
    simp [empty, ofNodes, PropositionSet.contains_ofList]

end ObservationIndex

variable {E : Type} {g h : Network E} {n : NodeId} {p q : Proposition}

namespace Network

def Observes (g : Network E) (n : NodeId) (p : Proposition) : Prop :=
  ∃ node, g.node? n = some node ∧ node.observed = some p

/-- The node with the smallest number that observes `p`. -/
def IsObserver (g : Network E) (n : NodeId) (p : Proposition) : Prop :=
  g.Observes n p ∧ ∀ k < n, ¬ g.Observes k p

def LabelMentions (g : Network E) (n : NodeId) (p : Proposition) : Prop :=
  ∃ node, g.node? n = some node ∧ node.label.mentions p = true

theorem observerAmong?_eq_some_iff : observerAmong? g.nodes p = some n ↔ g.IsObserver n p := by
  have observes : ∀ (k : NodeId) (inside : k < g.nodes.size),
      (g.nodes[k].observed == some p) = true ↔ g.Observes k p := by
    intro k inside
    rw [beq_iff_eq, Observes, node?, Array.getElem?_eq_getElem inside]
    simp
  rw [observerAmong?, Array.findIdx?_eq_some_iff_getElem]
  constructor
  · rintro ⟨inside, here, before⟩
    refine ⟨(observes n inside).mp here, fun k less => ?_⟩
    rw [← observes k (Nat.lt_trans less inside)]
    exact before k less
  · rintro ⟨here, before⟩
    obtain ⟨node, present, _⟩ := id here
    have inside : n < g.nodes.size := (Array.getElem?_eq_some_iff.mp present).1
    refine ⟨inside, (observes n inside).mpr here, fun k less => ?_⟩
    rw [observes k (Nat.lt_trans less inside)]
    exact before k less

end Network

/-- The answers of the index are those of the definitions. -/
structure ObservationIndex.Describes (i : ObservationIndex) (g : Network E) : Prop where
  observer?_iff : ∀ p n, i.observer? p = some n ↔ g.IsObserver n p
  contains_propositions : ∀ p, i.propositions.contains p = true ↔ ∃ n, g.Observes n p
  contains_children : ∀ p q, (i.childrenOf p).contains q = true ↔
    q ≠ p ∧ ∃ n, g.IsObserver n q ∧ g.LabelMentions n p

namespace Network

theorem describes_observations (g : Network E) : g.observations.Describes g where
  observer?_iff p n := by
    rw [observations, ObservationIndex.observer?_ofNodes, observerAmong?_eq_some_iff]
  contains_propositions p := by
    show (PropositionSet.ofList (g.nodes.toList.filterMap Node.observed)).contains p = true ↔ _
    rw [PropositionSet.contains_ofList, List.mem_filterMap]
    constructor
    · rintro ⟨node, mem, observed⟩
      obtain ⟨n, inside, rfl⟩ := List.mem_iff_getElem.mp mem
      exact ⟨n, _, Array.getElem?_eq_getElem (by simpa using inside), observed⟩
    · rintro ⟨n, node, present, observed⟩
      exact ⟨node, Array.mem_def.mp (Array.mem_of_getElem? present), observed⟩
  contains_children p q := by
    rw [observations, ObservationIndex.childrenOf_ofNodes, childrenAmong,
      PropositionSet.contains_ofList, List.mem_filter, Bool.and_eq_true, bne_iff_ne, Proposition.all,
      and_iff_right (List.mem_finRange q), Option.any_eq_true]
    refine and_congr_right fun _ => ?_
    constructor
    · rintro ⟨node, found, mentioned⟩
      obtain ⟨n, first, present⟩ := Option.bind_eq_some_iff.mp found
      exact ⟨n, observerAmong?_eq_some_iff.mp first, node, present, mentioned⟩
    · rintro ⟨n, first, node, present, mentioned⟩
      exact ⟨node, Option.bind_eq_some_iff.mpr ⟨n, observerAmong?_eq_some_iff.mpr first, present⟩,
        mentioned⟩

/-- Whether the nodes have the same labels and observe the same. -/
def SameObservations (g h : Network E) : Prop :=
  ∀ n, (h.node? n).map (fun node => (node.observed, node.label)) =
    (g.node? n).map fun node => (node.observed, node.label)

namespace SameObservations

theorem of_nodes (nodes : h.nodes = g.nodes) : g.SameObservations h := by
  intro n
  rw [node?, nodes, node?]

theorem symm (same : g.SameObservations h) : h.SameObservations g := fun n => (same n).symm

theorem exists_node (same : g.SameObservations h) {node : Node} (present : g.node? n = some node) :
    ∃ node', h.node? n = some node' ∧ node'.observed = node.observed ∧ node'.label = node.label := by
  have seen := same n
  rw [present, Option.map_some] at seen
  obtain ⟨node', present', pair⟩ := Option.map_eq_some_iff.mp seen
  exact ⟨node', present', Prod.mk.inj pair⟩

theorem observes (same : g.SameObservations h) (o : g.Observes n p) : h.Observes n p := by
  obtain ⟨node, present, observed⟩ := o
  obtain ⟨node', present', observed', _⟩ := same.exists_node present
  exact ⟨node', present', observed'.trans observed⟩

theorem labelMentions (same : g.SameObservations h) (l : g.LabelMentions n p) :
    h.LabelMentions n p := by
  obtain ⟨node, present, mentioned⟩ := l
  obtain ⟨node', present', _, label⟩ := same.exists_node present
  exact ⟨node', present', label ▸ mentioned⟩

theorem observes_iff (same : g.SameObservations h) : h.Observes n p ↔ g.Observes n p :=
  ⟨same.symm.observes, same.observes⟩

theorem labelMentions_iff (same : g.SameObservations h) : h.LabelMentions n p ↔ g.LabelMentions n p :=
  ⟨same.symm.labelMentions, same.labelMentions⟩

theorem describes {i : ObservationIndex} (same : g.SameObservations h)
    (d : i.Describes g) : i.Describes h := by
  have observer : ∀ n p, h.IsObserver n p ↔ g.IsObserver n p := by
    intro n p
    simp only [IsObserver, same.observes_iff]
  refine ⟨fun p n => ?_, fun p => ?_, fun p q => ?_⟩
  · rw [d.observer?_iff, observer]
  · simp only [d.contains_propositions, same.observes_iff]
  · simp only [d.contains_children, observer, same.labelMentions_iff]

end SameObservations

end Network

theorem ObservationIndex.describes_gather (g : Network E) : (gather g.nodes).Describes g := by
  rw [gather_eq]
  exact g.describes_observations

end TemporalNetwork
