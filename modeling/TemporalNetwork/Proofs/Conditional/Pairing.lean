import TemporalNetwork.Proofs.Conditional.Faults
import TemporalNetwork.Proofs.Strategy.RawLinks

/-!
The pairs of contingent edges. One pass over the edges, in the order of their numbers, makes one link of
each pair, whichever edge of the pair it meets first: the edge from the activation node makes the link,
and the other one is left to it. What is not such a pair ends the pass with a structural error.
-/

namespace TemporalNetwork

namespace ContingentLink

open Preparation

/-- Whether `e` is one of the two edges of the link. -/
def HasEdge (g : LabeledNetwork) (link : ContingentLink) (e : EdgeId) : Prop :=
  g.findEdge? link.activation link.contingent = some e ∨
    g.findEdge? link.contingent link.activation = some e

/-- Whether the bounds of a link are given by the first values of two contingent edges. -/
structure Given (g : LabeledNetwork) (link : ContingentLink) : Prop where
  ahead : ∃ e ∈ g.contingentEdges, g.findEdge? link.activation link.contingent = some e ∧
    FirstValue g e (link.label, link.upper)
  behind : ∃ e ∈ g.contingentEdges, g.findEdge? link.contingent link.activation = some e ∧
    ∃ label, FirstValue g e (label, -link.lower)
  positive : 0 < link.lower
  range : link.lower < link.upper

/-- Whether the contingent node of a link is marked as such, with the letter of the link. -/
def Marked (g : LabeledNetwork) (link : ContingentLink) : Prop :=
  ∃ node, g.node? link.contingent = some node ∧ node.contingent = true ∧ node.letter = some link.letter

/-- Whether one of two values is `y` and the other `-x`, with `0 < x < y`. -/
def AreBounds (v w : Value) : Prop := (0 < -w ∧ -w < v) ∨ (0 < -v ∧ -v < w)

/-- What contingent edges must not be like: an edge without a companion in the opposite direction or
without a value, two companions whose first values are no bounds, and two edges with positive first
values from different nodes to the same one. -/
inductive Defective (g : LabeledNetwork) : Prop
  | alone {e : EdgeId} {u v : NodeId} (contingent : e ∈ g.contingentEdges)
    (here : g.findEdge? u v = some e)
    (none : ∀ c ∈ g.contingentEdges, g.findEdge? v u ≠ some c)
  | empty {e : EdgeId} (contingent : e ∈ g.contingentEdges) (none : ∀ v, ¬ FirstValue g e v)
  | unbounded {e c : EdgeId} {u v : NodeId} {label label' : Label} {value value' : Value}
    (contingent : e ∈ g.contingentEdges) (contingent' : c ∈ g.contingentEdges)
    (here : g.findEdge? u v = some e) (back : g.findEdge? v u = some c)
    (first : FirstValue g e (label, value)) (second : FirstValue g c (label', value'))
    (unbounded : ¬ AreBounds value value')
  | shared {e c : EdgeId} {u w v : NodeId} {label label' : Label} {value value' : Value}
    (contingent : e ∈ g.contingentEdges) (contingent' : c ∈ g.contingentEdges)
    (here : g.findEdge? u v = some e) (there : g.findEdge? w v = some c) (apart : u ≠ w)
    (first : FirstValue g e (label, value)) (second : FirstValue g c (label', value'))
    (positive : 0 < value) (positive' : 0 < value')

/-- The edges of `h` have the ends, kinds and ordinary values of those of `g`. -/
structure SameRaw (g h : LabeledNetwork) : Prop where
  wellFormed : h.WellFormed
  found : ∀ u v, h.findEdge? u v = g.findEdge? u v
  edges : ∀ e, (h.edge? e).map (fun edge => (edge.kind, edge.values)) =
    (g.edge? e).map fun edge => (edge.kind, edge.values)

variable {g h : LabeledNetwork} {links : List ContingentLink} {link : ContingentLink}
  {e companion : EdgeId} {todo rest : List EdgeId} {u v u' v' : NodeId} {a b : Label × Value}
  {used : CaseLabel} {d : Draft LabeledEdge}

theorem FirstValue.unique (first : FirstValue g e a) (second : FirstValue g e b) : a = b := by
  obtain ⟨edge, stored, head⟩ := first
  obtain ⟨edge', stored', head'⟩ := second
  obtain rfl := Option.some.inj (stored.symm.trans stored')
  exact Option.some.inj (head.symm.trans head')

theorem companion?_eq_some_iff : companion? g u v = some companion ↔
    g.findEdge? v u = some companion ∧ companion ∈ g.contingentEdges := by
  rw [companion?, Option.filter_eq_some_iff, Network.mem_contingentEdges, Option.any_eq_true]
  simp only [beq_iff_eq]

theorem ends_unique (wf : g.WellFormed) (first : g.findEdge? u v = some e)
    (second : g.findEdge? u' v' = some e) : u = u' ∧ v = v' := by
  obtain ⟨slot, stored, rfl, rfl⟩ := (wf.listed u v e).mp first
  exact Network.ends_of_findEdge? wf second stored

theorem exists_ends (wf : g.WellFormed) (contingent : e ∈ g.contingentEdges) :
    ∃ u v, g.findEdge? u v = some e := by
  obtain ⟨edge, present, _⟩ := Network.mem_contingentEdges.mp contingent
  obtain ⟨slot, stored, _⟩ := Option.map_eq_some_iff.mp present
  exact ⟨_, _, wf.findEdge?_of_slot stored⟩

namespace SameRaw

theorem firstValue_iff (same : SameRaw g h) : FirstValue h e a ↔ FirstValue g e a := by
  have read : ∀ g : LabeledNetwork, FirstValue g e a ↔ ∃ kind values,
      (g.edge? e).map (fun edge => (edge.kind, edge.values)) = some (kind, values) ∧
        values.entries.head? = some a := by
    intro g
    constructor
    · rintro ⟨edge, stored, head⟩
      exact ⟨edge.kind, edge.values, by rw [stored]; rfl, head⟩
    · rintro ⟨kind, values, known, head⟩
      obtain ⟨edge, stored, pair⟩ := Option.map_eq_some_iff.mp known
      cases pair
      exact ⟨edge, stored, head⟩
  rw [read, read, same.edges]

theorem mem_contingentEdges (same : SameRaw g h) : e ∈ h.contingentEdges ↔ e ∈ g.contingentEdges := by
  have read : ∀ g : LabeledNetwork, e ∈ g.contingentEdges ↔
      ((g.edge? e).map fun edge => (edge.kind, edge.values)).any fun r => r.1 == .contingent := by
    intro g
    rw [Network.mem_contingentEdges]
    cases g.edge? e <;> simp
  rw [read, read, same.edges]

theorem companion? (same : SameRaw g h) (paired : companion? h u v = some companion) :
    g.findEdge? v u = some companion ∧ companion ∈ g.contingentEdges := by
  obtain ⟨found, contingent⟩ := companion?_eq_some_iff.mp paired
  exact ⟨same.found v u ▸ found, same.mem_contingentEdges.mp contingent⟩

theorem findEdge?_of_slot (same : SameRaw g h) {slot : EdgeSlot LabeledEdge}
    (stored : h.slot? e = some slot) : g.findEdge? slot.source slot.target = some e :=
  same.found _ _ ▸ same.wellFormed.findEdge?_of_slot stored

theorem enter (same : SameRaw g h) (forward backward : EdgeId) (letter : CaseLetter) (label : Label)
    (lower upper : Value) (activation contingent : NodeId) :
    SameRaw g (enter (withCaseValues h forward backward letter label lower upper) activation contingent
      letter) where
  wellFormed := (((same.wellFormed.modifyEdge forward _).modifyEdge backward _).modifyNode _
    _).setActivation _ _
  found := same.found
  edges i := (map_edge?_withCaseValues h forward backward letter label lower upper i).trans (same.edges i)

end SameRaw

/-- An edge that has been treated has a link, or is left to a companion with a positive value. -/
def Settled (g : LabeledNetwork) (links : List ContingentLink) (e : EdgeId) : Prop :=
  ∃ u v c a b, g.findEdge? u v = some e ∧ g.findEdge? v u = some c ∧ c ∈ g.contingentEdges ∧
    FirstValue g e a ∧ FirstValue g c b ∧
      ((∃ link ∈ links, link.activation = u ∧ link.contingent = v) ∨ a.2 < 0 ∧ 0 < b.2)

theorem Settled.mono {more : List ContingentLink} (settled : Settled g links e)
    (listed : ∀ link ∈ links, link ∈ more) : Settled g more e := by
  obtain ⟨u, v, c, a, b, here, back, contingent, first, second, ⟨link, mem, ends⟩ | signs⟩ := settled
  · exact ⟨u, v, c, a, b, here, back, contingent, first, second, Or.inl ⟨link, listed link mem, ends⟩⟩
  · exact ⟨u, v, c, a, b, here, back, contingent, first, second, Or.inr signs⟩

theorem marked_enter (marked : ∀ link ∈ links, Marked h link) {activation contingent : NodeId}
    {letter : CaseLetter} {label : Label} {lower upper : Value}
    (inside : contingent < h.nodeCount) (free : contingent ∉ links.map ContingentLink.contingent)
    {k : LabeledNetwork} (nodes : ∀ n, k.node? n = if contingent = n then
      (h.node? n).map fun node => { node with contingent := true, letter := some letter } else h.node? n) :
    ∀ link ∈ links ++ [⟨activation, contingent, letter, label, lower, upper⟩], Marked k link := by
  intro link mem
  rcases List.mem_append.mp mem with before | new
  · obtain ⟨node, present, flagged⟩ := marked link before
    have apart : contingent ≠ link.contingent := fun same =>
      free (same ▸ List.mem_map_of_mem before)
    exact ⟨node, by rw [nodes, if_neg apart, present], flagged⟩
  · rw [List.mem_singleton.mp new]
    refine ⟨{ h.nodes[contingent] with contingent := true, letter := some letter }, ?_, rfl, rfl⟩
    rw [nodes, if_pos rfl, Network.node?, Array.getElem?_eq_getElem inside]
    rfl

/-- The pass over the contingent edges of `g`: those of `todo` are still to come. -/
structure Pairing (g : LabeledNetwork) (todo : List EdgeId) (links : List ContingentLink)
    (h : LabeledNetwork) : Prop where
  raw : SameRaw g h
  within : ∀ e ∈ todo, e ∈ g.contingentEdges
  nodup : todo.Nodup
  given : ∀ link ∈ links, Given g link
  past : ∀ link ∈ links, ∀ e ∈ todo, g.findEdge? link.activation link.contingent ≠ some e
  settled : ∀ e ∈ g.contingentEdges, e ∉ todo → Settled g links e
  contingents : (links.map contingent).Nodup
  marked : ∀ link ∈ links, Marked h link
  entered : Entered links h

namespace Pairing

theorem start (wf : g.WellFormed) : Pairing g g.contingentEdges [] g where
  raw := ⟨wf, fun _ _ => rfl, fun _ => rfl⟩
  within _ := id
  nodup := (List.nodup_range.filter _).filter _
  given := nofun
  past := nofun
  settled _ contingent later := absurd contingent later
  contingents := List.nodup_nil
  marked := nofun
  entered := nofun

theorem settle (pairing : Pairing g (e :: rest) links h) (settled : Settled g links e) :
    Pairing g rest links h where
  __ := pairing
  within c mem := pairing.within c (List.mem_cons_of_mem e mem)
  nodup := pairing.nodup.of_cons
  past link mem c later := pairing.past link mem c (List.mem_cons_of_mem e later)
  settled c contingent later := by
    by_cases same : c = e
    · exact same ▸ settled
    · exact pairing.settled c contingent (List.not_mem_cons_of_ne_of_not_mem same later)

theorem step {r : List ContingentLink × CaseLabel} {k : LabeledNetwork} (wf : g.WellFormed)
    (pairing : Pairing g (e :: rest) links h) (treated : Treated h links used e r k) :
    Pairing g rest r.1 k := by
  have raw := pairing.raw
  have entered := pairing.entered.treated treated
  have contingent := pairing.within e List.mem_cons_self
  cases treated with
  | absent unstored =>
    obtain ⟨u, v, here⟩ := exists_ends wf contingent
    obtain ⟨slot, stored, _⟩ := (raw.wellFormed.listed u v e).mp ((raw.found u v).trans here)
    rw [unstored] at stored
    cases stored
  | behind stored paired first second negative positive =>
    obtain ⟨back, contingent'⟩ := raw.companion? paired
    exact pairing.settle ⟨_, _, _, _, _, raw.findEdge?_of_slot stored, back, contingent',
      raw.firstValue_iff.mp first, raw.firstValue_iff.mp second, Or.inr ⟨negative, positive⟩⟩
  | @ahead slot companion label label' value value' letter stored paired first second positive range
      free chosen agrees =>
    have here := raw.findEdge?_of_slot stored
    obtain ⟨back, contingent'⟩ := raw.companion? paired
    rw [raw.firstValue_iff] at first second
    -- A link to the same node would have the same activation node, and so the same edge.
    have fresh : slot.target ∉ links.map ContingentLink.contingent := by
      intro mem
      obtain ⟨link, listed, same⟩ := List.mem_map.mp mem
      have activated := pairing.entered link listed
      rw [same] at activated
      have source : link.activation = slot.source := by
        simpa using Option.filter_eq_none_iff.mp free link.activation activated
      exact pairing.past link listed e List.mem_cons_self (by rw [same, source, here])
    obtain ⟨_, inside⟩ := raw.wellFormed.lt_of_findEdge? (raw.wellFormed.findEdge?_of_slot stored)
    have settled : Settled g (links ++ [⟨slot.source, slot.target, letter, label, -value', value⟩]) e :=
      ⟨_, _, _, _, _, here, back, contingent', first, second,
        Or.inl ⟨_, List.mem_append_right _ List.mem_cons_self, rfl, rfl⟩⟩
    have given : Given g ⟨slot.source, slot.target, letter, label, -value', value⟩ := {
      ahead := ⟨e, contingent, here, first⟩
      behind := ⟨_, contingent', back, label', by rw [neg_neg]; exact second⟩
      positive := positive
      range := range }
    exact {
      raw := raw.enter ..
      within := fun c later => pairing.within c (List.mem_cons_of_mem e later)
      nodup := pairing.nodup.of_cons
      given := fun link mem => (List.mem_append.mp mem).elim (pairing.given link)
        fun new => List.mem_singleton.mp new ▸ given
      past := fun link mem c later => by
        rcases List.mem_append.mp mem with before | new
        · exact pairing.past link before c (List.mem_cons_of_mem e later)
        · rw [List.mem_singleton.mp new]
          intro found
          obtain rfl := Option.some.inj (here.symm.trans found)
          exact (List.nodup_cons.mp pairing.nodup).1 later
      settled := fun c listed later => by
        by_cases same : c = e
        · exact same ▸ settled
        · exact (pairing.settled c listed (List.not_mem_cons_of_ne_of_not_mem same later)).mono
            fun link mem => List.mem_append_left _ mem
      contingents := by
        rw [List.map_append, List.map_singleton]
        refine List.nodup_append.mpr ⟨pairing.contingents, List.pairwise_singleton _ _, ?_⟩
        intro n mem m mem' same
        have last : m = slot.target := List.mem_singleton.mp mem'
        rw [last] at same
        exact fresh (same ▸ mem)
      marked := marked_enter pairing.marked inside fresh fun n => Network.node?_modifyNode ..
      entered := entered }

end Pairing

/-- The edge that makes the link of a pair is met whichever edge of the pair is met first. -/
theorem Pairing.exists_link (pairing : Pairing g [] links h) (wf : g.WellFormed)
    (contingent : e ∈ g.contingentEdges) (here : g.findEdge? u v = some e) :
    ∃ link ∈ links, (link.activation = u ∧ link.contingent = v) ∨
      (link.activation = v ∧ link.contingent = u) := by
  obtain ⟨u₁, v₁, c, a, b, here₁, back, contingent', first, second, linked | ⟨_, positive⟩⟩ :=
    pairing.settled e contingent List.not_mem_nil
  · obtain ⟨rfl, rfl⟩ := ends_unique wf here here₁
    obtain ⟨link, mem, ends⟩ := linked
    exact ⟨link, mem, Or.inl ends⟩
  · obtain ⟨rfl, rfl⟩ := ends_unique wf here here₁
    obtain ⟨u₂, v₂, _, b', _, back₂, _, _, second', _, ⟨link, mem, ends⟩ | ⟨negative, _⟩⟩ :=
      pairing.settled c contingent' List.not_mem_nil
    · obtain ⟨rfl, rfl⟩ := ends_unique wf back back₂
      exact ⟨link, mem, Or.inr ends⟩
    · rw [second'.unique second] at negative
      exact absurd negative (not_lt.mpr positive.le)

theorem Pairing.existsUnique_link (pairing : Pairing g [] links h) (wf : g.WellFormed)
    (contingent : e ∈ g.contingentEdges) : ∃! link, link ∈ links ∧ HasEdge g link e := by
  obtain ⟨u, v, here⟩ := exists_ends wf contingent
  -- The edge to a contingent node is the one with the positive value.
  have apart : ∀ link ∈ links, ∀ other ∈ links, g.findEdge? link.activation link.contingent = some e →
      g.findEdge? other.contingent other.activation ≠ some e := by
    intro link mem other mem' ahead behind
    obtain ⟨c, _, found, first⟩ := (pairing.given link mem).ahead
    obtain ⟨c', _, found', label, second⟩ := (pairing.given other mem').behind
    obtain rfl := Option.some.inj (ahead.symm.trans found)
    obtain rfl := Option.some.inj (behind.symm.trans found')
    have same : link.upper = -other.lower := congrArg Prod.snd (first.unique second)
    have := (pairing.given link mem).positive
    have := (pairing.given link mem).range
    have := (pairing.given other mem').positive
    lia
  obtain ⟨link, mem, ends⟩ := pairing.exists_link wf contingent here
  have edge : HasEdge g link e := by
    rcases ends with ⟨rfl, rfl⟩ | ⟨rfl, rfl⟩
    · exact Or.inl here
    · exact Or.inr here
  refine ⟨link, ⟨mem, edge⟩, ?_⟩
  rintro other ⟨mem', edge'⟩
  refine List.inj_on_of_nodup_map pairing.contingents mem' mem ?_
  rcases edge with ahead | behind <;> rcases edge' with ahead' | behind'
  · exact (ends_unique wf ahead' ahead).2
  · exact absurd behind' (apart link mem other mem' ahead)
  · exact absurd behind (apart other mem' link mem ahead')
  · exact (ends_unique wf behind' behind).1

theorem Pairing.ahead (pairing : Pairing g [] links h) (wf : g.WellFormed)
    (contingent : e ∈ g.contingentEdges) (here : g.findEdge? u v = some e) {label : Label} {value : Value}
    (first : FirstValue g e (label, value)) (positive : 0 < value) :
    ∃ link ∈ links, link.activation = u ∧ link.contingent = v := by
  obtain ⟨u₁, v₁, c, a, b, here₁, _, _, first', _, linked | ⟨negative, _⟩⟩ :=
    pairing.settled e contingent List.not_mem_nil
  · obtain ⟨rfl, rfl⟩ := ends_unique wf here here₁
    exact linked
  · rw [first'.unique first] at negative
    exact absurd negative (not_lt.mpr positive.le)

theorem Pairing.not_defective (pairing : Pairing g [] links h) (wf : g.WellFormed) : ¬ Defective g := by
  have settled := fun e (contingent : e ∈ g.contingentEdges) =>
    pairing.settled e contingent List.not_mem_nil
  intro defective
  cases defective with
  | alone contingent here none =>
    obtain ⟨_, _, c, _, _, here', back, contingent', _⟩ := settled _ contingent
    obtain ⟨rfl, rfl⟩ := ends_unique wf here here'
    exact none c contingent' back
  | empty contingent none =>
    obtain ⟨_, _, _, _, _, _, _, _, first, _⟩ := settled _ contingent
    exact none _ first
  | unbounded contingent contingent' here back first second unbounded =>
    -- The link has been made from either edge of the pair; the other one holds its lower bound.
    obtain ⟨link, mem, ends⟩ := pairing.exists_link wf contingent here
    obtain ⟨i, _, found, ahead⟩ := (pairing.given link mem).ahead
    obtain ⟨j, _, found', label, behind⟩ := (pairing.given link mem).behind
    have positive := (pairing.given link mem).positive
    have range := (pairing.given link mem).range
    rcases ends with ⟨rfl, rfl⟩ | ⟨rfl, rfl⟩
    · obtain rfl := Option.some.inj (here.symm.trans found)
      obtain rfl := Option.some.inj (back.symm.trans found')
      have upper := congrArg Prod.snd (first.unique ahead)
      have lower := congrArg Prod.snd (second.unique behind)
      dsimp only at upper lower
      exact unbounded (Or.inl (by lia))
    · obtain rfl := Option.some.inj (back.symm.trans found)
      obtain rfl := Option.some.inj (here.symm.trans found')
      have upper := congrArg Prod.snd (second.unique ahead)
      have lower := congrArg Prod.snd (first.unique behind)
      dsimp only at upper lower
      exact unbounded (Or.inr (by lia))
  | shared contingent contingent' here there apart first second positive positive' =>
    obtain ⟨link, mem, source, target⟩ := pairing.ahead wf contingent here first positive
    obtain ⟨link', mem', source', target'⟩ := pairing.ahead wf contingent' there second positive'
    -- Two links do not end in one node, so they are the same and start where it starts.
    have same := List.inj_on_of_nodup_map pairing.contingents mem mem' (target.trans target'.symm)
    exact apart (source.symm.trans ((congrArg activation same).trans source'))

section Failing

/-- Whether the contingent edges hold finite values. -/
def FiniteContingents (g : LabeledNetwork) : Prop :=
  ∀ e ∈ g.contingentEdges, ∀ edge, g.edge? e = some edge → ∀ v ∈ edge.values.entries,
    Value.IsFinite v.2

theorem FiniteContingents.of_slots (slots : ∀ s ∈ g.slots.toList, ∀ slot, s = some slot →
    ∀ v ∈ slot.payload.values.entries, Value.IsFinite v.2) : FiniteContingents g := by
  intro e _ edge present v mem
  obtain ⟨slot, stored, rfl⟩ := Option.map_eq_some_iff.mp present
  exact slots _ (Network.mem_slots stored) slot rfl v mem

/-- Whether the first values of the contingent edges have negations. -/
def Negatable (g : LabeledNetwork) : Prop :=
  ∀ e ∈ g.contingentEdges, ∀ v, FirstValue g e v → v.2 ≠ Value.negInf

theorem FiniteContingents.negatable (finite : FiniteContingents g) : Negatable g := by
  rintro e contingent v ⟨edge, stored, head⟩
  exact ne_of_gt (finite e contingent edge stored v (List.mem_of_head? head)).1

theorem Negatable.of_sameRaw (negatable : Negatable g) (same : SameRaw g h) : Negatable h :=
  fun e contingent v first =>
    negatable e (same.mem_contingentEdges.mp contingent) v (same.firstValue_iff.mp first)

theorem rawValue_refuses (e : EdgeId) :
    Ends (rawValue e) d (fun v d' => d' = d ∧ FirstValue d.network e v)
      fun failure _ => ∃ s, failure = .structural s := by
  unfold rawValue
  rw [ends_bind, ends_network]
  split
  · rename_i v read
    obtain ⟨edge, stored, first⟩ := Option.bind_eq_some_iff.mp read
    exact ⟨rfl, edge, stored, first⟩
  · exact ⟨_, rfl⟩

theorem negate_refuses {v : Value} (negatable : v ≠ Value.negInf)
    {err : Failure → Draft LabeledEdge → Prop} :
    Ends (negate v : Preparation LabeledEdge Value) d (fun w d' => d' = d ∧ w = -v) err :=
  negate_overflows.mono (fun _ _ ⟨same, negated, _⟩ => ⟨same, negated⟩) fun _ _ ⟨_, _, lowest⟩ =>
    absurd lowest negatable

theorem storeCaseValues_refuses (forward backward : EdgeId) (letter : CaseLetter) (label : Label)
    (lower : Value) {upper : Value} (negatable : upper ≠ Value.negInf) :
    Ends (storeCaseValues forward backward letter label lower upper) d (fun _ _ => True)
      fun failure _ => ∃ s, failure = .structural s := by
  unfold storeCaseValues
  rw [ends_bind, ends_network]
  refine (negate_refuses negatable).bind ?_
  rintro _ d ⟨rfl, rfl⟩
  dsimp only
  split
  · exact ⟨_, rfl⟩
  · exact trivial

/-- Setting up a link fails with a structural error only, if the bounds have negations and the activation
nodes have names. -/
theorem addLink_refuses (enclosed : d.network.Enclosed) (negatable : Negatable d.network)
    (contingent : e ∈ d.network.contingentEdges) :
    Ends (addLink links used e) d (fun _ _ => True) fun failure _ => ∃ s, failure = .structural s := by
  unfold addLink
  rw [ends_bind, ends_network]
  cases stored : d.network.slot? e with
  | none => exact trivial
  | some slot =>
    obtain ⟨name, source, target, payload⟩ := slot
    dsimp only
    split
    · exact ⟨_, rfl⟩
    rename_i companion paired
    refine (rawValue_refuses e).bind ?_
    rintro ⟨label, value⟩ _ ⟨rfl, first⟩
    refine (rawValue_refuses companion).bind ?_
    rintro ⟨label', value'⟩ _ ⟨rfl, second⟩
    dsimp only
    split
    · exact ⟨_, rfl⟩
    split
    · split
      · exact (negate_refuses (negatable e contingent _ first)).bind fun _ _ _ => ⟨_, rfl⟩
      · exact trivial
    refine (negate_refuses (negatable companion (companion?_eq_some_iff.mp paired).2 _ second)).bind ?_
    rintro _ d ⟨rfl, rfl⟩
    split
    · exact ⟨_, rfl⟩
    rename_i valid
    rw [not_or, not_le, not_le] at valid
    split
    · rename_i activation other
      have inside := enclosed.activation?_lt (Option.filter_eq_some_iff.mp other).1
      have named : d.network.node? activation = some d.network.nodes[activation] :=
        Array.getElem?_eq_getElem inside
      rw [ends_bind, nodeName, ends_bind, ends_network, named]
      exact ⟨_, rfl⟩
    split
    · exact ⟨_, rfl⟩
    · -- The upper bound is positive, so it has a negation.
      have positive : Value.negInf < value := lt_trans (by decide) (valid.1.trans valid.2)
      refine (storeCaseValues_refuses _ _ _ _ _ (ne_of_gt positive)).bind fun _ _ _ => ?_
      exact trivial

/-- The pass over the contingent edges pairs them, or ends with a structural error. -/
theorem prepareAll_pairing (enclosed : d.network.Enclosed) (negatable : Negatable d.network) :
    Ends prepareAll d (fun links d' => Pairing d.network [] links d'.network)
      fun failure _ => ∃ s, failure = .structural s := by
  unfold prepareAll
  rw [ends_bind, ends_network]
  refine Ends.bind (ends_foldlM (fun todo (r : List ContingentLink × CaseLabel)
    (d' : Draft LabeledEdge) => Pairing d.network todo r.1 d'.network ∧ d'.network.Enclosed) ?_ _ _ _
    ⟨.start enclosed.wellFormed, enclosed⟩) fun r _ done => done.1
  rintro e rest ⟨links, used⟩ d' ⟨pairing, enclosed'⟩
  have raw := pairing.raw
  have contingent := raw.mem_contingentEdges.mpr (pairing.within e List.mem_cons_self)
  have keeps : Keeps (fun _ => True) (addLink links used e) d' fun _ _ => True :=
    keeps_addLink trivial enclosed' links used e
  have ends := ((addLink_treated links used e).and
    (addLink_refuses enclosed' (negatable.of_sameRaw raw) contingent)).and keeps
  exact ends.mono (fun r d'' ⟨⟨treated, _⟩, enclosed'', _⟩ =>
    ⟨pairing.step enclosed.wellFormed treated, enclosed''⟩) fun _ _ failed => failed.1.2

end Failing

/-- The links pair the contingent edges: each of these belongs to one link, no two links share their
contingent node or their letter, and each has its values in the network, its contingent node marked and
its activation node entered. Contingent edges that cannot be paired are refused with a structural
error. -/
theorem prepareAll_pairs (g : LabeledNetwork) (enclosed : g.Enclosed) (finite : FiniteContingents g)
    (fixes : List String) :
    (∀ links d', prepareAll.run ⟨g, fixes⟩ = .ok links d' →
      (∀ e ∈ g.contingentEdges, ∃! link, link ∈ links ∧ HasEdge g link e) ∧
      (links.map contingent).Nodup ∧ (links.map letter).Nodup ∧
      ∀ link ∈ links, Given g link ∧
        (∃ edge, d'.network.edgeBetween? link.activation link.contingent = some edge ∧
          edge.lower = some ⟨link.letter, link.label, link.lower⟩) ∧
        d'.network.Covers link.contingent link.activation (.ofLetter link.letter) link.label
          (-link.upper) ∧
        Marked d'.network link ∧ d'.network.activation? link.contingent = some link.activation) ∧
    (Defective g → ∃ s d', prepareAll.run ⟨g, fixes⟩ = .error (.structural s) d') := by
  have ends := prepareAll_pairing (d := ⟨g, fixes⟩) enclosed finite.negatable
  have wf := enclosed.wellFormed
  constructor
  · intro links d' run
    have pairing := ends.of_ok run
    obtain ⟨stored, letters⟩ := (prepareAll_stored (d := ⟨g, fixes⟩) wf).of_ok run
    exact ⟨fun e contingent => pairing.existsUnique_link wf contingent, pairing.contingents, letters,
      fun link mem => ⟨pairing.given link mem, (stored link mem).lower, (stored link mem).upper,
        pairing.marked link mem, pairing.entered link mem⟩⟩
  · intro defective
    cases run : prepareAll.run ⟨g, fixes⟩ with
    | ok links d' => exact absurd defective ((ends.of_ok run).not_defective wf)
    | error failure d' =>
      obtain ⟨s, rfl⟩ := ends.of_error run
      exact ⟨s, d', rfl⟩

/-- Two links whose contingent nodes both ask for the first letter; of the first pair the edge back from
the contingent node comes first. With `shared`, an edge from A enters the second contingent node too. -/
def twinLinksNetwork (shared : Bool) : LabeledNetwork :=
  (Network.build
    [.named "Z", .named "A", { Node.named "C" with letter := some 0 }, .named "B",
      { Node.named "D" with letter := some 0 }]
    ([("CA", 2, 1, .ofValue .contingent .empty (-2)), ("AC", 1, 2, .ofValue .contingent .empty 5),
      ("BD", 3, 4, .ofValue .contingent .empty 7), ("DB", 4, 3, .ofValue .contingent .empty (-3))] ++
      if shared then [("AD", 1, 4, .ofValue .contingent .empty 4),
        ("DA", 4, 1, .ofValue .contingent .empty (-1))] else [])).getD .empty

/-- Each pair gives a link under a letter of its own; D is not activated by two nodes. -/
theorem prepareAll_pairs_twins :
    (∃ links d', prepareAll.run ⟨twinLinksNetwork false, []⟩ = .ok links d' ∧
      (links.map letter).Nodup ∧ ∃! link, link ∈ links ∧ HasEdge (twinLinksNetwork false) link 0) ∧
    Defective (twinLinksNetwork true) ∧
    ∃ s d', prepareAll.run ⟨twinLinksNetwork true, []⟩ = .error (.structural s) d' := by
  have finite : ∀ shared, FiniteContingents (twinLinksNetwork shared) := by
    intro shared
    cases shared <;> exact .of_slots (by decide +kernel)
  have enclosed : ∀ shared, (twinLinksNetwork shared).Enclosed :=
    fun shared => Network.Enclosed.getD_build _ _
  have first : FirstValue (twinLinksNetwork true) 2 (.empty, 7) :=
    Option.bind_eq_some_iff.mp (by decide +kernel)
  have second : FirstValue (twinLinksNetwork true) 4 (.empty, 4) :=
    Option.bind_eq_some_iff.mp (by decide +kernel)
  have defective : Defective (twinLinksNetwork true) :=
    .shared (u := 3) (v := 4) (by decide +kernel) (by decide +kernel) (by decide +kernel) (w := 1)
      (by decide +kernel) (by decide) first second (by decide) (by decide)
  obtain ⟨links, d', run⟩ := exists_of_succeeds (m := prepareAll) (s := ⟨twinLinksNetwork false, []⟩)
    (by decide +kernel)
  obtain ⟨paired, _, letters, _⟩ :=
    (prepareAll_pairs _ (enclosed false) (finite false) []).1 links d' run
  exact ⟨⟨links, d', run, letters, paired 0 (by decide +kernel)⟩, defective,
    (prepareAll_pairs _ (enclosed true) (finite true) []).2 defective⟩

end ContingentLink

end TemporalNetwork
