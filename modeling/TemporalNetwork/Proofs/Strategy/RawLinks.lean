import TemporalNetwork.Proofs.Conditional.Links
import TemporalNetwork.Proofs.Strategy.UpperCase

/-!
The links of a network without labels that is given by its edges alone. Setting them up adds the case
values of the links and nothing else; the links are those that the pairs of contingent edges give.
-/

namespace TemporalNetwork

/-- Whether the edge is as it can be given: at most one value, which has no label, and no case
values. -/
structure LabeledEdge.Raw (e : LabeledEdge) : Prop where
  labelless : ∀ l w, (l, w) ∈ e.values.entries → l = .empty
  inRange : ∀ l w, (l, w) ∈ e.values.entries → Value.InRange w
  distinct : e.values.labels.Nodup
  upper : e.upper.groups = []
  lower : e.lower = none

instance (e : LabeledEdge) : Decidable e.Raw :=
  decidable_of_iff ((∀ v ∈ e.values.entries, v.1 = .empty ∧ Value.InRange v.2) ∧
      e.values.labels.Nodup ∧ e.upper.groups = [] ∧ e.lower = none)
    ⟨fun ⟨values, distinct, upper, lower⟩ => ⟨fun _ _ mem => (values _ mem).1,
        fun _ _ mem => (values _ mem).2, distinct, upper, lower⟩,
      fun raw => ⟨fun v mem => ⟨raw.labelless v.1 v.2 mem, raw.inRange v.1 v.2 mem⟩, raw.distinct,
        raw.upper, raw.lower⟩⟩

/-- Whether all edges of the network are raw. -/
def Network.Raw (g : LabeledNetwork) : Prop := ∀ u v e, g.edgeBetween? u v = some e → e.Raw

theorem Network.raw_of_forall_mem {g : LabeledNetwork} (wf : g.WellFormed)
    (each : ∀ s ∈ g.slots.toList, ∀ t, s = some t → t.payload.Raw) : g.Raw := by
  intro u v e joined
  obtain ⟨i, slot, stored, _, _, rfl⟩ := wf.edgeBetween?_eq_some_iff.mp joined
  rw [slot?, Option.join_eq_some_iff] at stored
  exact each _ (Array.mem_toList_iff.mpr (Array.mem_of_getElem? stored)) slot rfl

namespace LabeledEdge.Raw

variable {e : LabeledEdge} {l l' : Label} {w w' : Value}

theorem eq_of_mem (raw : e.Raw) (mem : (l, w) ∈ e.values.entries) (mem' : (l', w') ∈ e.values.entries) :
    w = w' := by
  have same : l = l' := (raw.labelless l w mem).trans (raw.labelless l' w' mem').symm
  exact congrArg Prod.snd (List.inj_on_of_nodup_map raw.distinct mem mem' same)

theorem ordinary (raw : e.Raw) {case : CaseLabel} (mem : (case, l, w) ∈ e.allValues) :
    case = .empty ∧ (l, w) ∈ e.values.entries := by
  rcases LabeledEdge.mem_allValues.mp mem with here | ⟨m, group, _⟩
  · exact here
  · rw [raw.upper] at group
    cases group

end LabeledEdge.Raw

theorem CaseLabel.isEmpty_ofLetter (c : CaseLetter) : (ofLetter c).isEmpty = false := by
  rw [← Bool.not_eq_true, isEmpty_iff]
  intro same
  have inside := contains_ofLetter c c
  rw [same, contains_empty] at inside
  simp at inside

theorem LabeledEdge.values_merge {e : LabeledEdge} {case : CaseLabel} {label : Label} {value : Value}
    (lettered : case.isEmpty = false) : (e.merge case label value).1.values = e.values := by
  rw [merge, if_neg (by simp [lettered])]
  split <;> rfl

namespace Network

theorem map_edge?_modifyEdge {β : Type} {g : LabeledNetwork} {e : EdgeId}
    {f : LabeledEdge → LabeledEdge} (p : LabeledEdge → β) (same : ∀ edge, p (f edge) = p edge)
    (i : EdgeId) : ((g.modifyEdge e f).edge? i).map p = (g.edge? i).map p := by
  rw [edge?_modifyEdge]
  split
  · rw [Option.map_map]
    congr 1
    funext edge
    exact same edge
  · rfl

/-- Whether a contingent edge from `u` to `v` has the value `w`. -/
def ContingentValue (g : LabeledNetwork) (u v : NodeId) (w : Value) : Prop :=
  ∃ e, g.edgeBetween? u v = some e ∧ e.kind = .contingent ∧ (Label.empty, w) ∈ e.values.entries

/-- Whether a link is given by the contingent edges of the network. -/
structure HasLink (g : LabeledNetwork) (link : StnuLink) : Prop where
  ahead : g.ContingentValue link.activation link.contingent link.upper
  behind : g.ContingentValue link.contingent link.activation (-link.lower)
  positive : 0 < link.lower
  range : link.lower < link.upper

theorem Raw.contingentValue_eq {g : LabeledNetwork} (raw : g.Raw) {u v : NodeId} {w w' : Value}
    (first : g.ContingentValue u v w) (second : g.ContingentValue u v w') : w = w' := by
  obtain ⟨e, joined, _, mem⟩ := first
  obtain ⟨e', joined', _, mem'⟩ := second
  rw [joined] at joined'
  cases joined'
  exact (raw u v e joined).eq_of_mem mem mem'

theorem Raw.hasLink_eq {g : LabeledNetwork} (raw : g.Raw) {link link' : StnuLink}
    (first : g.HasLink link) (second : g.HasLink link')
    (activation : link.activation = link'.activation) (contingent : link.contingent = link'.contingent) :
    link = link' := by
  obtain ⟨a, c, lower, upper⟩ := link
  obtain ⟨a', c', lower', upper'⟩ := link'
  dsimp only at activation contingent
  subst activation contingent
  have : upper = upper' := raw.contingentValue_eq first.ahead second.ahead
  have : -lower = -lower' := raw.contingentValue_eq first.behind second.behind
  have : lower = lower' := by lia
  subst_vars
  rfl

end Network

namespace ContingentLink

/-- Whether a value is one of the network, or the upper-case value of one of the links. -/
def Lettered (g : LabeledNetwork) (links : List ContingentLink) : ValueProperty := fun u v case label w =>
  label = .empty ∧
    ((case = .empty ∧ ∃ e, g.edgeBetween? u v = some e ∧ (Label.empty, w) ∈ e.values.entries) ∨
      ∃ link ∈ links, case = .ofLetter link.letter ∧ u = link.contingent ∧ v = link.activation ∧
        w = -link.upper)

theorem joins_lettered (g : LabeledNetwork) (links : List ContingentLink) (u v : NodeId) :
    Joins (Lettered g links u v) := joins_labelless _

/-- The network `h` has been made of `g` by setting up the links; the contingent edges of `todo` are still
to come. -/
structure Recorded (g : LabeledNetwork) (todo : List EdgeId) (links : List ContingentLink)
    (h : LabeledNetwork) : Prop where
  wellFormed : h.WellFormed
  found : ∀ u v, h.findEdge? u v = g.findEdge? u v
  edges : ∀ e, (h.edge? e).map (fun edge => (edge.kind, edge.values)) =
    (g.edge? e).map fun edge => (edge.kind, edge.values)
  upper : h.EveryValue (Lettered g links)
  lower : h.EveryLower fun u v low => ∃ link ∈ links, link.activation = u ∧ link.contingent = v ∧
    low = ⟨link.letter, .empty, link.lower⟩
  real : ∀ link ∈ links, link.label = .empty ∧ g.HasLink link.plain
  within : ∀ e ∈ todo, ∃ edge, g.edge? e = some edge ∧ edge.kind = .contingent
  treated : ∀ u v w, g.ContingentValue u v w → (∃ e ∈ todo, g.findEdge? u v = some e) ∨
    (∃ link ∈ links, link.activation = u ∧ link.contingent = v) ∨
      w < 0 ∧ ∃ w', 0 < w' ∧ g.ContingentValue v u w'

variable {g h : LabeledNetwork} {todo rest : List EdgeId} {links : List ContingentLink}
  {link : ContingentLink} {e companion : EdgeId} {u v : NodeId} {label : Label} {w : Value}
  {used : CaseLabel} {r : List ContingentLink × CaseLabel}

theorem Recorded.start (wf : g.WellFormed) (raw : g.Raw) : Recorded g g.contingentEdges [] g where
  wellFormed := wf
  found _ _ := rfl
  edges _ := rfl
  upper u v e joined case l w mem := by
    obtain ⟨plain, mem'⟩ := (raw u v e joined).ordinary mem
    obtain rfl := (raw u v e joined).labelless l w mem'
    exact ⟨rfl, Or.inl ⟨plain, e, joined, mem'⟩⟩
  lower u v e low joined stored := by
    rw [(raw u v e joined).lower] at stored
    cases stored
  real := nofun
  within _ mem := Network.mem_contingentEdges.mp mem
  treated u v w := by
    rintro ⟨edge, joined, kind, _⟩
    obtain ⟨e, found, stored⟩ := Option.bind_eq_some_iff.mp joined
    exact Or.inl ⟨e, Network.mem_contingentEdges.mpr ⟨edge, stored, kind⟩, found⟩

theorem map_edge?_withCaseValues (g : LabeledNetwork) (forward backward : EdgeId) (letter : CaseLetter)
    (label : Label) (lower upper : Value) (i : EdgeId) :
    ((withCaseValues g forward backward letter label lower upper).edge? i).map
      (fun edge => (edge.kind, edge.values)) = (g.edge? i).map fun edge => (edge.kind, edge.values) := by
  rw [withCaseValues, Network.map_edge?_modifyEdge, Network.map_edge?_modifyEdge]
  · exact fun _ => rfl
  · intro edge
    rw [(LabeledEdge.growsTo_merge edge _ _ _).kind,
      LabeledEdge.values_merge (CaseLabel.isEmpty_ofLetter letter)]

namespace Recorded

theorem edge?_eq (recorded : Recorded g todo links h) {edge : LabeledEdge} (stored : h.edge? e = some edge) :
    ∃ old, g.edge? e = some old ∧ old.kind = edge.kind ∧ old.values = edge.values := by
  have same := recorded.edges e
  rw [stored, Option.map_some] at same
  obtain ⟨old, stored', same'⟩ := Option.map_eq_some_iff.mp same.symm
  exact ⟨old, stored', congrArg Prod.fst same', congrArg Prod.snd same'⟩

theorem contingentValue (recorded : Recorded g todo links h) (raw : g.Raw) {edge : LabeledEdge}
    (found : h.findEdge? u v = some e) (stored : g.edge? e = some edge) (kind : edge.kind = .contingent)
    (first : FirstValue h e (label, w)) : label = .empty ∧ g.ContingentValue u v w := by
  obtain ⟨edge', stored', head⟩ := first
  obtain ⟨old, same, _, values⟩ := recorded.edge?_eq stored'
  rw [stored] at same
  cases same
  have mem := List.mem_of_head? head
  rw [← values] at mem
  rw [recorded.found] at found
  have joined : g.edgeBetween? u v = some edge := by
    rw [Network.edgeBetween?, found]
    exact stored
  obtain rfl := (raw u v edge joined).labelless label w mem
  exact ⟨rfl, edge, joined, kind, mem⟩

/-- An edge that needs no link of its own, or has one, is done with. -/
theorem settle (recorded : Recorded g (e :: rest) links h)
    (here : ∀ u v w, g.findEdge? u v = some e → g.ContingentValue u v w →
      (∃ link ∈ links, link.activation = u ∧ link.contingent = v) ∨
        w < 0 ∧ ∃ w', 0 < w' ∧ g.ContingentValue v u w') : Recorded g rest links h where
  __ := recorded
  within d mem := recorded.within d (List.mem_cons_of_mem e mem)
  treated u v w given := by
    rcases recorded.treated u v w given with ⟨d, mem, found⟩ | done
    · rcases List.mem_cons.mp mem with rfl | later
      · exact Or.inr (here u v w found given)
      · exact Or.inl ⟨d, later, found⟩
    · exact Or.inr done

theorem lettered_extend (recorded : Recorded g todo links h) (labelless : link.label = .empty)
    (there : h.findEdge? link.activation link.contingent = some e)
    (back : h.findEdge? link.contingent link.activation = some companion) :
    (withCaseValues h e companion link.letter link.label link.lower link.upper).EveryValue
      (Lettered g (links ++ [link])) := by
  have new : Lettered g (links ++ [link]) link.contingent link.activation (.ofLetter link.letter)
      link.label (-link.upper) :=
    ⟨labelless, Or.inr ⟨link, List.mem_append_right _ List.mem_cons_self, rfl, rfl, rfl, rfl⟩⟩
  have more : h.EveryValue (Lettered g (links ++ [link])) := by
    refine recorded.upper.mono fun u v case label w ⟨plain, holds⟩ => ⟨plain, holds.imp_right ?_⟩
    rintro ⟨other, mem, same⟩
    exact ⟨other, List.mem_append_left _ mem, same⟩
  have first := more.modifyEdge recorded.wellFormed there (f := fun edge =>
    { edge with lower := some ⟨link.letter, link.label, link.lower⟩ }) fun _ every => every
  exact first.modifyEdge (recorded.wellFormed.modifyEdge e _) back fun edge every =>
    every.merge (joins_lettered _ _ _ _) new

theorem lower_extend (recorded : Recorded g todo links h) (labelless : link.label = .empty)
    (there : h.findEdge? link.activation link.contingent = some e)
    (back : h.findEdge? link.contingent link.activation = some companion) :
    (withCaseValues h e companion link.letter link.label link.lower link.upper).EveryLower
      fun u v low => ∃ other ∈ links ++ [link], other.activation = u ∧ other.contingent = v ∧
        low = ⟨other.letter, .empty, other.lower⟩ := by
  have more : h.EveryLower fun u v low => ∃ other ∈ links ++ [link], other.activation = u ∧
      other.contingent = v ∧ low = ⟨other.letter, .empty, other.lower⟩ := by
    intro u v edge low joined stored
    obtain ⟨other, mem, same⟩ := recorded.lower u v edge low joined stored
    exact ⟨other, List.mem_append_left _ mem, same⟩
  have first := more.modifyEdge recorded.wellFormed there (f := fun edge =>
    { edge with lower := some ⟨link.letter, link.label, link.lower⟩ }) fun edge low _ stored =>
      ⟨link, List.mem_append_right _ List.mem_cons_self, rfl, rfl,
        labelless ▸ (Option.some.inj stored).symm⟩
  refine first.modifyEdge (recorded.wellFormed.modifyEdge e _) back fun edge low kept stored =>
    kept low ?_
  rwa [(LabeledEdge.growsTo_merge edge _ _ _).lower] at stored

theorem extend (recorded : Recorded g todo links h) (labelless : link.label = .empty)
    (real : g.HasLink link.plain) (there : h.findEdge? link.activation link.contingent = some e)
    (back : h.findEdge? link.contingent link.activation = some companion) :
    Recorded g todo (links ++ [link])
      (enter (withCaseValues h e companion link.letter link.label link.lower link.upper)
        link.activation link.contingent link.letter) where
  wellFormed := (((recorded.wellFormed.modifyEdge e _).modifyEdge companion _).modifyNode _ _).setActivation
    _ _
  found := recorded.found
  edges i := (map_edge?_withCaseValues h e companion link.letter link.label link.lower link.upper i).trans
    (recorded.edges i)
  upper u v edge joined := recorded.lettered_extend labelless there back u v edge joined
  lower u v edge low joined := recorded.lower_extend labelless there back u v edge low joined
  real other mem := by
    rcases List.mem_append.mp mem with mem | mem
    · exact recorded.real other mem
    · rw [List.mem_singleton.mp mem]
      exact ⟨labelless, real⟩
  within := recorded.within
  treated u v w given := by
    rcases recorded.treated u v w given with todo | ⟨other, mem, same⟩ | behind
    · exact Or.inl todo
    · exact Or.inr (Or.inl ⟨other, List.mem_append_left _ mem, same⟩)
    · exact Or.inr (Or.inr behind)

theorem companionValue (recorded : Recorded g todo links h) (raw : g.Raw)
    (paired : companion? h u v = some companion) (first : FirstValue h companion (label, w)) :
    g.ContingentValue v u w := by
  obtain ⟨found, contingent⟩ := Option.filter_eq_some_iff.mp paired
  have ⟨edge, stored, _⟩ := first
  rw [stored, Option.any_some, beq_iff_eq] at contingent
  obtain ⟨old, stored', kind, _⟩ := recorded.edge?_eq stored
  exact (recorded.contingentValue raw found stored' (kind.trans contingent) first).2

theorem step (recorded : Recorded g (e :: rest) links h) (raw : g.Raw) {k : LabeledNetwork}
    (treated : Treated h links used e r k) : Recorded g rest r.1 k := by
  obtain ⟨edge, present, kind⟩ := recorded.within e List.mem_cons_self
  have ends : ∀ {slot u v}, h.slot? e = some slot → g.findEdge? u v = some e →
      slot.source = u ∧ slot.target = v := by
    intro slot u v stored found
    rw [← recorded.found] at found
    obtain ⟨slot', stored', source, target⟩ := (recorded.wellFormed.listed u v e).mp found
    rw [stored] at stored'
    cases stored'
    exact ⟨source, target⟩
  cases treated with
  | absent unstored =>
    have absent : h.edge? e = none := by rw [Network.edge?, unstored, Option.map_none]
    have same := recorded.edges e
    rw [absent, present] at same
    cases same
  | behind stored paired first second negative positive =>
    have there := recorded.wellFormed.findEdge?_of_slot stored
    obtain ⟨_, value⟩ := recorded.contingentValue raw there present kind first
    have back := recorded.companionValue raw paired second
    refine recorded.settle fun u v w found given => ?_
    obtain ⟨rfl, rfl⟩ := ends stored found
    exact Or.inr ⟨raw.contingentValue_eq value given ▸ negative, _, positive, back⟩
  | @ahead slot companion label label' value value' letter stored paired first second positive range =>
    have there := recorded.wellFormed.findEdge?_of_slot stored
    obtain ⟨labelless, ahead⟩ := recorded.contingentValue raw there present kind first
    have back := recorded.companionValue raw paired second
    have real : g.HasLink ⟨slot.source, slot.target, -value', value⟩ :=
      ⟨ahead, (neg_neg value').symm ▸ back, positive, range⟩
    have extended : Recorded g (e :: rest) (links ++ [⟨slot.source, slot.target, letter, label, -value',
        value⟩]) _ := recorded.extend labelless real there (findEdge?_of_companion paired)
    refine extended.settle fun u v w found _ => Or.inl ?_
    obtain ⟨rfl, rfl⟩ := ends stored found
    exact ⟨_, List.mem_append_right _ List.mem_cons_self, rfl, rfl⟩

theorem exists_link (recorded : Recorded g [] links h) (given : g.ContingentValue u v w) :
    ∃ link ∈ links, (link.activation = u ∧ link.contingent = v) ∨
      (link.activation = v ∧ link.contingent = u) := by
  rcases recorded.treated u v w given with ⟨_, mem, _⟩ | ⟨link, mem, same⟩ | ⟨_, w', positive, back⟩
  · cases mem
  · exact ⟨link, mem, Or.inl same⟩
  · rcases recorded.treated v u w' back with ⟨_, mem, _⟩ | ⟨link, mem, same⟩ | ⟨negative, _⟩
    · cases mem
    · exact ⟨link, mem, Or.inr same⟩
    · exact absurd negative (not_lt.mpr positive.le)

theorem mem_iff (recorded : Recorded g [] links h) (raw : g.Raw) {link : StnuLink} :
    link ∈ links.map plain ↔ g.HasLink link := by
  constructor
  · intro mem
    obtain ⟨other, listed, rfl⟩ := List.mem_map.mp mem
    exact (recorded.real other listed).2
  · intro real
    rcases recorded.treated _ _ _ real.ahead with ⟨_, mem, _⟩ | ⟨other, mem, activation, contingent⟩ |
      ⟨negative, _⟩
    · cases mem
    · exact List.mem_map.mpr ⟨other, mem,
        raw.hasLink_eq (recorded.real other mem).2 real activation contingent⟩
    · exact absurd (real.positive.trans real.range) (not_lt.mpr negative.le)

end Recorded

/-- What setting up the links does to a raw network. -/
theorem prepareAll_recorded {d : Draft LabeledEdge} (wf : d.network.WellFormed) (raw : d.network.Raw) :
    Ends prepareAll d (fun links d' => Recorded d.network [] links d'.network) fun _ _ => True :=
  (prepareAll_induct (I := fun todo links _ h => Recorded d.network todo links h)
    (fun _ _ _ _ _ _ _ recorded treated => recorded.step raw treated) (.start wf raw)).mono
    (fun _ _ ⟨_, recorded⟩ => recorded) fun _ _ => id

end ContingentLink

end TemporalNetwork
