import TemporalNetwork.Proofs.Conditional.Projection

/-!
The values a contingent link is given when it is set up: a lower-case value on the edge from its
activation node and an upper-case value on the edge back, under a letter of its own.
-/

namespace TemporalNetwork

/-- Whether `h` covers what `g` covers, and has the lower-case values of `g`. -/
def Network.Enriches (g h : LabeledNetwork) : Prop :=
  ∀ u v e, g.edgeBetween? u v = some e → ∃ f, h.edgeBetween? u v = some f ∧
    (∀ c l x, e.Covers c l x → f.Covers c l x) ∧
    ∀ lower, e.lower = some lower → f.lower = some lower

namespace Network

variable {g h k : LabeledNetwork} {u v : NodeId}

theorem Enriches.trans (first : g.Enriches h) (second : h.Enriches k) : g.Enriches k := by
  intro u v e joined
  obtain ⟨f, joined', covers, lower⟩ := first u v e joined
  obtain ⟨d, joined'', covers', lower'⟩ := second u v f joined'
  exact ⟨d, joined'', fun c l x covered => covers' c l x (covers c l x covered),
    fun low stored => lower' low (lower low stored)⟩

theorem Enriches.of_edges (edges : ∀ u v, h.edgeBetween? u v = g.edgeBetween? u v) :
    g.Enriches h :=
  fun u v e joined => ⟨e, (edges u v).trans joined, fun _ _ _ => id, fun _ => id⟩

theorem Grows.enriches (grows : g.Grows h) : g.Enriches h := by
  intro u v e joined
  obtain ⟨f, joined', grown⟩ := grows.edge u v e joined
  exact ⟨f, joined', grown.covers, fun lower stored => grown.lower.trans stored⟩

theorem Enriches.of_modifyEdge (wf : g.WellFormed) {e : EdgeId} {f : LabeledEdge → LabeledEdge}
    (found : g.findEdge? u v = some e)
    (modified : ∀ edge, g.edgeBetween? u v = some edge →
      (∀ c l x, edge.Covers c l x → (f edge).Covers c l x) ∧
      ∀ lower, edge.lower = some lower → (f edge).lower = some lower) :
    g.Enriches (g.modifyEdge e f) := by
  intro a b edge joined
  rw [edgeBetween?_modifyEdge wf found, joined]
  split
  · rename_i here
    obtain ⟨rfl, rfl⟩ := here
    exact ⟨f edge, rfl, modified edge joined⟩
  · exact ⟨edge, rfl, fun _ _ _ => id, fun _ => id⟩

theorem Enriches.covers (enriches : g.Enriches h) {case : CaseLabel} {label : Label}
    {value : Value} (covered : g.Covers u v case label value) : h.Covers u v case label value := by
  obtain ⟨e, joined, covers⟩ := covered
  obtain ⟨f, joined', more, _⟩ := enriches u v e joined
  exact ⟨f, joined', more _ _ _ covers⟩

theorem mem_contingentEdges {g : LabeledNetwork} {e : EdgeId} :
    e ∈ g.contingentEdges ↔ ∃ edge, g.edge? e = some edge ∧ edge.kind = .contingent := by
  have stored : e ∈ g.edgeIds ↔ (g.edge? e).isSome = true := by
    rw [mem_edgeIds, edge?, Option.isSome_map]
  rw [contingentEdges, List.mem_filter, stored]
  cases g.edge? e with
  | none => simp
  | some edge => simp [EdgePayload.kind]

end Network

namespace ContingentLink

open Preparation

/-- What setting up a link leaves in the network. -/
structure Stored (g : LabeledNetwork) (link : ContingentLink) : Prop where
  apart : link.activation ≠ link.contingent
  positive : 0 < link.lower
  range : link.lower < link.upper
  lower : ∃ e, g.edgeBetween? link.activation link.contingent = some e ∧
    e.lower = some ⟨link.letter, link.label, link.lower⟩
  longest : g.Covers link.activation link.contingent .empty link.label link.upper
  upper : g.Covers link.contingent link.activation (.ofLetter link.letter) link.label (-link.upper)

theorem Stored.enriches {g h : LabeledNetwork} {link : ContingentLink} (stored : Stored g link)
    (enriches : g.Enriches h) : Stored h link where
  apart := stored.apart
  positive := stored.positive
  range := stored.range
  lower := by
    obtain ⟨e, joined, low⟩ := stored.lower
    obtain ⟨f, joined', _, kept⟩ := enriches _ _ e joined
    exact ⟨f, joined', kept _ low⟩
  longest := enriches.covers stored.longest
  upper := enriches.covers stored.upper

variable {d : Draft LabeledEdge} {links : List ContingentLink}

theorem withCaseValues_enriches {g : LabeledNetwork} (wf : g.WellFormed) {source target : NodeId}
    {forward backward : EdgeId} (there : g.findEdge? source target = some forward)
    (back : g.findEdge? target source = some backward) {letter : CaseLetter} {label : Label}
    {lower upper : Value} (finite : -upper ≠ Value.posInf)
    (agrees : ∀ edge low, g.edge? forward = some edge → edge.lower = some low →
      low = ⟨letter, label, lower⟩) :
    g.Enriches (withCaseValues g forward backward letter label lower upper) ∧
      (∃ e, (withCaseValues g forward backward letter label lower upper).edgeBetween? source target =
        some e ∧ e.lower = some ⟨letter, label, lower⟩) ∧
      (withCaseValues g forward backward letter label lower upper).Covers target source
        (.ofLetter letter) label (-upper) := by
  obtain ⟨edge, stored, joined⟩ := Network.edge?_of_findEdge? wf there
  obtain ⟨edge', _, joined'⟩ := Network.edge?_of_findEdge? wf back
  have wf₁ := wf.modifyEdge forward (fun edge => { edge with lower := some ⟨letter, label, lower⟩ })
  have first : g.Enriches (g.modifyEdge forward
      fun edge => { edge with lower := some ⟨letter, label, lower⟩ }) := by
    refine .of_modifyEdge wf there fun edge₁ joined₁ => ⟨fun _ _ _ => id, fun low present => ?_⟩
    rw [joined] at joined₁
    cases joined₁
    rw [agrees edge low stored present]
  have back₁ : (g.modifyEdge forward
      fun edge => { edge with lower := some ⟨letter, label, lower⟩ }).findEdge? target source =
      some backward := back
  have second := Network.Enriches.of_modifyEdge wf₁ back₁
    (f := fun edge => (edge.merge (.ofLetter letter) label (-upper)).1) fun edge₁ _ =>
      ⟨fun _ _ _ covered => LabeledEdge.covers_merge covered, fun low present =>
        (LabeledEdge.growsTo_merge edge₁ (.ofLetter letter) label (-upper)).lower.trans present⟩
  refine ⟨first.trans second, ?_, ?_⟩
  · obtain ⟨f, joined₂, _, kept⟩ := second source target _
      (by rw [Network.edgeBetween?_modifyEdge wf there, if_pos ⟨rfl, rfl⟩, joined]; rfl)
    exact ⟨f, joined₂, kept _ rfl⟩
  · obtain ⟨edge₁, joined₁, _⟩ := first target source edge' joined'
    refine ⟨(edge₁.merge (.ofLetter letter) label (-upper)).1, ?_,
      LabeledEdge.merge_covers_self _ _ _ finite⟩
    rw [withCaseValues, Network.edgeBetween?_modifyEdge wf₁ back₁, if_pos ⟨rfl, rfl⟩, joined₁]
    rfl

theorem findEdge?_of_companion {g : LabeledNetwork} {source target : NodeId} {companion : EdgeId}
    (paired : companion? g source target = some companion) :
    g.findEdge? target source = some companion :=
  (Option.filter_eq_some_iff.mp paired).1

theorem chooseLetter_spec {used : CaseLabel} {own : Option CaseLetter} {letter : CaseLetter}
    (all : ∀ link ∈ links, used.contains link.letter = true)
    (chosen : chooseLetter links used own = some letter) :
    ∀ link ∈ links, link.letter ≠ letter := by
  unfold chooseLetter at chosen
  intro link mem
  split at chosen
  · rename_i c free
    cases chosen
    have others := List.all_eq_true.mp (Option.filter_eq_some_iff.mp free).2 link mem
    simpa using others
  · have unused := List.find?_some chosen
    rintro rfl
    rw [all link mem] at unused
    cases unused

/-- The links that have been set up, each under a letter of its own. -/
structure AllStored (g : LabeledNetwork) (links : List ContingentLink) (used : CaseLabel) : Prop where
  wellFormed : g.WellFormed
  stored : ∀ link ∈ links, Stored g link
  used : ∀ link ∈ links, used.contains link.letter = true
  letters : (links.map letter).Nodup

theorem AllStored.append {g h : LabeledNetwork} {used : CaseLabel} (all : AllStored g links used)
    (enriches : g.Enriches h) (wf : h.WellFormed) {link : ContingentLink}
    (free : ∀ other ∈ links, other.letter ≠ link.letter) (stored : Stored h link) :
    AllStored h (links ++ [link]) (used ∪ CaseLabel.ofLetter link.letter) where
  wellFormed := wf
  stored other mem := by
    rcases List.mem_append.mp mem with mem | mem
    · exact (all.stored other mem).enriches enriches
    · rwa [List.mem_singleton.mp mem]
  used other mem := by
    rw [CaseLabel.contains_union, CaseLabel.contains_ofLetter]
    rcases List.mem_append.mp mem with mem | mem
    · rw [all.used other mem, Bool.true_or]
    · simp [List.mem_singleton.mp mem]
  letters := by
    rw [List.map_append, List.map_singleton]
    refine List.nodup_append.mpr ⟨all.letters, List.pairwise_singleton _ _, ?_⟩
    intro c mem c' mem'
    obtain ⟨other, listed, rfl⟩ := List.mem_map.mp mem
    rw [List.mem_singleton.mp mem']
    exact free other listed

/-- One edge would have one value in both directions. -/
theorem apart_of_values {g : LabeledNetwork} {e companion : EdgeId} {slot : EdgeSlot LabeledEdge}
    {v v' : Label × Value} (there : g.findEdge? slot.source slot.target = some e)
    (back : g.findEdge? slot.target slot.source = some companion) (first : FirstValue g e v)
    (second : FirstValue g companion v') (differ : v.2 ≠ v'.2) : slot.source ≠ slot.target := by
  intro same
  rw [same] at there back
  obtain rfl := Option.some.inj (there.symm.trans back)
  obtain ⟨edge, stored, head⟩ := first
  obtain ⟨edge', stored', head'⟩ := second
  obtain rfl := Option.some.inj (stored.symm.trans stored')
  exact differ (congrArg Prod.snd (Option.some.inj (head.symm.trans head')))

theorem FirstValue.covers {g : LabeledNetwork} (wf : g.WellFormed) {u v : NodeId} {e : EdgeId}
    {label : Label} {value : Value} (first : FirstValue g e (label, value))
    (found : g.findEdge? u v = some e) : g.Covers u v .empty label value := by
  obtain ⟨edge, stored, head⟩ := first
  obtain ⟨edge', stored', joined⟩ := Network.edge?_of_findEdge? wf found
  rw [stored] at stored'
  cases stored'
  exact ⟨edge, joined, Or.inl (ValueMap.dominates_iff.mpr ⟨(label, value), List.mem_of_head? head,
    Label.subsumes_refl label, le_rfl⟩)⟩

theorem AllStored.treated {g h : LabeledNetwork} {used : CaseLabel} {e : EdgeId}
    {r : List ContingentLink × CaseLabel} (treated : Treated g links used e r h)
    (all : AllStored g links used) : AllStored h r.1 r.2 := by
  cases treated with
  | absent => exact all
  | behind => exact all
  | @ahead slot companion label label' value value' letter stored paired first second positive range
      free chosen agrees =>
    have there := all.wellFormed.findEdge?_of_slot stored
    have back := findEdge?_of_companion paired
    have finite : -value ≠ Value.posInf := by
      intro infinite
      have : (0 : Int) < 2147483647 := by decide
      have : -value = 2147483647 := infinite
      lia
    obtain ⟨enriches, low, up⟩ := withCaseValues_enriches all.wellFormed there back finite agrees
    have same : ∀ k : LabeledNetwork, k.Enriches (enter k slot.source slot.target letter) :=
      fun k => .of_edges fun _ _ => rfl
    have wf' := kept_wellFormed.treated
      (.ahead stored paired first second positive range free chosen agrees) all.wellFormed
    have new : Stored (enter (withCaseValues g e companion letter label (-value') value) slot.source
        slot.target letter) ⟨slot.source, slot.target, letter, label, -value', value⟩ := {
      apart := apart_of_values there back first second (by dsimp only; lia)
      positive := positive
      range := range
      lower := low
      longest := (enriches.trans (same _)).covers (first.covers all.wellFormed there)
      upper := up }
    exact all.append (enriches.trans (same _)) wf' (chooseLetter_spec all.used chosen) new

theorem prepareAll_stored (wf : d.network.WellFormed) :
    Ends prepareAll d (fun links d' => (∀ link ∈ links, Stored d'.network link) ∧
      (links.map letter).Nodup) fun _ _ => True := by
  refine (prepareAll_induct (I := fun _ links used g => AllStored g links used)
    (fun _ _ _ _ _ _ _ all treated => all.treated treated) ⟨wf, nofun, nofun, .nil⟩).mono
    (fun _ _ ⟨_, all⟩ => ⟨all.stored, all.letters⟩) fun _ _ => id

end ContingentLink

namespace CstnuChecker

open ContingentLink

theorem kept_unlabelled (withNodeLabels : Bool) :
    ContingentLink.Kept fun g => g.Unlabelled withNodeLabels where
  modifyEdge _ _ _ h := h
  modifyNode g n letter h := by
    intro on m
    rw [WellDefined.nodeD_modifyNode]
    split
    · exact h on m
    · exact h on m
  setActivation _ _ _ h := h

/-- What the preparation for the controllability check leaves in a network without node labels. -/
theorem prepare_stored {withNodeLabels : Bool} {d : Draft LabeledEdge} (wf : d.network.WellFormed)
    (unlabelled : d.network.Unlabelled withNodeLabels) :
    Ends (prepare withNodeLabels) d
      (fun r d' => d'.network.Unlabelled withNodeLabels ∧
        (∀ link ∈ r.2.1, Stored d'.network link) ∧ (r.2.1.map letter).Nodup ∧
        ∀ n < d'.network.nodeCount, n ≠ r.1 → d'.network.Covers n r.1 .empty .empty 0)
      fun _ _ => True := by
  unfold prepare
  have repaired := (WellDefined.prepare_ends (I := Network.WellFormed)
    WellDefined.kept_wellFormed wf).and (WellDefined.prepare_retains unlabelled wf)
  refine (repaired.mono (fun _ _ => id) fun _ _ _ => trivial).bind fun z d₁ prepared => ?_
  obtain ⟨⟨wf₁, inside, _⟩, retains⟩ := prepared
  have kept := kept_unlabelled withNodeLabels
  have linked := (prepareAll_stored wf₁).and (prepareAll_ends
    (ContingentLink.kept_wellFormed.and ((kept_nodeCount z).and kept)) ⟨wf₁, inside, retains.unlabelled⟩)
  refine (linked.mono (fun _ _ => id) fun _ _ _ => trivial).bind fun links d₂ result => ?_
  obtain ⟨⟨stored, letters⟩, ⟨wf₂, inside₂, unlabelled₂⟩, _⟩ := result
  rw [ends_bind, Preparation.ends_network]
  split
  · exact trivial
  · rename_i horizon known
    rw [ends_bind, Preparation.ends_modifyNetwork]
    have finite := (Network.horizon?_spec known).1.2
    obtain ⟨_, grows, bounds⟩ := Network.addBounds_spec wf₂ inside₂ horizon.value
      (ne_of_lt finite) withNodeLabels
    have unlabelled₃ := unlabelled₂.of_nodes grows.nodes
    refine ⟨unlabelled₃, fun link mem => (stored link mem).enriches grows.enriches, letters, ?_⟩
    intro n lt apart
    have early := (bounds n (grows.nodeCount ▸ lt) apart).1
    rwa [unlabelled₃.boundLabel] at early

end CstnuChecker

end TemporalNetwork
