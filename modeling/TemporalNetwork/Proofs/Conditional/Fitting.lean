import TemporalNetwork.Conditional.WellDefined
import TemporalNetwork.Proofs.Conditional.Closure
import TemporalNetwork.Proofs.Values.EveryValue
import TemporalNetwork.Proofs.Values.Reduced

/-!
Labels that fit the ends of an edge. A value is kept as it is if and only if its label fits; a value
that gets another label gets one that fits. Where two twins fit, so does what they are joined to, and a
label whose twin fits either fits as well or is dropped as a contradiction.
-/

namespace TemporalNetwork

namespace Label

variable {a d k : Label} {l : Literal} {f : Proposition → Option Label}

/-- What a label and a refinement of its twin both refine does not mention the proposition on which
they differ. -/
theorem erase_subsumes_of_twin (flips : l ∈ ValueMap.flippable a) (here : a.subsumes k = true)
    (refines : d.subsumes (a.replace l.complement) = true) (there : d.subsumes k = true) :
    (a.erase l.proposition).subsumes k = true := by
  obtain ⟨stated, known⟩ := mem_flippable.mp flips
  refine subsumes_iff.mpr fun p s needed => ?_
  rw [state_erase]
  split
  · rename_i at_l
    subst at_l
    have first := subsumes_iff.mp here _ s needed
    have second := subsumes_iff.mp there _ s needed
    have flipped := subsumes_iff.mp refines l.proposition l.complement.state (by
      rw [state_replace]
      exact if_pos rfl)
    rw [stated] at first
    rw [flipped] at second
    cases first
    obtain ⟨p, s⟩ := l
    cases s <;> simp_all [Literal.complement, LiteralState.complement]
  · exact subsumes_iff.mp here p s needed

theorem mentions_replace (flips : l ∈ ValueMap.flippable a) (p : Proposition) :
    (a.replace l.complement).mentions p = a.mentions p := by
  rw [mentions_eq, mentions_eq, state_replace]
  split
  · rename_i at_l
    rw [← at_l, show l.complement.proposition = l.proposition from rfl,
      (mem_flippable.mp flips).1]
    rfl
  · rfl

theorem hasUnknown_replace (flips : l ∈ ValueMap.flippable a) (known : a.hasUnknown = false) :
    (a.replace l.complement).hasUnknown = false := by
  rw [← Bool.not_eq_true, hasUnknown_iff]
  rintro ⟨p, unknown⟩
  rw [state_replace] at unknown
  split at unknown
  · have apart := (mem_flippable.mp flips).2
    obtain ⟨p, s⟩ := l
    cases s <;> simp_all [Literal.complement, LiteralState.complement]
  · exact state_ne_unknown known p unknown

end Label

namespace Network

/-- Whether the label has no unknown literal, and has all literals that the ends of an edge and the
observers of its propositions need. -/
structure Fits (g : LabeledNetwork) (u v : NodeId) (label : Label) : Prop where
  known : label.hasUnknown = false
  source : label.subsumes (g.nodeD u).label = true
  target : label.subsumes (g.nodeD v).label = true
  closed : label.IsClosed g.observerLabel?

variable {g h : LabeledNetwork} {u v : NodeId} {label required : Label} {l : Literal}

theorem endpointLabel?_spec (h : g.endpointLabel? u v label = some required) :
    required.subsumes label = true ∧ required.subsumes (g.nodeD u).label = true ∧
      required.subsumes (g.nodeD v).label = true := by
  obtain ⟨middle, first, second⟩ := Option.bind_eq_some_iff.mp h
  obtain ⟨left, source⟩ := Label.and?_subsumes first
  obtain ⟨before, target⟩ := Label.and?_subsumes second
  exact ⟨Label.subsumes_trans before left, Label.subsumes_trans before source, target⟩

theorem endpointLabel?_of_refines (source : label.subsumes (g.nodeD u).label = true)
    (target : label.subsumes (g.nodeD v).label = true) :
    g.endpointLabel? u v label = some label := by
  rw [endpointLabel?, Label.and?_of_refines source, Option.bind_some, Label.and?_of_refines target]

theorem labelRepair_eq_keep_iff : g.labelRepair true u v label = .keep ↔ g.Fits u v label := by
  constructor
  · intro keeps
    unfold labelRepair at keeps
    split at keeps
    · cases keeps
    · rename_i known
      rw [if_pos rfl] at keeps
      split at keeps
      · cases keeps
      · rename_i required needed
        split at keeps
        · cases keeps
        · cases keeps
        · rename_i closed closes
          split at keeps
          -- The label is left as it is only where its closure is the label itself.
          · rename_i same
            subst same
            obtain ⟨_, source, target⟩ := endpointLabel?_spec needed
            obtain ⟨refines, isClosed, _⟩ := closeLabel_spec closes
            exact ⟨Bool.eq_false_iff.mpr known, Label.subsumes_trans refines source,
              Label.subsumes_trans refines target, isClosed⟩
          · cases keeps
  · intro fits
    have closes := closeLabel_of_isClosed fits.closed
    unfold labelRepair
    rw [fits.known, if_neg Bool.false_ne_true, if_pos rfl,
      endpointLabel?_of_refines fits.source fits.target]
    dsimp only
    rw [closes]
    exact if_pos rfl

/-- Whether no node has an unknown literal in its label. -/
def KnownNodes (g : LabeledNetwork) : Prop := ∀ n, (g.nodeD n).label.hasUnknown = false

theorem KnownNodes.observerLabel (known : g.KnownNodes) (p : Proposition) (k : Label)
    (observer : g.observerLabel? p = some k) : k.hasUnknown = false := by
  obtain ⟨n, _, rfl⟩ := Option.map_eq_some_iff.mp observer
  exact known n

theorem fits_of_relabel (knownNodes : g.KnownNodes)
    (relabels : g.labelRepair true u v label = .relabel required) : g.Fits u v required := by
  unfold labelRepair at relabels
  split at relabels
  · cases relabels
  · rename_i known
    rw [if_pos rfl] at relabels
    split at relabels
    · cases relabels
    · rename_i needed endpoint
      split at relabels
      · cases relabels
      · cases relabels
      · rename_i closed closes
        split at relabels
        · cases relabels
        · cases relabels
          obtain ⟨_, source, target⟩ := endpointLabel?_spec endpoint
          obtain ⟨refines, isClosed, _⟩ := closeLabel_spec closes
          obtain ⟨middle, first, second⟩ := Option.bind_eq_some_iff.mp endpoint
          have unknownFree := Label.hasUnknown_and? second
            (Label.hasUnknown_and? first (Bool.eq_false_iff.mpr known) (knownNodes u)) (knownNodes v)
          exact ⟨closeLabel_known knownNodes.observerLabel unknownFree closes,
            Label.subsumes_trans refines source, Label.subsumes_trans refines target, isClosed⟩

theorem Fits.join (first : g.Fits u v label) (flips : l ∈ ValueMap.flippable label)
    (second : g.Fits u v (label.replace l.complement)) : g.Fits u v (label.erase l.proposition) where
  known := Label.hasUnknown_erase first.known l.proposition
  source := Label.erase_subsumes_of_twin flips first.source (Label.subsumes_refl _) second.source
  target := Label.erase_subsumes_of_twin flips first.target (Label.subsumes_refl _) second.target
  closed p mentioned := by
    have here := Label.mentions_of_subsumes (label.subsumes_erase l.proposition) mentioned
    obtain ⟨k, observer, general⟩ := first.closed p here
    obtain ⟨k', observer', general'⟩ := second.closed p
      ((Label.mentions_replace flips p).trans here)
    rw [observer] at observer'
    cases observer'
    exact ⟨k, observer, Label.erase_subsumes_of_twin flips general (Label.subsumes_refl _) general'⟩

/-- If what the twin of a fitting label needs can be closed, the twin has it already. -/
theorem Fits.twin_fits {closed : Label} (fits : g.Fits u v label)
    (flips : l ∈ ValueMap.flippable label)
    (endpoint : g.endpointLabel? u v (label.replace l.complement) = some required)
    (closes : closeLabel g.observerLabel? required = .ok closed) :
    g.Fits u v (label.replace l.complement) := by
  obtain ⟨above, source, target⟩ := endpointLabel?_spec endpoint
  obtain ⟨refines, isClosed, _⟩ := closeLabel_spec closes
  have common : (label.replace l.complement).subsumes (label.erase l.proposition) = true :=
    label.replace_subsumes_erase l.complement
  have needed : ∀ k : Label, label.subsumes k = true → closed.subsumes k = true →
      (label.replace l.complement).subsumes k = true := fun k here there =>
    Label.subsumes_trans common (Label.erase_subsumes_of_twin flips here
      (Label.subsumes_trans refines above) there)
  refine ⟨Label.hasUnknown_replace flips fits.known,
    needed _ fits.source (Label.subsumes_trans refines source),
    needed _ fits.target (Label.subsumes_trans refines target), fun p mentioned => ?_⟩
  rw [Label.mentions_replace flips] at mentioned
  obtain ⟨k, observer, general⟩ := fits.closed p mentioned
  obtain ⟨k', observer', general'⟩ := isClosed p (Label.mentions_of_subsumes
    (Label.subsumes_trans refines above) ((Label.mentions_replace flips p).trans mentioned))
  rw [observer] at observer'
  cases observer'
  exact ⟨k, observer, needed k general general'⟩

/-- The twin of a label that fits either fits or contradicts what it needs. -/
theorem Fits.twin (fits : g.Fits u v label) (flips : l ∈ ValueMap.flippable label) :
    g.Fits u v (label.replace l.complement) ∨
      g.labelRepair true u v (label.replace l.complement) = .dropContradictory := by
  have known := Label.hasUnknown_replace flips fits.known
  rw [labelRepair, known, if_neg Bool.false_ne_true, if_pos rfl]
  cases endpoint : g.endpointLabel? u v (label.replace l.complement) with
  | none => exact Or.inr rfl
  | some required =>
    cases closes : closeLabel g.observerLabel? required with
    | ok closed => exact Or.inl (fits.twin_fits flips endpoint closes)
    | error e =>
      cases e with
      | contradictory =>
        dsimp only
        rw [closes]
        exact Or.inr rfl
      | unobserved p =>
        refine absurd closes (closeWithin_ne_unobserved fits.closed (fun q mentioned => ?_) p)
        obtain ⟨middle, first, second⟩ := Option.bind_eq_some_iff.mp endpoint
        rcases Label.mentions_and? second mentioned with before | needed
        · rcases Label.mentions_and? first before with here | needed
          · rwa [Label.mentions_replace flips] at here
          · exact Label.mentions_of_subsumes fits.source needed
        · exact Label.mentions_of_subsumes fits.target needed

end Network

end TemporalNetwork
