import TemporalNetwork.Proofs.Conditional.Pairing
import TemporalNetwork.Proofs.Conditional.Scale
import TemporalNetwork.Proofs.Conditional.Screening
import TemporalNetwork.Proofs.Stnu.Faults
import TemporalNetwork.Proofs.Stnu.Preparation
import TemporalNetwork.Stnu.Controllability

/-!
The numbers of an initialisation. The only numbers it computes are negations of bounds and the horizon.
An upper bound is positive once its negation is asked for, and the horizon is checked; a lower bound is
negated before it is known to be one, so `−∞` on a contingent edge is all that has no negation.
-/

namespace TemporalNetwork

namespace Preparation

variable {E α β : Type} {P : Failure → Prop} {m : Preparation E α} {f : α → Preparation E β}

/-- Whether the preparation fails only as `P` admits, on any network. -/
def Throws (P : Failure → Prop) (m : Preparation E α) : Prop :=
  ∀ d, Ends m d (fun _ _ => True) fun failure _ => P failure

/-- Whether `P` admits the failures that have nothing to do with numbers. -/
structure Admits (P : Failure → Prop) : Prop where
  structural : ∀ s, P (.structural s)
  outOfRange : P (.fault .outOfRange)

theorem admits_overflow (Q : Prop) : Admits fun failure => failure = .fault .overflow → Q :=
  ⟨nofun, nofun⟩

theorem throws_pure (a : α) : Throws P (pure a : Preparation E α) := fun _ => trivial

theorem throws_network : Throws P (network : Preparation E (Network E)) := fun _ => trivial

theorem throws_modifyNetwork (f : Network E → Network E) : Throws P (modifyNetwork f) :=
  fun _ => trivial

theorem throws_noteFix (fix : String) : Throws P (noteFix fix : Preparation E Unit) := fun _ => trivial

theorem throws_throw {failure : Failure} (admitted : P failure) :
    Throws P (throw failure : Preparation E α) := fun _ => admitted

theorem Throws.bind (first : Throws P m) (rest : ∀ a, Throws P (f a)) : Throws P (m >>= f) :=
  fun d => Ends.bind (first d) fun a d' _ => rest a d'

theorem throws_forM {step : α → Preparation E PUnit} (todo : List α)
    (each : ∀ a ∈ todo, Throws P (step a)) : Throws P (todo.forM step) := by
  induction todo with
  | nil => exact throws_pure _
  | cons a rest ih =>
    exact (each a List.mem_cons_self).bind fun _ => ih fun b mem => each b (List.mem_cons_of_mem a mem)

theorem throws_filterMapM {step : α → Preparation E (Option β)} (todo : List α)
    (each : ∀ a, Throws P (step a)) : Throws P (todo.filterMapM step) := fun d =>
  (ends_filterMapM (fun _ _ _ => True) (fun a _ _ s _ => each a s) todo d trivial).mono
    (fun _ _ _ => trivial) fun _ _ => id

theorem throws_foldlM {step : β → α → Preparation E β} (todo : List α) (b : β)
    (each : ∀ b a, Throws P (step b a)) : Throws P (todo.foldlM step b) := fun d =>
  ends_foldlM (fun _ _ _ => True) (fun a _ b s _ => each b a s) todo b d trivial

theorem throws_nodeName (admits : Admits P) (n : NodeId) :
    Throws P (nodeName n : Preparation E String) := by
  refine throws_network.bind fun g => ?_
  cases g.node? n with
  | none => exact throws_throw admits.outOfRange
  | some node => exact throws_pure _

theorem throws_ensureZ : Throws P (ensureZ : Preparation E NodeId) := by
  refine throws_network.bind fun g => ?_
  split
  · exact (throws_modifyNetwork _).bind fun _ => throws_pure _
  · exact (throws_noteFix _).bind fun _ => (throws_modifyNetwork _).bind fun _ =>
      (throws_modifyNetwork _).bind fun _ => throws_pure _

theorem throws_negate {v : Value} (overflow : v = Value.negInf → P (.fault .overflow)) :
    Throws P (negate v : Preparation E Value) := fun _ =>
  negate_overflows.mono (fun _ _ _ => trivial) fun _ _ ⟨_, failed, lowest⟩ =>
    failed ▸ overflow lowest

end Preparation

open Preparation

section Plain

variable {P : Failure → Prop} {d : Draft PlainEdge} {g : PlainNetwork}

/-- Whether a contingent edge holds `−∞`. -/
def Network.HoldsLowestWeight (g : PlainNetwork) : Prop :=
  ∃ u v, g.IsContingent u v ∧ g.bound u v = Value.negInf

theorem Network.holdsLowestWeight_of_slot (wf : g.WellFormed) {e : EdgeId} {slot : EdgeSlot PlainEdge}
    (stored : g.slot? e = some slot) (kind : slot.payload.kind = .contingent)
    (lowest : slot.payload.value? = some Value.negInf) : g.HoldsLowestWeight := by
  have joined : g.edgeBetween? slot.source slot.target = some slot.payload :=
    wf.edgeBetween?_eq_some_iff.mpr ⟨e, slot, stored, rfl, rfl, rfl⟩
  have weight : g.ordinary? slot.source slot.target = some Value.negInf := by
    rw [← bind_value?, joined, Option.bind_some, lowest]
  exact ⟨slot.source, slot.target, ⟨slot.payload, joined, kind⟩, (ordinary?_eq_some_iff.mp weight).1⟩

theorem Network.Bounded.holdsLowestWeight {k : PlainNetwork} (bounded : g.Bounded k)
    (lowest : k.HoldsLowestWeight) : g.HoldsLowestWeight := by
  obtain ⟨u, v, contingent, low⟩ := lowest
  refine ⟨u, v, (bounded.contingent u v).mp contingent, ?_⟩
  rcases bounded.bound u v with same | ⟨_, zero, _⟩
  · exact same ▸ low
  · rw [zero] at low
    cases low

namespace StnuLink

theorem throws_boundBelow (admits : Admits P) (z n : NodeId) : Throws P (boundBelow z n) := by
  refine throws_network.bind fun g => ?_
  dsimp only
  split
  · exact throws_throw admits.outOfRange
  · exact throws_modifyNetwork _

theorem throws_rawValue (admits : Admits P) (e : EdgeId) : Throws P (rawValue e) := by
  refine throws_network.bind fun g => ?_
  split
  · exact throws_pure _
  · exact throws_throw (admits.structural _)

theorem throws_ofEdge? (admits : Admits P) (overflow : P (.fault .overflow)) (e : EdgeId) :
    Throws P (ofEdge? e) := by
  refine throws_network.bind fun g => ?_
  split
  · exact throws_pure _
  split
  · exact throws_throw (admits.structural _)
  refine (throws_rawValue admits e).bind fun value => ?_
  refine (throws_rawValue admits _).bind fun value' => ?_
  split
  · exact throws_pure _
  refine (throws_negate fun _ => overflow).bind fun lower => ?_
  split
  · exact throws_throw (admits.structural _)
  · exact throws_pure _

theorem throws_storeCaseValue (admits : Admits P) (source target : NodeId) (case : CaseValue) :
    Throws P (storeCaseValue source target case) := by
  refine (throws_modifyNetwork _).bind fun _ => throws_network.bind fun g => ?_
  split
  · exact throws_pure _
  · split
    · exact throws_throw (admits.structural _)
    · exact throws_modifyNetwork _

theorem throws_record (admits : Admits P) {link : StnuLink}
    (overflow : link.upper = Value.negInf → P (.fault .overflow)) : Throws P (record link) := by
  obtain ⟨activation, contingent, lower, upper⟩ := link
  refine throws_network.bind fun g => ?_
  dsimp only
  split
  · exact (throws_nodeName admits _).bind fun _ => throws_throw (admits.structural _)
  · exact (throws_negate overflow).bind fun _ => (throws_storeCaseValue admits _ _ _).bind fun _ =>
      (throws_storeCaseValue admits _ _ _).bind fun _ => (throws_modifyNetwork _).bind fun _ =>
        throws_modifyNetwork _

theorem throws_prepareAll (admits : Admits P) (overflow : P (.fault .overflow)) :
    Throws P prepareAll := by
  refine throws_ensureZ.bind fun z => throws_network.bind fun g => ?_
  refine (throws_forM _ fun n _ => throws_boundBelow admits z n).bind fun _ => ?_
  refine throws_network.bind fun g => ?_
  refine (throws_filterMapM _ fun e => throws_ofEdge? admits overflow e).bind fun links => ?_
  exact (throws_forM _ fun link _ => throws_record admits fun _ => overflow).bind fun _ => throws_pure _

/-- A lower bound has no negation only if its edge holds `−∞`. -/
theorem ofEdge?_overflows (wf : d.network.WellFormed) {e : EdgeId} {slot : EdgeSlot PlainEdge}
    (stored : d.network.slot? e = some slot) :
    Ends (ofEdge? e) d
      (fun link d' => d' = d ∧ ∀ l, link = some l → 0 ≤ l.lower ∧ l.lower < l.upper)
      fun failure _ => failure = .fault .overflow → d.network.HoldsLowestWeight := by
  unfold ofEdge?
  rw [ends_bind, ends_network, stored]
  dsimp only
  cases found : companion? d.network slot.source slot.target with
  | none => rintro ⟨⟩
  | some c =>
    obtain ⟨joined, contingent⟩ := Option.filter_eq_some_iff.mp found
    obtain ⟨slot', opposite, source, target⟩ := (wf.listed _ _ _).mp joined
    have kind : slot'.payload.kind = .contingent := by
      simpa [Network.edge?, opposite] using contingent
    have reads : ∀ {i : EdgeId} {slot : EdgeSlot PlainEdge}, d.network.slot? i = some slot →
        Ends (rawValue i) d (fun w d' => d' = d ∧ slot.payload.value? = some w)
          fun failure _ => failure = .fault .overflow → d.network.HoldsLowestWeight := fun here =>
      ((rawValue_ends here).and (throws_rawValue (admits_overflow _) _ d)).mono (fun _ _ => And.left)
        fun _ _ => And.right
    refine (reads stored).bind ?_
    rintro value _ ⟨rfl, weight⟩
    refine (reads opposite).bind ?_
    rintro value' d ⟨rfl, weight'⟩
    split
    · exact ⟨rfl, (by rintro _ ⟨⟩)⟩
    -- The value of the companion is negated, which fails for `−∞` only.
    · refine (negate_overflows.mono (fun _ _ => id) ?_).bind ?_
      · rintro _ _ ⟨rfl, _, rfl⟩ _
        exact Network.holdsLowestWeight_of_slot wf opposite kind weight'
      · rintro _ _ ⟨rfl, rfl, _⟩
        split
        · rintro ⟨⟩
        · rename_i valid
          rw [not_or, not_lt, not_le] at valid
          refine ⟨rfl, fun l same => ?_⟩
          cases same
          exact valid

/-- The links are read off with positive upper bounds, so only a lower bound can have no negation. -/
theorem prepareAll_overflows (wf : d.network.WellFormed) :
    Ends prepareAll d (fun _ _ => True)
      fun failure _ => failure = .fault .overflow → d.network.HoldsLowestWeight := by
  have admits := admits_overflow d.network.HoldsLowestWeight
  unfold prepareAll
  refine (((Network.bounded_ensureZ wf).and (throws_ensureZ d)).mono (fun _ _ => And.left)
    fun _ _ => And.right).bind ?_
  rintro _ d₁ ⟨rfl, bounded₁⟩
  rw [ends_bind, ends_network]
  refine (((boundAll_ends bounded₁).and
    (throws_forM _ (fun n _ => throws_boundBelow admits _ n) d₁)).mono (fun _ _ => And.left)
      fun _ _ => And.right).bind ?_
  rintro _ d₂ ⟨bounded₂, _⟩
  rw [ends_bind, ends_network]
  have read : Ends (d₂.network.contingentEdges.filterMapM ofEdge?) d₂
      (fun links _ => ∀ l ∈ links, 0 ≤ l.lower ∧ l.lower < l.upper)
      fun failure _ => failure = .fault .overflow → d.network.HoldsLowestWeight := by
    refine (ends_filterMapM (fun todo kept d' => (∀ e ∈ todo, e ∈ d₂.network.contingentEdges) ∧
      d' = d₂ ∧ ∀ l ∈ kept, 0 ≤ l.lower ∧ l.lower < l.upper) ?_ _ d₂ ⟨fun _ => id, rfl, nofun⟩).mono
      (fun links _ ⟨_, _, valid⟩ l mem => valid l (List.mem_reverse.mpr mem)) fun _ _ => id
    rintro e rest kept _ ⟨within, rfl, valid⟩
    obtain ⟨slot, stored⟩ := Option.isSome_iff_exists.mp
      (Network.mem_edgeIds.mp (List.mem_filter.mp (within e List.mem_cons_self)).1)
    refine (ofEdge?_overflows bounded₂.wellFormed stored).mono ?_
      fun _ _ overflow failed => bounded₂.holdsLowestWeight (overflow failed)
    rintro link _ ⟨rfl, read⟩
    refine ⟨fun i mem => within i (List.mem_cons_of_mem e mem), rfl, fun l mem => ?_⟩
    rcases List.mem_append.mp mem with new | before
    · exact read l (Option.mem_toList.mp new)
    · exact valid l before
  refine read.bind fun links d₃ valid => ?_
  refine ((throws_forM _ fun link mem => throws_record admits fun lowest => ?_).bind
    fun _ => throws_pure _) d₃
  -- Recording a link negates its upper bound, which is positive.
  have positive := (valid link mem).1.trans_lt (valid link mem).2
  rw [lowest] at positive
  cases positive

/-- Whether the bounds of a link, and the negation of the upper one, are values. -/
structure Representable (link : StnuLink) : Prop where
  nonneg : 0 ≤ link.lower
  range : link.lower < link.upper
  upper : link.upper.InRange
  negated : Value.InRange (-link.upper)

theorem prepareAll_inRange (wf : d.network.WellFormed)
    (inRange : ∀ u v w, d.network.ordinary? u v = some w → w.InRange) :
    Ends prepareAll d (fun links d' => (∀ u v w, d'.network.ordinary? u v = some w → w.InRange) ∧
      ∀ link ∈ links, link.Representable) fun _ _ => True := by
  refine (prepareAll_ends wf).mono (fun links d' prepared => ?_) fun _ _ => id
  have representable : ∀ link ∈ links, link.Representable := by
    intro link mem
    have isLink := (prepared.mem_iff link).mp mem
    have inside := inRange _ _ _ isLink.upper
    have high := inside.2
    have nonneg := isLink.nonneg
    have range := isLink.range
    refine ⟨nonneg, range, inside, ?_⟩
    unfold Value.posInf at high
    exact ⟨by unfold Value.negInf; linarith, by unfold Value.posInf; linarith⟩
  refine ⟨fun u v w weight => ?_, representable⟩
  rcases prepared.ordinary u v w weight with ⟨before, _⟩ | ⟨_, rfl⟩ | ⟨link, mem, ends⟩
  · exact inRange u v w before
  · decide
  · have := (representable link mem).nonneg
    have := (representable link mem).range
    obtain ⟨_, _, upper, negated⟩ := representable link mem
    rcases ends with ⟨_, _, rfl⟩ | ⟨_, _, rfl⟩
    · exact upper
    · exact ⟨negated.1.trans (by lia), le_trans (by lia) (show (0 : Value) ≤ Value.posInf by decide)⟩

end StnuLink

theorem StnuChecker.ends_of_initialise {options : CheckerOptions} {c : StnuChecker}
    {answer : Except Failure Unit} {ok : List StnuLink → Draft PlainEdge → Prop}
    {err : Failure → Draft PlainEdge → Prop} (ends : Ends StnuLink.prepareAll ⟨g, []⟩ ok err)
    (run : (ofNetwork g options).initialise = (c, answer)) :
    (answer = .ok () → ∃ d, ok c.links d ∧ c.network = d.network) ∧
      ∀ failure, answer = .error failure → ∃ d, err failure d := by
  rw [initialise, if_neg (by simp [ofNetwork])] at run
  unfold Ends at ends
  dsimp only [ofNetwork, CheckStatus.fresh] at run
  cases prepared : StnuLink.prepareAll.run ⟨g, []⟩ with
  | ok links d =>
    rw [prepared] at ends run
    cases run
    exact ⟨fun _ => ⟨d, ends, rfl⟩, (by rintro _ ⟨⟩)⟩
  | error failure d =>
    rw [prepared] at ends run
    cases run
    exact ⟨(by rintro ⟨⟩), fun _ same => ⟨d, Except.error.inj same ▸ ends⟩⟩

end Plain

section Labelled

variable {P : Failure → Prop} {d : Draft LabeledEdge} {g h : LabeledNetwork} {withNodeLabels : Bool}

namespace WellDefined

theorem throws_failIf (admits : Admits P) (e : Option StructuralError) : Throws P (failIf e) := by
  cases e with
  | none => exact throws_pure _
  | some e => exact throws_throw (admits.structural e)

theorem throws_clearZLabel (admits : Admits P) (z : NodeId) : Throws P (clearZLabel z) := by
  refine throws_network.bind fun g => ?_
  split
  · exact throws_throw admits.outOfRange
  · split
    · exact (throws_noteFix _).bind fun _ => throws_modifyNetwork _
    · exact throws_pure _

theorem throws_closeNodeLabel (admits : Admits P) (n : NodeId) : Throws P (closeNodeLabel n) := by
  refine throws_network.bind fun g => ?_
  dsimp only
  split
  · exact throws_throw (admits.structural _)
  · exact throws_throw (admits.structural _)
  · split
    · exact (throws_noteFix _).bind fun _ => throws_modifyNetwork _
    · exact throws_pure _

theorem throws_repairEdge (admits : Admits P) (e : EdgeId) :
    Throws P (repairEdge withNodeLabels e) := by
  refine throws_network.bind fun g => ?_
  split
  · exact throws_pure _
  refine throws_forM _ fun v _ => throws_network.bind fun g => ?_
  split
  · exact throws_pure _
  split
  · exact throws_pure _
  · exact throws_throw (admits.structural _)
  · exact (throws_modifyNetwork _).bind fun _ => throws_noteFix _
  · exact (throws_modifyNetwork _).bind fun _ => throws_noteFix _
  · exact (throws_modifyNetwork _).bind fun _ => throws_noteFix _

theorem throws_prepare (admits : Admits P) : Throws P (prepare withNodeLabels) := by
  have repairs : ∀ z : NodeId, Throws P (do
      (← network).edgeIds.forM (repairEdge withNodeLabels)
      return z) := fun z =>
    throws_network.bind fun g =>
      (throws_forM _ fun e _ => throws_repairEdge admits e).bind fun _ => throws_pure z
  unfold prepare
  refine throws_ensureZ.bind fun z => (throws_clearZLabel admits z).bind fun _ => ?_
  refine throws_network.bind fun g => (throws_failIf admits _).bind fun _ => ?_
  cases withNodeLabels with
  | false => exact repairs z
  | true =>
    refine throws_network.bind fun g => ?_
    refine (throws_forM _ fun n _ => throws_closeNodeLabel admits n).bind fun _ => ?_
    exact throws_network.bind fun g => (throws_failIf admits _).bind fun _ => repairs z

end WellDefined

namespace ContingentLink

theorem throws_rawValue (admits : Admits P) (e : EdgeId) : Throws P (rawValue e) := by
  refine throws_network.bind fun g => ?_
  split
  · exact throws_pure _
  · exact throws_throw (admits.structural _)

theorem throws_storeCaseValues (admits : Admits P) (overflow : P (.fault .overflow))
    (forward backward : EdgeId) (letter : CaseLetter) (label : Label) (lower upper : Value) :
    Throws P (storeCaseValues forward backward letter label lower upper) := by
  refine throws_network.bind fun g => (throws_negate fun _ => overflow).bind fun negated => ?_
  dsimp only
  split
  · exact throws_throw (admits.structural _)
  · exact (throws_modifyNetwork _).bind fun _ => throws_modifyNetwork _

theorem throws_addLink (admits : Admits P) (overflow : P (.fault .overflow))
    (links : List ContingentLink) (used : CaseLabel) (e : EdgeId) :
    Throws P (addLink links used e) := by
  refine throws_network.bind fun g => ?_
  split
  · exact throws_pure _
  split
  · exact throws_throw (admits.structural _)
  refine (throws_rawValue admits _).bind fun v => (throws_rawValue admits _).bind fun v' => ?_
  dsimp only
  split
  · exact throws_throw (admits.structural _)
  split
  · split
    · exact (throws_negate fun _ => overflow).bind fun _ => throws_throw (admits.structural _)
    · exact throws_pure _
  refine (throws_negate fun _ => overflow).bind fun lower => ?_
  split
  · exact throws_throw (admits.structural _)
  split
  · exact (throws_nodeName admits _).bind fun _ => throws_throw (admits.structural _)
  split
  · exact throws_throw (admits.structural _)
  · exact (throws_storeCaseValues admits overflow _ _ _ _ _ _).bind fun _ =>
      (throws_modifyNetwork _).bind fun _ => (throws_modifyNetwork _).bind fun _ => throws_pure _

theorem throws_prepareAll (admits : Admits P) (overflow : P (.fault .overflow)) :
    Throws P prepareAll :=
  throws_network.bind fun _ =>
    (throws_foldlM _ _ fun r e => throws_addLink admits overflow r.1 r.2 e).bind fun _ => throws_pure _

/-- Setting up the links overflows only at a lower bound that has no negation. -/
theorem prepareAll_overflows (enclosed : d.network.Enclosed) :
    Ends prepareAll d (fun _ _ => True)
      fun failure _ => failure = .fault .overflow → ¬ Negatable d.network := by
  by_cases negatable : Negatable d.network
  · refine (prepareAll_pairing enclosed negatable).mono (fun _ _ _ => trivial) ?_
    rintro _ _ ⟨s, rfl⟩
    exact nofun
  · exact throws_prepareAll (admits_overflow _) (fun _ => negatable) d

/-- Whether the bounds of a link, and the negation of the upper one, are values. -/
structure Representable (link : ContingentLink) : Prop where
  positive : 0 < link.lower
  range : link.lower < link.upper
  upper : link.upper.InRange
  negated : Value.InRange (-link.upper)

theorem withCaseValues_inRange (wf : g.WellFormed)
    (inRange : g.EveryValue fun _ _ _ _ w => w.InRange) {source target : NodeId}
    {forward backward : EdgeId} (there : g.findEdge? source target = some forward)
    (back : g.findEdge? target source = some backward) (letter : CaseLetter) (label : Label)
    (lower : Value) {upper : Value} (negated : Value.InRange (-upper)) :
    (withCaseValues g forward backward letter label lower upper).EveryValue
      fun _ _ _ _ w => w.InRange := by
  have first := inRange.modifyEdge wf there
    (f := fun edge => { edge with lower := some ⟨letter, label, lower⟩ }) fun _ every => every
  exact first.modifyEdge (wf.modifyEdge forward _) back fun edge every =>
    every.merge (joins_values Value.InRange) negated

theorem Treated.inRange {links : List ContingentLink} {used : CaseLabel} {e : EdgeId}
    {r : List ContingentLink × CaseLabel} (treated : Treated g links used e r h) (wf : g.WellFormed)
    (inRange : g.EveryValue fun _ _ _ _ w => w.InRange)
    (representable : ∀ link ∈ links, link.Representable) :
    (h.EveryValue fun _ _ _ _ w => w.InRange) ∧ ∀ link ∈ r.1, link.Representable := by
  cases treated with
  | absent => exact ⟨inRange, representable⟩
  | behind => exact ⟨inRange, representable⟩
  | @ahead slot companion label label' value value' letter stored paired first second positive range =>
    have there := wf.findEdge?_of_slot stored
    obtain ⟨edge, joined, dominated⟩ := first.covers wf there
    obtain ⟨edge', stored', head⟩ := first
    have upper : value.InRange := by
      obtain ⟨_, present, joined'⟩ := Network.edge?_of_findEdge? wf there
      rw [stored'] at present
      cases present
      exact inRange _ _ edge' joined' .empty label value
        (LabeledEdge.mem_allValues.mpr (Or.inl ⟨rfl, List.mem_of_head? head⟩))
    have negated : Value.InRange (-value) := by
      obtain ⟨_, high⟩ := upper
      unfold Value.posInf at high
      exact ⟨by unfold Value.negInf; linarith, by unfold Value.posInf; linarith⟩
    refine ⟨fun u v edge joined => withCaseValues_inRange wf inRange there
      (findEdge?_of_companion paired) letter label _ negated u v edge joined, fun link mem => ?_⟩
    rcases List.mem_append.mp mem with before | new
    · exact representable link before
    · rw [List.mem_singleton.mp new]
      exact ⟨positive, range, upper, negated⟩

theorem prepareAll_inRange (wf : d.network.WellFormed)
    (inRange : d.network.EveryValue fun _ _ _ _ w => w.InRange) :
    Ends prepareAll d (fun links d' => (d'.network.EveryValue fun _ _ _ _ w => w.InRange) ∧
      ∀ link ∈ links, link.Representable) fun _ _ => True := by
  refine (prepareAll_induct (I := fun _ links _ g => g.WellFormed ∧
    (g.EveryValue fun _ _ _ _ w => w.InRange) ∧ ∀ link ∈ links, link.Representable) ?_
    ⟨wf, inRange, nofun⟩).mono (fun _ _ ⟨_, _, kept⟩ => kept) fun _ _ => id
  rintro e rest links used g r h ⟨wf', inRange', representable⟩ treated
  exact ⟨kept_wellFormed.treated treated wf', treated.inRange wf' inRange' representable⟩

end ContingentLink

namespace Network

/-- Whether a contingent edge has `−∞` among its ordinary values. -/
def HoldsLowestValue (g : LabeledNetwork) : Prop :=
  ∃ e slot l, g.slot? e = some slot ∧ slot.payload.kind = .contingent ∧
    (CaseLabel.empty, l, Value.negInf) ∈ slot.payload.allValues

theorem maxWeight_inRange (g : LabeledNetwork) : 0 ≤ g.maxWeight ∧ g.maxWeight ≤ 2147483647 := by
  refine ⟨g.maxWeight_nonneg, maxWeight_le (by decide) fun e edge _ x _ _ finite => ?_⟩
  have low : (-2147483648 : Int) < x.2.2 := finite.1
  linarith

end Network

/-- Whether the error tells that the horizon overflows, for a weight that does not. -/
def RangeError.IsHorizonOverflow (e : RangeError) : Prop :=
  ∃ weight nodes, e = .horizonOverflow weight nodes ∧ 0 ≤ weight ∧ weight ≤ 2147483647

theorem Network.isHorizonOverflow_of_error {e : RangeError} (failed : g.horizon? = .error e) :
    e.IsHorizonOverflow := by
  unfold horizon? at failed
  dsimp only at failed
  split at failed
  · cases failed
  · cases failed
    exact ⟨_, _, rfl, g.maxWeight_inRange⟩

namespace CstnuChecker

theorem throws_prepare (admits : Admits P) (overflow : P (.fault .overflow))
    (horizon : ∀ e : RangeError, e.IsHorizonOverflow → P (.range e)) :
    Throws P (prepare withNodeLabels) := by
  refine (WellDefined.throws_prepare admits).bind fun z => ?_
  refine (ContingentLink.throws_prepareAll admits overflow).bind fun links => ?_
  refine throws_network.bind fun g => ?_
  split
  · rename_i e failed
    exact throws_throw (horizon e (Network.isHorizonOverflow_of_error failed))
  · exact (throws_modifyNetwork _).bind fun _ => throws_pure _

/-- What the repairs leave of a contingent edge with `−∞` was one before. -/
theorem holdsLowestValue_of_prepare :
    Ends (WellDefined.prepare withNodeLabels) d
      (fun _ d' => d'.network.HoldsLowestValue → d.network.HoldsLowestValue) fun _ _ => True := by
  have kept : WellDefined.Kept withNodeLabels _ := WellDefined.kept_ends fun e _ _ kind =>
    ∃ slot, d.network.slot? e = some slot ∧ slot.payload.kind = kind
  have kinds := WellDefined.prepare_ends (d := d) kept fun e slot stored => ⟨slot, stored, rfl⟩
  have values := @WellDefined.prepare_values withNodeLabels d (fun e c w =>
    ∃ slot l, d.network.slot? e = some slot ∧ (c, l, w) ∈ slot.payload.allValues)
    fun e slot stored c l w mem => ⟨slot, l, stored, mem⟩
  refine (values.and kinds).mono ?_ fun _ _ _ => trivial
  rintro _ d' ⟨each, same, _⟩ ⟨e, slot, l, stored, kind, mem⟩
  obtain ⟨old, l', stored', mem'⟩ := each e slot stored .empty l _ mem
  obtain ⟨old', stored'', kind'⟩ := same e slot stored
  rw [stored'] at stored''
  cases stored''
  exact ⟨e, old, l', stored', kind'.trans kind, mem'⟩

theorem holdsLowestValue_of_not_negatable (lowest : ¬ ContingentLink.Negatable g) :
    g.HoldsLowestValue := by
  unfold ContingentLink.Negatable at lowest
  push Not at lowest
  obtain ⟨e, contingent, v, ⟨edge, present, head⟩, low⟩ := lowest
  obtain ⟨_, present', kind⟩ := Network.mem_contingentEdges.mp contingent
  rw [present] at present'
  cases present'
  obtain ⟨slot, stored, rfl⟩ := Option.map_eq_some_iff.mp present
  refine ⟨e, slot, v.1, stored, kind, LabeledEdge.mem_allValues.mpr (Or.inl ⟨rfl, ?_⟩)⟩
  rw [← low]
  exact List.mem_of_head? head

/-- An initialisation overflows only at `−∞` on a contingent edge. -/
theorem prepare_overflows (enclosed : d.network.Enclosed) :
    Ends (prepare withNodeLabels) d (fun _ _ => True)
      fun failure _ => failure = .fault .overflow → d.network.HoldsLowestValue := by
  have admits := admits_overflow d.network.HoldsLowestValue
  have repaired : Preparation.Keeps (fun _ => False) (WellDefined.prepare withNodeLabels) d
    fun z k => z < k.nodeCount := WellDefined.keeps_prepare enclosed withNodeLabels
  unfold prepare
  refine (((Ends.and repaired holdsLowestValue_of_prepare).and
    (WellDefined.throws_prepare admits d)).mono (fun _ _ => And.left) fun _ _ => And.right).bind ?_
  rintro z d₁ ⟨⟨enclosed₁, _⟩, before⟩
  refine ((ContingentLink.prepareAll_overflows enclosed₁).mono (fun _ _ => id)
    fun _ _ overflow failed => before (holdsLowestValue_of_not_negatable (overflow failed))).bind
      fun links d₂ _ => ?_
  rw [ends_bind, ends_network]
  split
  · exact nofun
  · exact trivial

/-- What an initialisation computes is representable. -/
theorem prepare_inRange (enclosed : d.network.Enclosed)
    (inRange : ∀ w ∈ d.network.allValues, w.InRange) :
    Ends (prepare withNodeLabels) d (fun r d' => d'.network.WellFormed ∧
        (d'.network.EveryValue fun _ _ _ _ w => w.InRange) ∧
        (∀ link ∈ r.2.1, link.Representable) ∧
        (0 ≤ r.2.2.maxWeight ∧ r.2.2.maxWeight ≤ 2147483647) ∧ r.2.2.value.IsFinite)
      fun _ _ => True := by
  have repaired : Preparation.Keeps (fun _ => False) (WellDefined.prepare withNodeLabels) d
    fun z k => z < k.nodeCount := WellDefined.keeps_prepare enclosed withNodeLabels
  unfold prepare
  refine ((Ends.and repaired (WellDefined.prepare_values
    (Network.forall_mem_allValues_iff.mp inRange))).mono (fun _ _ => id)
      fun _ _ _ => trivial).bind ?_
  rintro z d₁ ⟨⟨enclosed₁, _, inside⟩, each⟩
  have linked : Preparation.Keeps (fun _ => True) ContingentLink.prepareAll d₁ fun _ _ => True :=
    ContingentLink.keeps_prepareAll trivial enclosed₁
  refine ((Ends.and linked (ContingentLink.prepareAll_inRange enclosed₁.wellFormed
    (each.everyValue enclosed₁.wellFormed))).mono (fun _ _ => id) fun _ _ _ => trivial).bind ?_
  rintro links d₂ ⟨⟨enclosed₂, le, _⟩, inRange₂, representable⟩
  rw [ends_bind, ends_network]
  split
  · exact trivial
  · rename_i horizon known
    rw [ends_bind, ends_modifyNetwork]
    have wf := enclosed₂.wellFormed
    have hz := Nat.lt_of_lt_of_le inside le
    obtain ⟨finite, weight, _⟩ := Network.horizon?_spec known
    refine ⟨?_, inRange₂.addBounds_values wf hz (by decide) ⟨finite.1.le, finite.2.le⟩, representable,
      weight ▸ d₂.network.maxWeight_inRange, finite⟩
    exact (Network.addBounds_spec wf hz horizon.value (ne_of_lt finite.2) withNodeLabels).1

theorem ends_of_initialise {options : CheckerOptions} {c : CstnuChecker} {answer : Except Failure Unit}
    {ok : NodeId × List ContingentLink × Horizon → Draft LabeledEdge → Prop}
    {err : Failure → Draft LabeledEdge → Prop}
    (ends : Ends (prepare options.withNodeLabels) ⟨g, []⟩ ok err)
    (run : (ofNetwork g options).initialise = (c, answer)) :
    (answer = .ok () → ∃ z horizon d, ok (z, c.links, horizon) d ∧ c.network = d.network ∧
        c.horizon = some horizon) ∧
      ∀ failure, answer = .error failure → ∃ d, err failure d := by
  rw [initialise, if_neg (by simp [ofNetwork])] at run
  unfold Ends at ends
  dsimp only [ofNetwork, CheckStatus.fresh] at run
  cases prepared : (prepare options.withNodeLabels).run ⟨g, []⟩ with
  | ok r d =>
    obtain ⟨z, links, horizon⟩ := r
    rw [prepared] at ends run
    cases run
    exact ⟨fun _ => ⟨z, horizon, d, ends, rfl, rfl⟩, (by rintro _ ⟨⟩)⟩
  | error failure d =>
    rw [prepared] at ends run
    cases run
    exact ⟨(by rintro ⟨⟩), fun _ same => ⟨d, Except.error.inj same ▸ ends⟩⟩

end CstnuChecker

end Labelled

/-- An initialisation without propositions, and one with them, gives values, links and a horizon that are
representable, or fails with a structural error or an overflow of the horizon; it computes a number that
is not representable only if a contingent edge holds `−∞`. -/
theorem initialisation_within_range (options : CheckerOptions) :
    (∀ (g : PlainNetwork) (c : StnuChecker) (answer : Except Failure Unit),
      g.Enclosed → (∀ u v w, g.ordinary? u v = some w → w.InRange) →
      (StnuChecker.ofNetwork g options).initialise = (c, answer) →
      (answer = .ok () → (∀ u v w, c.network.ordinary? u v = some w → w.InRange) ∧
        ∀ link ∈ c.links, link.Representable) ∧
      ∀ failure, answer = .error failure →
        (∃ s, failure = .structural s) ∨ failure = .fault .overflow ∧ g.HoldsLowestWeight) ∧
    ∀ (g : LabeledNetwork) (c : CstnuChecker) (answer : Except Failure Unit),
      g.Enclosed → (∀ w ∈ g.allValues, w.InRange) →
      (CstnuChecker.ofNetwork g options).initialise = (c, answer) →
      (answer = .ok () → (∀ w ∈ c.network.allValues, w.InRange) ∧
        (∀ link ∈ c.links, link.Representable) ∧ ∃ horizon, c.horizon = some horizon ∧
          (0 ≤ horizon.maxWeight ∧ horizon.maxWeight ≤ 2147483647) ∧ horizon.value.IsFinite) ∧
      ∀ failure, answer = .error failure →
        (∃ s, failure = .structural s) ∨ (∃ e, failure = .range e ∧ e.IsHorizonOverflow) ∨
          failure = .fault .overflow ∧ g.HoldsLowestValue := by
  constructor
  · intro g c answer enclosed inRange run
    have keeps : Keeps (· = .overflow) StnuLink.prepareAll ⟨g, []⟩ fun _ _ => True :=
      StnuLink.keeps_prepareAll (d := ⟨g, []⟩) rfl enclosed
    have unranged : Throws (fun failure => ∀ e, failure ≠ .range e) StnuLink.prepareAll :=
      StnuLink.throws_prepareAll ⟨nofun, nofun⟩ nofun
    -- The values tell what is computed and when it overflows, the steps which errors they may throw.
    have ends := ((StnuLink.prepareAll_inRange enclosed.wellFormed inRange).and
      (StnuLink.prepareAll_overflows enclosed.wellFormed)).and (Ends.and keeps (unranged _))
    obtain ⟨succeeds, fails⟩ := StnuChecker.ends_of_initialise ends run
    refine ⟨fun done => ?_, fun failure failed => ?_⟩
    · obtain ⟨d, ⟨⟨kept, _⟩, _⟩, same⟩ := succeeds done
      exact same ▸ kept
    · obtain ⟨d, ⟨_, overflow⟩, ⟨_, within⟩, unranged⟩ := fails failure failed
      cases failure with
      | structural s => exact Or.inl ⟨s, rfl⟩
      | range e => exact absurd rfl (unranged e)
      | fault f =>
        obtain rfl := within f rfl
        exact Or.inr ⟨rfl, overflow rfl⟩
  · intro g c answer enclosed inRange run
    have keeps : Keeps (· = .overflow) (CstnuChecker.prepare options.withNodeLabels) ⟨g, []⟩
      fun _ _ => True := @CstnuChecker.keeps_prepare (· = .overflow) _ rfl enclosed _
    have ranged : Throws (fun failure => ∀ e, failure = .range e → e.IsHorizonOverflow)
        (CstnuChecker.prepare options.withNodeLabels) :=
      CstnuChecker.throws_prepare ⟨nofun, nofun⟩ nofun fun e overflow _ same =>
        Failure.range.inj same ▸ overflow
    have ends := ((CstnuChecker.prepare_inRange enclosed inRange).and
      (CstnuChecker.prepare_overflows enclosed)).and (Ends.and keeps (ranged _))
    obtain ⟨succeeds, fails⟩ := CstnuChecker.ends_of_initialise ends run
    refine ⟨fun done => ?_, fun failure failed => ?_⟩
    · obtain ⟨z, horizon, d, ⟨⟨⟨wf, every, links, weight, finite⟩, _⟩, _⟩, same, known⟩ := succeeds done
      refine ⟨?_, links, horizon, known, weight, finite⟩
      rw [same]
      exact Network.forall_mem_allValues_iff.mpr (every.eachValue wf)
    · obtain ⟨d, ⟨_, overflow⟩, ⟨_, within⟩, ranged⟩ := fails failure failed
      cases failure with
      | structural s => exact Or.inl ⟨s, rfl⟩
      | range e => exact Or.inr (Or.inl ⟨e, rfl, ranged e rfl⟩)
      | fault f =>
        obtain rfl := within f rfl
        exact Or.inr (Or.inr ⟨rfl, overflow rfl⟩)

/-- A link that has no least duration. -/
def boundlessNetwork : PlainNetwork :=
  (Network.build [.named "Z", .named "A", .named "C"]
    [("latest", 1, 2, ⟨.contingent, 3, none⟩),
      ("earliest", 2, 1, ⟨.contingent, Value.negInf, none⟩)]).getD .empty

/-- The boundless network overflows, which takes a `−∞`; the linked network gives a representable link. -/
theorem initialisation_within_range_boundless :
    ((StnuChecker.ofNetwork boundlessNetwork untimed).initialise.2 = .error (.fault .overflow) ∧
      boundlessNetwork.HoldsLowestWeight) ∧
    ∃ c, (CstnuChecker.ofNetwork linkedNetwork untimed).initialise = (c, .ok ()) ∧
      (∀ w ∈ c.network.allValues, w.InRange) ∧ c.links.length = 1 ∧
      ∀ link ∈ c.links, link.Representable := by
  obtain ⟨plain, labelled⟩ := initialisation_within_range untimed
  constructor
  · have overflow : (StnuChecker.ofNetwork boundlessNetwork untimed).initialise =
        (_, .error (.fault .overflow)) := Prod.ext rfl (by decide +kernel)
    have slots : ∀ s ∈ boundlessNetwork.slots.toList, ∀ slot, s = some slot →
        ∀ w, slot.payload.value? = some w → w.InRange := by decide +kernel
    have inRange : ∀ u v w, boundlessNetwork.ordinary? u v = some w → w.InRange := by
      intro u v w weight
      rw [← Network.bind_value?] at weight
      obtain ⟨edge, joined, value⟩ := Option.bind_eq_some_iff.mp weight
      obtain ⟨e, slot, stored, _, _, rfl⟩ :=
        (Network.wellFormed_getD_build _ _).edgeBetween?_eq_some_iff.mp joined
      exact slots _ (Network.mem_slots stored) slot rfl w value
    obtain ⟨_, fails⟩ := plain boundlessNetwork _ _ (.getD_build _ _) inRange overflow
    obtain ⟨s, same⟩ | ⟨_, lowest⟩ := fails _ rfl
    · cases same
    · exact ⟨congrArg Prod.snd overflow, lowest⟩
  · have done : (CstnuChecker.ofNetwork linkedNetwork untimed).initialise = (_, .ok ()) :=
      Prod.ext rfl (by decide +kernel)
    obtain ⟨succeeds, _⟩ := labelled linkedNetwork _ _ (.getD_build _ _) (by decide +kernel) done
    obtain ⟨values, links, _⟩ := succeeds rfl
    exact ⟨_, done, values, by decide +kernel, links⟩

end TemporalNetwork
