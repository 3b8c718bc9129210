import TemporalNetwork.Proofs.Check.Enclosed
import TemporalNetwork.Stnu.Link

/-!
The preparation of networks without propositions. On an enclosed network it runs into no fault but the
negation of a bound that has none.
-/

namespace TemporalNetwork

open Preparation

variable {kinds : Fault → Prop} {d : Draft PlainEdge}

theorem Network.Enclosed.tighten {g : PlainNetwork} (enclosed : g.Enclosed) {source target : NodeId}
    (hs : source < g.nodeCount) (ht : target < g.nodeCount) (value : Value) :
    (g.tighten source target value).1.Enclosed ∧
      (g.tighten source target value).1.nodeCount = g.nodeCount := by
  have inserted := enclosed.edgeOrInsert hs ht (PlainEdge.ofKind .derived)
  have count := nodeCount_edgeOrInsert g source target (PlainEdge.ofKind .derived)
  unfold Network.tighten
  dsimp only
  split
  · exact ⟨inserted, count⟩
  · refine ⟨?_, count⟩
    dsimp only
    exact inserted.modifyEdge _ _

namespace StnuLink

/-- Whether the ends of a link are nodes of the network. -/
def Inside (link : StnuLink) (g : PlainNetwork) : Prop :=
  link.activation < g.nodeCount ∧ link.contingent < g.nodeCount

theorem keeps_boundBelow (enclosed : d.network.Enclosed) {z n : NodeId} (hz : z < d.network.nodeCount)
    (hn : n < d.network.nodeCount) : Keeps kinds (boundBelow z n) d fun _ _ => True := by
  obtain ⟨enclosed', count⟩ := enclosed.tighten hn hz 0
  have present : d.network.node? z = some d.network.nodes[z] := Array.getElem?_eq_getElem hz
  unfold boundBelow
  rw [keeps_network_bind, present]
  exact ⟨enclosed', Nat.le_of_eq count.symm, trivial⟩

theorem keeps_rawValue (enclosed : d.network.Enclosed) (e : EdgeId) :
    Keeps kinds (rawValue e) d fun _ k => k = d.network := by
  unfold rawValue
  rw [keeps_network_bind]
  split
  · exact keeps_pure enclosed rfl
  · exact keeps_throw enclosed (within_structural _)

theorem keeps_ofEdge? (overflow : kinds .overflow) (enclosed : d.network.Enclosed) (e : EdgeId) :
    Keeps kinds (ofEdge? e) d fun link k => ∀ l, link = some l → l.Inside k := by
  unfold ofEdge?
  rw [keeps_network_bind]
  cases stored : d.network.slot? e with
  | none => exact keeps_pure enclosed nofun
  | some slot =>
    obtain ⟨name, source, target, payload⟩ := slot
    have inside := enclosed.wellFormed.lt_of_findEdge?
      (enclosed.wellFormed.findEdge?_of_slot stored)
    dsimp only at inside ⊢
    split
    · exact keeps_throw enclosed (within_structural _)
    rename_i companion paired
    refine (keeps_rawValue enclosed e).bind fun value d₁ enclosed₁ _ same => ?_
    refine (keeps_rawValue enclosed₁ companion).bind fun value' d₂ enclosed₂ _ same' => ?_
    split
    · exact keeps_pure enclosed₂ nofun
    refine (keeps_negate enclosed₂ overflow value').bind fun lower d₃ enclosed₃ _ same'' => ?_
    split
    · exact keeps_throw enclosed₃ (within_structural _)
    · refine keeps_pure enclosed₃ fun link found => ?_
      cases found
      rw [same'', same', same]
      exact inside

theorem keeps_storeCaseValue (enclosed : d.network.Enclosed) {source target : NodeId}
    (hs : source < d.network.nodeCount) (ht : target < d.network.nodeCount) (case : CaseValue) :
    Keeps kinds (storeCaseValue source target case) d fun _ _ => True := by
  have inserted := enclosed.edgeOrInsert hs ht (PlainEdge.ofKind .internal)
  have count := Network.Enclosed.nodeCount_edgeOrInsert d.network source target
    (PlainEdge.ofKind .internal)
  unfold storeCaseValue
  refine (keeps_modifyNetwork inserted (Nat.le_of_eq count.symm)).bind fun _ d₁ enclosed₁ _ _ => ?_
  rw [keeps_network_bind]
  split
  · exact keeps_pure enclosed₁ trivial
  · split
    · exact keeps_throw enclosed₁ (within_structural _)
    · exact keeps_modifyNetwork (enclosed₁.modifyEdge _ _) (Nat.le_refl _)

theorem keeps_record (overflow : kinds .overflow) (enclosed : d.network.Enclosed) {link : StnuLink}
    (inside : link.Inside d.network) : Keeps kinds (record link) d fun _ _ => True := by
  obtain ⟨activation, contingent, lower, upper⟩ := link
  obtain ⟨ha, hc⟩ := inside
  dsimp only at ha hc
  have stores : Keeps kinds (do
        let negated ← negate upper
        storeCaseValue activation contingent ⟨.lower, contingent, lower⟩
        storeCaseValue contingent activation ⟨.upper, contingent, negated⟩
        modifyNetwork fun g => g.modifyNode contingent fun n => { n with contingent := true }
        modifyNetwork fun g => g.setActivation contingent activation) d fun _ _ => True := by
    refine (keeps_negate enclosed overflow upper).bind fun negated d₀ enclosed₀ _ same => ?_
    rw [← same] at ha hc
    refine (keeps_storeCaseValue enclosed₀ ha hc _).bind fun _ d₁ enclosed₁ le₁ _ => ?_
    refine (keeps_storeCaseValue enclosed₁ (Nat.lt_of_lt_of_le hc le₁) (Nat.lt_of_lt_of_le ha le₁)
      _).bind fun _ d₂ enclosed₂ le₂ _ => ?_
    have count : (d₂.network.modifyNode contingent fun n =>
        { n with contingent := true }).nodeCount = d₂.network.nodeCount := Array.size_modify ..
    refine (keeps_modifyNetwork (enclosed₂.modifyNode contingent _)
      (Nat.le_of_eq count.symm)).bind fun _ d₃ enclosed₃ le₃ _ => ?_
    have inside : activation < d₃.network.nodeCount :=
      Nat.lt_of_lt_of_le ha (Nat.le_trans le₁ (Nat.le_trans le₂ le₃))
    exact keeps_modifyNetwork (enclosed₃.setActivation contingent inside) (Nat.le_refl _)
  unfold record
  rw [keeps_network_bind]
  dsimp only
  split
  · rename_i first free
    obtain ⟨activated, _⟩ := Option.filter_eq_some_iff.mp free
    exact (keeps_nodeName enclosed (enclosed.activation?_lt activated)).bind
      fun _ d₁ enclosed₁ _ _ => keeps_throw enclosed₁ (within_structural _)
  · exact stores

theorem keeps_prepareAll (overflow : kinds .overflow) (enclosed : d.network.Enclosed) :
    Keeps kinds prepareAll d fun _ _ => True := by
  unfold prepareAll
  refine (keeps_ensureZ enclosed).bind fun z d₁ enclosed₁ _ reference => ?_
  have hz := enclosed₁.z z reference
  rw [keeps_network_bind]
  refine (keeps_forM _ (fun n mem d' enclosed' le => keeps_boundBelow enclosed'
    (Nat.lt_of_lt_of_le hz le) (Nat.lt_of_lt_of_le
      (List.mem_range.mp (List.mem_filter.mp mem).1) le)) enclosed₁).bind fun _ d₂ enclosed₂ _ _ => ?_
  rw [keeps_network_bind]
  have reads : Keeps kinds (d₂.network.contingentEdges.filterMapM ofEdge?) d₂ fun links k =>
      ∀ link ∈ links, link.Inside k := by
    refine (ends_filterMapM (fun _ kept (d' : Draft PlainEdge) => d'.network.Enclosed ∧
      d₂.network.nodeCount ≤ d'.network.nodeCount ∧ ∀ link ∈ kept, link.Inside d'.network) ?_ _ d₂
      ⟨enclosed₂, Nat.le_refl _, nofun⟩).mono ?_ fun _ _ => id
    · rintro e rest kept d' ⟨enclosed', le, inside⟩
      refine Ends.mono (keeps_ofEdge? overflow enclosed' e) ?_ fun _ _ => id
      rintro link d'' ⟨enclosed'', le', here⟩
      refine ⟨enclosed'', Nat.le_trans le le', fun l mem => ?_⟩
      rcases List.mem_append.mp mem with new | before
      · exact here l (Option.mem_toList.mp new)
      · exact ⟨Nat.lt_of_lt_of_le (inside l before).1 le', Nat.lt_of_lt_of_le (inside l before).2 le'⟩
    · rintro links d' ⟨enclosed', le, inside⟩
      exact ⟨enclosed', le, fun l mem => inside l (List.mem_reverse.mpr mem)⟩
  refine reads.bind fun links d₃ enclosed₃ _ inside => ?_
  refine (keeps_forM _ (fun link mem d' enclosed' le => keeps_record overflow enclosed'
    ⟨Nat.lt_of_lt_of_le (inside link mem).1 le, Nat.lt_of_lt_of_le (inside link mem).2 le⟩) enclosed₃).bind fun _ d₄ enclosed₄ _ _ => keeps_pure enclosed₄ trivial

end StnuLink

end TemporalNetwork
