import TemporalNetwork.Conditional.Controllability
import TemporalNetwork.Proofs.Check.Enclosed

/-!
The preparations of conditional networks. They run into no fault on an enclosed network but, where there
are contingent links, the negation of a bound that has none.
-/

namespace TemporalNetwork

open Preparation

variable {kinds : Fault → Prop} {d : Draft LabeledEdge}

namespace WellDefined

theorem keeps_clearZLabel (enclosed : d.network.Enclosed) {z : NodeId} (inside : z < d.network.nodeCount) :
    Keeps kinds (clearZLabel z) d fun _ _ => True := by
  unfold clearZLabel
  rw [keeps_network_bind]
  have present : d.network.node? z = some d.network.nodes[z] := Array.getElem?_eq_getElem inside
  rw [present]
  dsimp only
  split
  · refine (keeps_noteFix enclosed _).bind fun _ d₁ enclosed₁ _ _ => ?_
    have count : (d₁.network.modifyNode z fun n => { n with label := .empty }).nodeCount =
        d₁.network.nodeCount := Array.size_modify ..
    exact keeps_modifyNetwork (enclosed₁.modifyNode z _) (Nat.le_of_eq count.symm)
  · exact keeps_pure enclosed trivial

theorem keeps_failIf (enclosed : d.network.Enclosed) (e : Option StructuralError) :
    Keeps kinds (failIf e) d fun _ _ => True := by
  cases e with
  | none => exact keeps_pure enclosed trivial
  | some e => exact keeps_throw enclosed (within_structural e)

theorem keeps_closeNodeLabel (enclosed : d.network.Enclosed) (n : NodeId) :
    Keeps kinds (closeNodeLabel n) d fun _ _ => True := by
  unfold closeNodeLabel
  rw [keeps_network_bind]
  dsimp only
  split
  · exact keeps_throw enclosed (within_structural _)
  · exact keeps_throw enclosed (within_structural _)
  · split
    · refine (keeps_noteFix enclosed _).bind fun _ d₁ enclosed₁ _ _ => ?_
      exact keeps_modifyNetwork (enclosed₁.modifyNode n _)
        (Nat.le_of_eq (Array.size_modify ..).symm)
    · exact keeps_pure enclosed trivial

theorem keeps_repairValue (enclosed : d.network.Enclosed) (withNodeLabels : Bool) (e : EdgeId)
    (case : CaseLabel) (label : Label) (value : Value) :
    Keeps kinds (repairValue withNodeLabels e case label value) d fun _ _ => True := by
  have edits : ∀ (f : LabeledEdge → LabeledEdge) (fix : String), Keeps kinds (do
      modifyNetwork fun g => g.modifyEdge e f
      noteFix fix) d fun _ _ => True := by
    intro f fix
    refine (keeps_modifyNetwork (enclosed.modifyEdge e f) (Nat.le_refl _)).bind fun _ d₁ enclosed₁ _ _ => ?_
    exact (keeps_noteFix enclosed₁ fix).mono fun _ _ _ => trivial
  unfold repairValue
  rw [keeps_network_bind]
  cases d.network.slot? e with
  | none => exact keeps_pure enclosed trivial
  | some slot =>
    dsimp only
    split
    · exact keeps_pure enclosed trivial
    · exact keeps_throw enclosed (within_structural _)
    · exact edits _ _
    · exact edits _ _
    · exact edits _ _

theorem keeps_repairEdge (enclosed : d.network.Enclosed) (withNodeLabels : Bool) (e : EdgeId) :
    Keeps kinds (repairEdge withNodeLabels e) d fun _ _ => True := by
  unfold repairEdge
  rw [keeps_network_bind]
  cases d.network.edge? e with
  | none => exact keeps_pure enclosed trivial
  | some edge =>
    exact keeps_forM _ (fun v _ d' enclosed' _ => keeps_repairValue enclosed' _ e v.1 v.2.1 v.2.2)
      enclosed

theorem keeps_prepare (enclosed : d.network.Enclosed) (withNodeLabels : Bool) :
    Keeps kinds (prepare withNodeLabels) d fun z k => z < k.nodeCount := by
  have repairs : ∀ z d', d'.network.Enclosed → z < d'.network.nodeCount → Keeps kinds (do
      (← network).edgeIds.forM (repairEdge withNodeLabels)
      return z) d' fun z k => z < k.nodeCount := by
    intro z d' enclosed' inside
    rw [keeps_network_bind]
    refine (keeps_forM _
      (fun e _ _ enclosed'' _ => keeps_repairEdge enclosed'' withNodeLabels e) enclosed').bind fun _ d'' enclosed'' le _ => ?_
    exact keeps_pure enclosed'' (Nat.lt_of_lt_of_le inside le)
  unfold prepare
  refine (keeps_ensureZ enclosed).bind fun z d₁ enclosed₁ _ reference => ?_
  have inside := enclosed₁.z z reference
  refine (keeps_clearZLabel enclosed₁ inside).bind fun _ d₂ enclosed₂ le _ => ?_
  rw [keeps_network_bind]
  refine (keeps_failIf enclosed₂ _).bind fun _ d₃ enclosed₃ le' _ => ?_
  have inside₃ : z < d₃.network.nodeCount := Nat.lt_of_lt_of_le inside (Nat.le_trans le le')
  cases withNodeLabels with
  | false => exact repairs z d₃ enclosed₃ inside₃
  | true =>
    rw [if_pos rfl, keeps_network_bind]
    refine (keeps_forM _
      (fun n _ _ enclosed' _ => keeps_closeNodeLabel enclosed' n) enclosed₃).bind fun _ d₄ enclosed₄ le₄ _ => ?_
    rw [keeps_network_bind]
    refine (keeps_failIf enclosed₄ _).bind fun _ d₅ enclosed₅ le₅ _ => ?_
    exact repairs z d₅ enclosed₅ (Nat.lt_of_lt_of_le inside₃ (Nat.le_trans le₄ le₅))

end WellDefined

namespace ContingentLink

theorem keeps_rawValue (enclosed : d.network.Enclosed) (e : EdgeId) :
    Keeps kinds (rawValue e) d fun _ k => k = d.network := by
  unfold rawValue
  rw [keeps_network_bind]
  split
  · exact keeps_pure enclosed rfl
  · exact keeps_throw enclosed (within_structural _)

theorem keeps_storeCaseValues (overflow : kinds .overflow) (enclosed : d.network.Enclosed)
    (forward backward : EdgeId) (letter : CaseLetter) (label : Label) (lower upper : Value) :
    Keeps kinds (storeCaseValues forward backward letter label lower upper) d fun _ _ => True := by
  unfold storeCaseValues
  rw [keeps_network_bind]
  refine (keeps_negate enclosed overflow upper).bind fun _ d₁ enclosed₁ _ _ => ?_
  dsimp only
  split
  · exact keeps_throw enclosed₁ (within_structural _)
  · refine (keeps_modifyNetwork (enclosed₁.modifyEdge forward _)
      (Nat.le_refl _)).bind fun _ d₂ enclosed₂ _ _ => ?_
    exact keeps_modifyNetwork (enclosed₂.modifyEdge backward _) (Nat.le_refl _)

theorem keeps_addLink (overflow : kinds .overflow) (enclosed : d.network.Enclosed)
    (links : List ContingentLink) (used : CaseLabel) (e : EdgeId) :
    Keeps kinds (addLink links used e) d fun _ _ => True := by
  unfold addLink
  rw [keeps_network_bind]
  cases stored : d.network.slot? e with
  | none => exact keeps_pure enclosed trivial
  | some slot =>
    obtain ⟨name, source, target, payload⟩ := slot
    obtain ⟨inside, _⟩ := enclosed.wellFormed.lt_of_findEdge?
      (enclosed.wellFormed.findEdge?_of_slot stored)
    dsimp only at inside ⊢
    split
    · exact keeps_throw enclosed (within_structural _)
    rename_i companion paired
    refine (keeps_rawValue enclosed e).bind ?_
    rintro ⟨label, value⟩ d₁ enclosed₁ - same
    refine (keeps_rawValue enclosed₁ companion).bind ?_
    rintro ⟨label', value'⟩ d₂ enclosed₂ - same'
    rw [same] at same'
    dsimp only
    split
    · exact keeps_throw enclosed₂ (within_structural _)
    split
    · split
      · exact (keeps_negate enclosed₂ overflow value).bind fun _ d₃ enclosed₃ _ _ =>
          keeps_throw enclosed₃ (within_structural _)
      · exact keeps_pure enclosed₂ trivial
    refine (keeps_negate enclosed₂ overflow value').bind ?_
    rintro lower d₃ enclosed₃ - same''
    rw [same'] at same''
    split
    · exact keeps_throw enclosed₃ (within_structural _)
    split
    · rename_i first free
      obtain ⟨activated, _⟩ := Option.filter_eq_some_iff.mp free
      have inside' := enclosed.activation?_lt activated
      exact (keeps_nodeName enclosed₃ (same'' ▸ inside')).bind fun _ d₄ enclosed₄ _ _ =>
        keeps_throw enclosed₄ (within_structural _)
    split
    · exact keeps_throw enclosed₃ (within_structural _)
    rename_i letter _
    refine (keeps_storeCaseValues overflow enclosed₃ ..).bind fun _ d₄ enclosed₄ le _ => ?_
    -- Marking the node as contingent keeps the number of nodes, so the source stays inside.
    have count : (d₄.network.modifyNode target fun n =>
        { n with contingent := true, letter := some letter }).nodeCount = d₄.network.nodeCount :=
      Array.size_modify ..
    refine (keeps_modifyNetwork (enclosed₄.modifyNode target _)
      (Nat.le_of_eq count.symm)).bind fun _ d₅ enclosed₅ le' _ => ?_
    have inside₅ : source < d₅.network.nodeCount := by
      rw [same''] at le
      exact Nat.lt_of_lt_of_le inside (Nat.le_trans le le')
    refine (keeps_modifyNetwork (enclosed₅.setActivation target inside₅)
      (Nat.le_refl _)).bind fun _ d₆ enclosed₆ _ _ => ?_
    exact keeps_pure enclosed₆ trivial

theorem keeps_prepareAll (overflow : kinds .overflow) (enclosed : d.network.Enclosed) :
    Keeps kinds prepareAll d fun _ _ => True := by
  unfold prepareAll
  rw [keeps_network_bind]
  refine Keeps.bind (show Keeps kinds _ d fun _ _ => True from ?_)
    fun _ d₁ enclosed₁ _ _ => keeps_pure enclosed₁ trivial
  refine (ends_foldlM (fun _ _ (d' : Draft LabeledEdge) => d'.network.Enclosed ∧
    d.network.nodeCount ≤ d'.network.nodeCount) ?_ _ _ d ⟨enclosed, Nat.le_refl _⟩).mono ?_
    fun _ _ => id
  · rintro e rest ⟨links, used⟩ d' ⟨enclosed', le⟩
    refine Ends.mono (keeps_addLink overflow enclosed' links used e) ?_ fun _ _ => id
    rintro r d'' ⟨enclosed'', le', _⟩
    exact ⟨enclosed'', Nat.le_trans le le'⟩
  · rintro _ d' ⟨enclosed', le⟩
    exact ⟨enclosed', le, trivial⟩

end ContingentLink

namespace Network.Enclosed

variable {g : LabeledNetwork} {z n : NodeId}

theorem mergeInto (enclosed : g.Enclosed) (kind : ConstraintKind) {source target : NodeId}
    (hs : source < g.nodeCount) (ht : target < g.nodeCount) (case : CaseLabel) (label : Label)
    (value : Value) : (g.mergeInto kind source target case label value).1.Enclosed ∧
      (g.mergeInto kind source target case label value).1.nodeCount = g.nodeCount := by
  have inserted := enclosed.edgeOrInsert hs ht (LabeledEdge.ofKind kind)
  have count := nodeCount_edgeOrInsert g source target (LabeledEdge.ofKind kind)
  unfold Network.mergeInto
  dsimp only
  split
  · exact ⟨inserted, count⟩
  · refine ⟨?_, count⟩
    dsimp only
    exact inserted.modifyEdge _ _

theorem boundNode (enclosed : g.Enclosed) (hz : z < g.nodeCount) (horizon : Value) (label : Label)
    (hn : n < g.nodeCount) : (g.boundNode z horizon label n).Enclosed ∧
      (g.boundNode z horizon label n).nodeCount = g.nodeCount := by
  obtain ⟨enclosed', count⟩ := enclosed.mergeInto .internal hn hz .empty label 0
  obtain ⟨enclosed'', count'⟩ := enclosed'.mergeInto .internal (count.symm ▸ hz) (count.symm ▸ hn)
    .empty label horizon
  exact ⟨enclosed'', count'.trans count⟩

theorem addBounds (enclosed : g.Enclosed) (hz : z < g.nodeCount) (horizon : Value)
    (withNodeLabels : Bool) : (g.addBounds z horizon withNodeLabels).Enclosed ∧
      (g.addBounds z horizon withNodeLabels).nodeCount = g.nodeCount := by
  have all : ∀ (label : LabeledNetwork → NodeId → Label) (todo : List NodeId) (h : LabeledNetwork),
      h.Enclosed → h.nodeCount = g.nodeCount → (∀ n ∈ todo, n < g.nodeCount) →
      (todo.foldl (fun g n => g.boundNode z horizon (label g n) n) h).Enclosed ∧
        (todo.foldl (fun g n => g.boundNode z horizon (label g n) n) h).nodeCount = g.nodeCount := by
    intro label todo
    induction todo with
    | nil => exact fun h enclosed' count _ => ⟨enclosed', count⟩
    | cons n rest ih =>
      intro h enclosed' count inside
      obtain ⟨enclosed'', count'⟩ := enclosed'.boundNode (count.symm ▸ hz) horizon (label h n)
        (count.symm ▸ inside n List.mem_cons_self)
      exact ih _ enclosed'' (count'.trans count) fun m mem => inside m (List.mem_cons_of_mem n mem)
  exact all (fun g n => if withNodeLabels then (g.nodeD n).label else .empty) _ g enclosed rfl
    fun n mem => List.mem_range.mp (List.mem_filter.mp mem).1

end Network.Enclosed

theorem CstnChecker.keeps_prepare (enclosed : d.network.Enclosed) (withNodeLabels : Bool) :
    Keeps kinds (CstnChecker.prepare withNodeLabels) d fun _ _ => True := by
  unfold CstnChecker.prepare
  refine (WellDefined.keeps_prepare enclosed withNodeLabels).bind fun z d₁ enclosed₁ _ inside => ?_
  rw [keeps_network_bind]
  split
  · exact keeps_throw enclosed₁ (within_structural _)
  · split
    · exact keeps_throw enclosed₁ (within_range _)
    · rename_i horizon _
      obtain ⟨enclosed₂, count⟩ := enclosed₁.addBounds inside horizon.value withNodeLabels
      refine (keeps_modifyNetwork enclosed₂ (Nat.le_of_eq count.symm)).bind fun _ d₃ enclosed₃ _ _ => keeps_pure enclosed₃ trivial

theorem CstnuChecker.keeps_prepare (overflow : kinds .overflow) (enclosed : d.network.Enclosed)
    (withNodeLabels : Bool) :
    Keeps kinds (CstnuChecker.prepare withNodeLabels) d fun _ _ => True := by
  unfold CstnuChecker.prepare
  refine (WellDefined.keeps_prepare enclosed withNodeLabels).bind fun z d₁ enclosed₁ _ inside => ?_
  refine (ContingentLink.keeps_prepareAll overflow enclosed₁).bind fun _ d₂ enclosed₂ le _ => ?_
  rw [keeps_network_bind]
  split
  · exact keeps_throw enclosed₂ (within_range _)
  · rename_i horizon _
    obtain ⟨enclosed₃, count⟩ := enclosed₂.addBounds (Nat.lt_of_lt_of_le inside le) horizon.value
      withNodeLabels
    refine (keeps_modifyNetwork enclosed₃ (Nat.le_of_eq count.symm)).bind fun _ d₄ enclosed₄ _ _ => keeps_pure enclosed₄ trivial

end TemporalNetwork
