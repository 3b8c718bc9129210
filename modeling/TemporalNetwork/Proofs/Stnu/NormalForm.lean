import Mathlib.Data.Finset.Card
import TemporalNetwork.Proofs.Loops
import TemporalNetwork.Proofs.Network.Names
import TemporalNetwork.Proofs.Stnu.Weights
import TemporalNetwork.Stnu.NormalForm

/-!
What the normal form of a network consists of: the links that take a positive time are started at new
nodes, and the case values are those of the links that result.
-/

namespace TemporalNetwork

namespace Network

variable {g : PlainNetwork}

/-- What is read off a well-formed network: the number of its nodes, its ordinary weights and its case
values. -/
structure Reads (g : PlainNetwork) (count : Nat) (weights : NodeId → NodeId → Value)
    (cases : NodeId → NodeId → Option CaseValue) : Prop where
  wellFormed : g.WellFormed
  nodeCount : g.nodeCount = count
  bound : ∀ u v, g.bound u v = weights u v
  case? : ∀ u v, g.case? u v = cases u v

namespace Reads

variable {count : Nat} {weights : NodeId → NodeId → Value}
  {cases : NodeId → NodeId → Option CaseValue} {u v : NodeId}

theorem of_wellFormed (wf : g.WellFormed) : g.Reads g.nodeCount g.bound g.case? :=
  ⟨wf, rfl, fun _ _ => rfl, fun _ _ => rfl⟩

theorem addNode (reads : g.Reads count weights cases) {n : Node} {h : PlainNetwork} {id : NodeId}
    (added : g.addNode n = some (h, id)) : id = count ∧ h.Reads (count + 1) weights cases := by
  have found := findEdge?_addNode reads.wellFormed added
  have wf := reads.wellFormed.addNode added
  have joined : ∀ u v, h.edgeBetween? u v = g.edgeBetween? u v := by
    intro u v
    have stored : h.edge? = g.edge? := by
      unfold Network.addNode at added
      split at added
      · cases added
      · cases added
        rfl
    rw [edgeBetween?, found, stored, edgeBetween?]
  have ids : id = g.nodeCount ∧ h.nodeCount = g.nodeCount + 1 := by
    unfold Network.addNode at added
    split at added
    · cases added
    · cases added
      exact ⟨rfl, Array.size_push _⟩
  refine ⟨ids.1.trans reads.nodeCount, wf, ids.2.trans (by rw [reads.nodeCount]), fun u v => ?_,
    fun u v => ?_⟩
  · rw [← reads.bound, Network.bound, joined, Network.bound]
  · rw [← reads.case?, Network.case?, joined, Network.case?]

theorem tighten (reads : g.Reads count weights cases) (hu : u < count) (hv : v < count)
    (value : Value) :
    (g.tighten u v value).1.Reads count
      (fun a b => if u = a ∧ v = b then min value (weights u v) else weights a b) cases := by
  obtain ⟨wf, rfl, bound, case?⟩ := reads
  refine ⟨wf.tighten hu hv value, congrArg Array.size (nodes_tighten wf hu hv value), fun a b => ?_,
    fun a b => (case?_tighten wf hu hv value a b).trans (case? a b)⟩
  rw [bound_tighten wf hu hv, bound, bound]

theorem storeCase (reads : g.Reads count weights cases) (hu : u < count) (hv : v < count)
    (value : Value) (case : CaseValue) :
    (g.storeCase u v value case).Reads count
      (fun a b => if u = a ∧ v = b then min value (weights u v) else weights a b)
      (fun a b => if u = a ∧ v = b then some case else cases a b) := by
  obtain ⟨wf, rfl, bound, case?⟩ := reads
  have wf' := wf.edgeOrInsert hu hv (PlainEdge.ofKind .internal)
  have found := findEdge?_edgeOrInsert wf hu hv (PlainEdge.ofKind .internal)
  have joined := edgeBetween?_edgeOrInsert wf hu hv (PlainEdge.ofKind .internal)
  have stored := edgeBetween?_modifyEdge wf' found
    fun edge => { (edge.tighten value).1 with case := some case }
  unfold Network.storeCase
  dsimp only
  refine ⟨wf'.modifyEdge _ _, congrArg Array.size (nodes_edgeOrInsert g u v _), fun a b => ?_,
    fun a b => ?_⟩
  · rw [← bound, ← bound, Network.bound, stored, joined]
    split
    · rw [Option.map_some, Option.map_some, Option.getD_some, Network.bound]
      dsimp only
      rw [PlainEdge.weight_tighten]
      cases g.edgeBetween? u v <;> rfl
    · rfl
  · rw [← case?, Network.case?, stored, joined]
    split
    · rfl
    · rfl

theorem clearCaseBetween (reads : g.Reads count weights cases) (u v : NodeId) :
    (NormalForm.clearCaseBetween g u v).Reads count weights
      (fun a b => if u = a ∧ v = b then none else cases a b) := by
  obtain ⟨wf, rfl, bound, case?⟩ := reads
  unfold NormalForm.clearCaseBetween
  cases found : g.findEdge? u v with
  | none =>
    refine ⟨wf, rfl, bound, fun a b => ?_⟩
    rw [← case?]
    dsimp only
    split
    · rename_i same
      rw [← same.1, ← same.2, Network.case?, edgeBetween?, found]
      rfl
    · rfl
  | some e =>
    have stored := edgeBetween?_modifyEdge wf found fun edge => { edge with case := none }
    refine ⟨wf.modifyEdge _ _, rfl, fun a b => ?_, fun a b => ?_⟩
    · rw [← bound, Network.bound, stored, Network.bound]
      split
      · cases g.edgeBetween? a b <;> rfl
      · rfl
    · rw [← case?, Network.case?, stored]
      split
      · cases g.edgeBetween? a b <;> rfl
      · rfl

theorem setActivation (reads : g.Reads count weights cases) (contingent activation : NodeId) :
    (g.setActivation contingent activation).Reads count weights cases :=
  ⟨reads.wellFormed.setActivation _ _, reads.nodeCount, reads.bound, reads.case?⟩

end Reads

theorem bound_of_le_left (wf : g.WellFormed) {u : NodeId} (outside : g.nodeCount ≤ u) (v : NodeId) :
    g.bound u v = Value.posInf := by
  cases joined : g.edgeBetween? u v with
  | none => rw [bound, joined, Option.map_none, Option.getD_none]
  | some edge => exact absurd (wf.lt_of_edgeBetween? joined).1 (not_lt.mpr outside)

theorem bound_of_le_right (wf : g.WellFormed) (u : NodeId) {v : NodeId} (outside : g.nodeCount ≤ v) :
    g.bound u v = Value.posInf := by
  cases joined : g.edgeBetween? u v with
  | none => rw [bound, joined, Option.map_none, Option.getD_none]
  | some edge => exact absurd (wf.lt_of_edgeBetween? joined).2 (not_lt.mpr outside)

theorem lt_of_ordinary? (wf : g.WellFormed) {u v : NodeId} {w : Value}
    (h : g.ordinary? u v = some w) : u < g.nodeCount ∧ v < g.nodeCount := by
  rw [← bind_value?] at h
  obtain ⟨edge, joined, _⟩ := Option.bind_eq_some_iff.mp h
  exact wf.lt_of_edgeBetween? joined

end Network

namespace NormalForm

variable {g : PlainNetwork} {link : StnuLink}

theorem length_join_replicate (n : Nat) : (String.join (List.replicate n "'")).length = n := by
  induction n with
  | zero => rfl
  | succ n ih =>
    rw [List.replicate_succ, String.join_cons, String.length_append, ih]
    exact Nat.add_comm 1 n

/-- Of one more name than there are nodes some is free. -/
theorem findNode?_freshName (g : PlainNetwork) (base : String) :
    g.findNode? (freshName g base) = none := by
  let name : Nat → String := fun i => base ++ String.join (List.replicate (i + 1) "'")
  by_contra present
  have taken : ∀ i, i < g.nodeCount + 1 →
      ∃ n, n < g.nodeCount ∧ (g.node? n).map Node.name = some (name i) := by
    intro i hi
    have found := taken_of_firstUnused (fun name => (g.findNode? name).isSome) name
      (Option.isSome_iff_ne_none.mpr present) i (Nat.zero_le i) (by omega)
    obtain ⟨n, found⟩ := Option.isSome_iff_exists.mp found
    obtain ⟨inside, named, _⟩ := Array.findIdx?_eq_some_iff_getElem.mp found
    refine ⟨n, inside, ?_⟩
    rw [Network.node?, Array.getElem?_eq_getElem inside, Option.map_some, beq_iff_eq.mp named]
  choose! place inside named using taken
  obtain ⟨i, hi, j, hj, apart, same⟩ := Finset.exists_ne_map_eq_of_card_lt_of_maps_to
    (s := Finset.range (g.nodeCount + 1)) (t := Finset.range g.nodeCount) (f := place) (by simp)
    fun i hi => Finset.mem_coe.mpr (Finset.mem_range.mpr (inside i (Finset.mem_range.mp hi)))
  rw [Finset.mem_range] at hi hj
  have equal := named i hi
  rw [same, named j hj, Option.some.injEq] at equal
  have lengths := congrArg String.length equal
  simp only [name, String.length_append, length_join_replicate] at lengths
  omega

/-- One turn of the search for a name that no node has: one more prime is tried. -/
def nextName (g : PlainNetwork) (base : String) (i : Nat) : Nat ⊕ String :=
  let name := base ++ String.join (List.replicate (i + 1) "'")
  if (g.findNode? name).isSome then .inl (i + 1) else .inr name

theorem endsWith_freshName (g : PlainNetwork) (base : String) :
    EndsWith (nextName g base) 0 (freshName g base) := by
  have loop : ∀ fuel i, g.findNode? (firstUnused (fun name => (g.findNode? name).isSome)
      (fun i => base ++ String.join (List.replicate (i + 1) "'")) fuel i) = none →
      EndsWith (nextName g base) i (firstUnused (fun name => (g.findNode? name).isSome)
        (fun i => base ++ String.join (List.replicate (i + 1) "'")) fuel i) := by
    intro fuel
    induction fuel with
    | zero =>
      intro i free
      refine ⟨i, .refl i, ?_⟩
      rw [firstUnused] at free
      rw [nextName, free]
      rfl
    | succ fuel ih =>
      intro i free
      rw [firstUnused] at free ⊢
      split
      · rename_i taken
        rw [if_pos taken] at free
        refine .of_comes (.head ?_ (.refl (i + 1))) (ih (i + 1) free)
        rw [nextName, if_pos taken]
      · rename_i unused
        refine ⟨i, .refl i, ?_⟩
        rw [nextName, if_neg unused]
  exact loop _ _ (findNode?_freshName g base)

/-- The link that is started at a new node. -/
def shifted (g : PlainNetwork) (link : StnuLink) : StnuLink :=
  ⟨g.nodeCount, link.contingent, 0, link.upper - link.lower⟩

/-- A network in which a link is started at a new node, the last one. -/
def Shifted (g : PlainNetwork) (link : StnuLink) (h : PlainNetwork) : Prop :=
  h.Reads (g.nodeCount + 1)
    (fun u v =>
      if link.contingent = u ∧ g.nodeCount = v then 0
      else if g.nodeCount = u ∧ link.contingent = v then min (link.upper - link.lower) Value.posInf
      else if g.nodeCount = u ∧ link.activation = v then min (-link.lower) Value.posInf
      else if link.activation = u ∧ g.nodeCount = v then min link.lower Value.posInf
      else g.bound u v)
    (fun u v =>
      if link.contingent = u ∧ g.nodeCount = v then
        some ⟨.upper, link.contingent, -(link.upper - link.lower)⟩
      else if g.nodeCount = u ∧ link.contingent = v then some ⟨.lower, link.contingent, 0⟩
      else if link.contingent = u ∧ link.activation = v then none
      else if link.activation = u ∧ link.contingent = v then none
      else g.case? u v)

theorem addNode_freshName (g : PlainNetwork) (base : String) :
    ∃ h, g.addNode (Node.named (freshName g base)) = some (h, g.nodeCount) := by
  unfold Network.addNode
  rw [Node.named, findNode?_freshName]
  exact ⟨_, rfl⟩

theorem shiftLink_snd (g : PlainNetwork) (link : StnuLink) :
    (shiftLink g link).2 = shifted g link := by
  obtain ⟨activation, contingent, lower, upper⟩ := link
  obtain ⟨h, added⟩ := addNode_freshName g (g.nodeName activation)
  unfold shiftLink
  dsimp only
  rw [added]
  rfl

theorem shiftLink_spec (wf : g.WellFormed)
    (inside : link.activation < g.nodeCount ∧ link.contingent < g.nodeCount) :
    (shiftLink g link).1.WellFormed ∧
      (link.activation ≠ link.contingent → Shifted g link (shiftLink g link).1) := by
  obtain ⟨activation, contingent, lower, upper⟩ := link
  dsimp only at inside
  obtain ⟨ha, hc⟩ := inside
  obtain ⟨h, added⟩ := addNode_freshName g (g.nodeName activation)
  unfold shiftLink
  dsimp only
  rw [added]
  obtain ⟨_, reads⟩ := (Network.Reads.of_wellFormed wf).addNode added
  have ha' := Nat.lt_succ_of_lt ha
  have hc' := Nat.lt_succ_of_lt hc
  have hs := Nat.lt_succ_self g.nodeCount
  have edited := (((((((reads.tighten ha' hs lower).tighten hs ha' (-lower)).clearCaseBetween
    activation contingent).clearCaseBetween contingent activation).storeCase hs hc' (upper - lower)
    ⟨.lower, contingent, 0⟩).storeCase hc' hs 0 ⟨.upper, contingent, -(upper - lower)⟩).setActivation
    contingent g.nodeCount)
  refine ⟨edited.wellFormed, fun apart => ?_⟩
  refine ⟨edited.wellFormed, edited.nodeCount, fun u v => (edited.bound u v).trans ?_, edited.case?⟩
  have zero : min 0 Value.posInf = 0 := by decide
  simp only [ha.ne, ha.ne', hc.ne, hc.ne', apart, false_and, and_false, if_false,
    Network.bound_of_le_right wf _ le_rfl, Network.bound_of_le_left wf le_rfl, zero]

theorem shifted_shiftLink (wf : g.WellFormed)
    (inside : link.activation < g.nodeCount ∧ link.contingent < g.nodeCount)
    (apart : link.activation ≠ link.contingent) : Shifted g link (shiftLink g link).1 :=
  (shiftLink_spec wf inside).2 apart

theorem Shifted.ordinary?_cases {h : PlainNetwork} (shift : Shifted g link h) (wf : g.WellFormed) {u v : NodeId} {w : Value}
    (weight : h.ordinary? u v = some w) :
    (u = link.contingent ∧ v = g.nodeCount ∧ w = 0) ∨
      (u = g.nodeCount ∧ v = link.contingent ∧ w = link.upper - link.lower) ∨
      (u = g.nodeCount ∧ v = link.activation ∧ w = -link.lower) ∨
      (u = link.activation ∧ v = g.nodeCount ∧ w = link.lower) ∨
      u < g.nodeCount ∧ v < g.nodeCount ∧ g.ordinary? u v = some w := by
  obtain ⟨reads, finite⟩ := Network.ordinary?_eq_some_iff.mp weight
  have uncapped : ∀ x, min x Value.posInf = w → w = x := by
    intro x same
    rcases min_choice x Value.posInf with least | least
    · exact same.symm.trans least
    · exact absurd (same.symm.trans least) finite
  rw [shift.bound] at reads
  split at reads
  · rename_i same
    exact Or.inl ⟨same.1.symm, same.2.symm, reads.symm⟩
  · refine Or.inr ?_
    split at reads
    · rename_i same
      exact Or.inl ⟨same.1.symm, same.2.symm, uncapped _ reads⟩
    · refine Or.inr ?_
      split at reads
      · rename_i same
        exact Or.inl ⟨same.1.symm, same.2.symm, uncapped _ reads⟩
      · refine Or.inr ?_
        split at reads
        · rename_i same
          exact Or.inl ⟨same.1.symm, same.2.symm, uncapped _ reads⟩
        · have weight' := Network.ordinary?_eq_some_iff.mpr ⟨reads, finite⟩
          obtain ⟨hu, hv⟩ := Network.lt_of_ordinary? wf weight'
          exact Or.inr ⟨hu, hv, weight'⟩

/-- The new node is executed the shortest duration after the activation node. -/
theorem Shifted.ordinary?_around {h : PlainNetwork} (shift : Shifted g link h)
    (inside : link.activation < g.nodeCount ∧ link.contingent < g.nodeCount)
    (apart : link.activation ≠ link.contingent) (nonneg : 0 ≤ link.lower)
    (finite : link.lower < Value.posInf) :
    h.ordinary? link.activation g.nodeCount = some link.lower ∧
      h.ordinary? g.nodeCount link.activation = some (-link.lower) := by
  obtain ⟨ha, hc⟩ := inside
  have less : -link.lower < Value.posInf := (neg_nonpos.mpr nonneg).trans_lt (by decide)
  refine ⟨Network.ordinary?_eq_some_iff.mpr ⟨?_, finite.ne⟩,
    Network.ordinary?_eq_some_iff.mpr ⟨?_, less.ne⟩⟩
  · rw [shift.bound, if_neg fun same => apart same.1.symm, if_neg fun same => ha.ne' same.1,
      if_neg fun same => ha.ne same.2, if_pos ⟨rfl, rfl⟩, min_eq_left finite.le]
  · rw [shift.bound, if_neg fun same => hc.ne same.1, if_neg fun same => apart same.2.symm,
      if_pos ⟨rfl, rfl⟩, min_eq_left less.le]

theorem ofLinks_induct {I : PlainNetwork → List StnuLink → Prop}
    (shift : ∀ g before link rest, I g (before ++ link :: rest) → 0 < link.lower →
      I (shiftLink g link).1 (before ++ shifted g link :: rest))
    (links before : List StnuLink) (g : PlainNetwork) (start : I g (before ++ links)) :
    I (ofLinks g links).1 (before ++ (ofLinks g links).2.1) := by
  induction links generalizing g before with
  | nil => exact start
  | cons link rest ih =>
    unfold ofLinks
    split
    · rename_i positive
      have next := ih (before ++ [shifted g link]) (shiftLink g link).1
      rw [List.append_assoc, List.append_assoc] at next
      rw [← shiftLink_snd] at next
      refine next ?_
      rw [shiftLink_snd]
      exact shift g before link rest start positive
    · have next := ih (before ++ [link]) g
      rw [List.append_assoc, List.append_assoc] at next
      exact next start

theorem lower_le_of_mem_ofLinks {links : List StnuLink} {g : PlainNetwork} {link : StnuLink}
    (mem : link ∈ (ofLinks g links).2.1) : link.lower ≤ 0 := by
  induction links generalizing g with
  | nil => cases mem
  | cons first rest ih =>
    unfold ofLinks at mem
    split at mem
    · rcases List.mem_cons.mp mem with here | later
      · rw [here, shiftLink_snd]
        exact le_rfl
      · exact ih later
    · rename_i none
      rcases List.mem_cons.mp mem with here | later
      · rw [here]
        exact not_lt.mp none
      · exact ih later

end NormalForm

/-- A network whose case values are those of the links, each of which takes some time. -/
structure Carries (g : PlainNetwork) (links : List StnuLink) : Prop where
  wellFormed : g.WellFormed
  inside : ∀ link ∈ links, link.activation < g.nodeCount ∧ link.contingent < g.nodeCount
  apart : ∀ link ∈ links, link.activation ≠ link.contingent
  nonneg : ∀ link ∈ links, 0 ≤ link.lower
  range : ∀ link ∈ links, link.lower < link.upper
  distinct : (links.map StnuLink.contingent).Nodup
  owned : ∀ u v c, g.case? u v = some c → ∃ link ∈ links,
    u = link.activation ∧ v = link.contingent ∧ c = ⟨.lower, link.contingent, link.lower⟩ ∨
      u = link.contingent ∧ v = link.activation ∧ c = ⟨.upper, link.contingent, -link.upper⟩
  stored : ∀ link ∈ links,
    g.case? link.activation link.contingent = some ⟨.lower, link.contingent, link.lower⟩ ∧
      g.case? link.contingent link.activation = some ⟨.upper, link.contingent, -link.upper⟩

namespace Carries

open NormalForm

variable {g h : PlainNetwork} {before rest : List StnuLink} {link : StnuLink}

theorem eq_of_contingent {links : List StnuLink} (carries : Carries g links) {i j : Nat}
    {link other : StnuLink} (listed : links[i]? = some link) (listed' : links[j]? = some other)
    (same : link.contingent = other.contingent) : i = j := by
  obtain ⟨inside, _⟩ := List.getElem?_eq_some_iff.mp listed
  refine (List.getElem?_inj (by simpa using inside) carries.distinct).mp ?_
  rw [List.getElem?_map, List.getElem?_map, listed, listed', Option.map_some, Option.map_some, same]

theorem ne_contingent (carries : Carries g (before ++ link :: rest)) {other : StnuLink}
    (mem : other ∈ before ++ rest) : other.contingent ≠ link.contingent := by
  have perm : (before ++ link :: rest).Perm (link :: (before ++ rest)) := List.perm_middle
  have distinct := (perm.map StnuLink.contingent).nodup_iff.mp carries.distinct
  rw [List.map_cons, List.nodup_cons] at distinct
  intro same
  exact distinct.1 (same ▸ List.mem_map_of_mem mem)

theorem case?_shifted (carries : Carries g (before ++ link :: rest)) (shift : Shifted g link h)
    {other : StnuLink} (mem : other ∈ before ++ rest) :
    h.case? other.activation other.contingent = g.case? other.activation other.contingent ∧
      h.case? other.contingent other.activation = g.case? other.contingent other.activation := by
  have mem' : other ∈ before ++ link :: rest := by
    rw [List.mem_append, List.mem_cons]
    rw [List.mem_append] at mem
    tauto
  have here : link ∈ before ++ link :: rest := by simp
  have ne := carries.ne_contingent mem
  obtain ⟨ha, hc⟩ := carries.inside other mem'
  obtain ⟨lower, upper⟩ := carries.stored other mem'
  obtain ⟨lower', upper'⟩ := carries.stored link here
  -- The two links do not join the same nodes in opposite directions.
  have opposite : ¬ (link.contingent = other.activation ∧ link.activation = other.contingent) := by
    rintro ⟨source, target⟩
    rw [source, target, lower] at upper'
    cases upper'
  rw [shift.case?, shift.case?, if_neg (fun same => hc.ne' same.2),
    if_neg (fun same => ha.ne' same.1), if_neg opposite, if_neg (fun same => ne same.2.symm),
    if_neg (fun same => ha.ne' same.2), if_neg (fun same => hc.ne' same.1),
    if_neg (fun same => ne same.1.symm), if_neg (fun same => opposite ⟨same.2, same.1⟩)]
  exact ⟨rfl, rfl⟩

theorem shift (carries : Carries g (before ++ link :: rest)) (shift : Shifted g link h) :
    Carries h (before ++ shifted g link :: rest) := by
  have here : link ∈ before ++ link :: rest := by simp
  -- Of the links after the shift one is new, and the others are links from before.
  have cases_mem : ∀ {p : StnuLink → Prop}, p (shifted g link) →
      (∀ other ∈ before ++ rest, other ∈ before ++ link :: rest → p other) →
      ∀ other ∈ before ++ shifted g link :: rest, p other := by
    intro p new old other mem
    simp only [List.mem_append, List.mem_cons] at mem old
    rcases mem with early | rfl | late
    · exact old other (Or.inl early) (Or.inl early)
    · exact new
    · exact old other (Or.inr late) (Or.inr (Or.inr late))
  have range := carries.range link here
  obtain ⟨ha, hc⟩ := carries.inside link here
  refine ⟨shift.wellFormed, cases_mem ⟨?_, ?_⟩ fun other _ mem => ?_, cases_mem hc.ne'
    fun other _ => carries.apart other, cases_mem le_rfl fun other _ => carries.nonneg other,
    cases_mem ?_ fun other _ => carries.range other, ?_, fun u v c found => ?_, cases_mem ?_ ?_⟩
  · rw [shift.nodeCount]
    exact Nat.lt_succ_self _
  · rw [shift.nodeCount]
    exact Nat.lt_succ_of_lt hc
  · rw [shift.nodeCount]
    exact (carries.inside other mem).imp Nat.lt_succ_of_lt Nat.lt_succ_of_lt
  · exact sub_pos.mpr range
  · simpa [shifted] using carries.distinct
  · rw [shift.case?] at found
    have new : shifted g link ∈ before ++ shifted g link :: rest := by simp
    split at found
    · rename_i same
      exact ⟨_, new, Or.inr ⟨same.1.symm, same.2.symm, (Option.some.inj found).symm⟩⟩
    · split at found
      · rename_i same
        exact ⟨_, new, Or.inl ⟨same.1.symm, same.2.symm, (Option.some.inj found).symm⟩⟩
      · split at found
        · cases found
        · rename_i behind
          split at found
          · cases found
          · rename_i ahead
            obtain ⟨other, mem, ends⟩ := carries.owned u v c found
            refine ⟨other, ?_, ends⟩
            simp only [List.mem_append, List.mem_cons] at mem ⊢
            rcases mem with early | rfl | late
            · exact Or.inl early
            · rcases ends with ⟨rfl, rfl, _⟩ | ⟨rfl, rfl, _⟩
              · exact absurd ⟨rfl, rfl⟩ ahead
              · exact absurd ⟨rfl, rfl⟩ behind
            · exact Or.inr (Or.inr late)
  · rw [shift.case?, shift.case?]
    refine ⟨?_, if_pos ⟨rfl, rfl⟩⟩
    exact (if_neg fun same => hc.ne same.1).trans (if_pos ⟨rfl, rfl⟩)
  · intro other others mem
    obtain ⟨lower, upper⟩ := carries.case?_shifted shift others
    rw [lower, upper]
    exact carries.stored other mem

theorem tightened {links : List StnuLink} (carries : Carries g links)
    {into : NodeId → Prop} (tightened : g.TightenedInto into h) (wf : h.WellFormed) :
    Carries h links := by
  refine ⟨wf, fun link mem => ?_, carries.apart, carries.nonneg, carries.range, carries.distinct,
    fun u v c found => ?_, fun link mem => ?_⟩
  · rw [tightened.nodeCount]
    exact carries.inside link mem
  · rw [tightened.case?] at found
    exact carries.owned u v c found
  · rw [tightened.case?, tightened.case?]
    exact carries.stored link mem

end Carries

end TemporalNetwork
