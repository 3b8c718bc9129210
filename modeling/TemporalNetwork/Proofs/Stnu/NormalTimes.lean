import Mathlib
import TemporalNetwork.Proofs.Stnu.NodeVerdict
import TemporalNetwork.Proofs.Stnu.NormalSchedule

/-!
The normal form of a network means what the network means. Each link with a positive shortest duration
is started at a node of its own, which is new; times for the network fix those of the new nodes, and
times for the normal form are times for the network.
-/

namespace TemporalNetwork

namespace Network

variable {E : Type} {g : PlainNetwork}

theorem sameNodes_modifyEdge (g : Network E) (e : EdgeId) (f : E → E) :
    g.SameNodes (g.modifyEdge e f) :=
  ⟨rfl, rfl, rfl⟩

theorem sameNodes_edgeOrInsert (g : Network E) (u v : NodeId) (payload : E) :
    g.SameNodes (g.edgeOrInsert u v payload).1 := by
  unfold edgeOrInsert
  split
  · exact .refl g
  · exact sameNodes_insertEdge ..

theorem sameNodes_tighten (g : PlainNetwork) (u v : NodeId) (value : Value) :
    g.SameNodes (g.tighten u v value).1 := by
  have inserted := sameNodes_edgeOrInsert g u v (PlainEdge.ofKind .derived)
  unfold tighten
  dsimp only
  split
  · exact inserted
  · dsimp only
    exact inserted.trans (sameNodes_modifyEdge ..)

theorem sameNodes_storeCase (g : PlainNetwork) (u v : NodeId) (value : Value) (case : CaseValue) :
    g.SameNodes (g.storeCase u v value case) := by
  have inserted := sameNodes_edgeOrInsert g u v (PlainEdge.ofKind .internal)
  unfold storeCase
  exact inserted.trans (sameNodes_modifyEdge ..)

theorem sameNodes_clearCaseBetween (g : PlainNetwork) (u v : NodeId) :
    g.SameNodes (NormalForm.clearCaseBetween g u v) := by
  unfold NormalForm.clearCaseBetween
  split
  · exact .refl g
  · exact sameNodes_modifyEdge ..

theorem SameNodes.setActivation {h : Network E} {g : Network E} (same : g.SameNodes h)
    (contingent activation : NodeId) :
    (g.setActivation contingent activation).SameNodes (h.setActivation contingent activation) where
  nodes := same.nodes
  z := same.z
  activations := by
    unfold Network.setActivation
    rw [same.activations]

theorem SameNodes.activation? {h : Network E} {g : Network E} (same : g.SameNodes h) (n : NodeId) :
    h.activation? n = g.activation? n := by
  rw [Network.activation?, same.activations, Network.activation?]

theorem WellFormed.forall_edges {g : Network E} (wf : g.WellFormed) {P : NodeId → NodeId → E → Prop}
    (slots : ∀ s ∈ g.slots.toList, ∀ slot, s = some slot → P slot.source slot.target slot.payload)
    {u v : NodeId} {edge : E} (joined : g.edgeBetween? u v = some edge) : P u v edge := by
  obtain ⟨e, slot, stored, rfl, rfl, rfl⟩ := wf.edgeBetween?_eq_some_iff.mp joined
  rw [slot?, Option.join_eq_some_iff] at stored
  exact slots _ (Array.mem_toList_iff.mpr (Array.mem_of_getElem? stored)) slot rfl

end Network

namespace StnuLink

open Preparation

theorem prepareAll_activations {d : Draft PlainEdge} (wf : d.network.WellFormed) :
    Ends prepareAll d (fun links d' =>
      ∀ link ∈ links, d'.network.activation? link.contingent = some link.activation)
      fun _ _ => True := by
  unfold prepareAll
  refine (Network.bounded_ensureZ wf).bind ?_
  rintro _ d₁ ⟨rfl, bounded⟩
  rw [ends_bind, ends_network]
  refine (boundAll_ends bounded).bind ?_
  rintro _ d₂ ⟨bounded, -⟩
  rw [ends_bind, ends_network]
  refine (linksOf_ends bounded.wellFormed).bind ?_
  rintro links d₂ ⟨rfl, read⟩
  refine (recordAll_ends bounded.wellFormed read).bind ?_
  rintro _ d₃ ⟨recorded, -⟩
  exact fun link mem => recorded.activation link (List.mem_mergeSort.mp mem)

end StnuLink

namespace NormalForm

section Nodes

variable {g : PlainNetwork} {link : StnuLink} {n : NodeId}

theorem exists_addNode_sameNodes (g : PlainNetwork) (link : StnuLink) : ∃ h,
    g.addNode (Node.named (freshName g (g.nodeName link.activation))) = some (h, g.nodeCount) ∧
      (h.setActivation link.contingent g.nodeCount).SameNodes (shiftLink g link).1 := by
  obtain ⟨activation, contingent, lower, upper⟩ := link
  obtain ⟨h, added⟩ := addNode_freshName g (g.nodeName activation)
  refine ⟨h, added, ?_⟩
  unfold shiftLink
  dsimp only
  rw [added]
  dsimp only
  refine Network.SameNodes.setActivation ?_ _ _
  have timed := (Network.sameNodes_tighten h activation g.nodeCount lower).trans
    (Network.sameNodes_tighten _ g.nodeCount activation (-lower))
  have cleared := (timed.trans (Network.sameNodes_clearCaseBetween _ activation contingent)).trans
    (Network.sameNodes_clearCaseBetween _ contingent activation)
  exact (cleared.trans (Network.sameNodes_storeCase ..)).trans (Network.sameNodes_storeCase ..)

theorem nodes_shiftLink (g : PlainNetwork) (link : StnuLink) : (shiftLink g link).1.nodes =
    g.nodes.push (Node.named (freshName g (g.nodeName link.activation))) := by
  obtain ⟨h, added, same⟩ := exists_addNode_sameNodes g link
  refine same.nodes.trans ?_
  unfold Network.addNode at added
  split at added
  · cases added
  · cases added
    rfl

theorem nodeCount_shiftLink (g : PlainNetwork) (link : StnuLink) :
    (shiftLink g link).1.nodeCount = g.nodeCount + 1 := by
  rw [Network.nodeCount, nodes_shiftLink, Array.size_push]
  rfl

theorem node?_shiftLink (inside : n < g.nodeCount) : (shiftLink g link).1.node? n = g.node? n := by
  rw [Network.node?, nodes_shiftLink, Array.getElem?_push]
  exact if_neg inside.ne

theorem nodeName?_shiftLink_ne (inside : n < g.nodeCount) :
    (shiftLink g link).1.nodeName? n ≠ (shiftLink g link).1.nodeName? g.nodeCount := by
  let fresh := Node.named (freshName g (g.nodeName link.activation))
  have names : ∀ k, (shiftLink g link).1.nodeName? k =
      if k = g.nodeCount then some fresh.name else g.nodeName? k := by
    intro k
    rw [← Network.nodeName?_push, ← nodes_shiftLink]
    rfl
  rw [names, if_neg inside.ne, names, if_pos rfl]
  exact Network.findNode?_eq_none_iff.mp (findNode?_freshName g _) n

theorem activation?_shiftLink (n : NodeId) : (shiftLink g link).1.activation? n =
    if n = link.contingent then some g.nodeCount else g.activation? n := by
  obtain ⟨h, added, same⟩ := exists_addNode_sameNodes g link
  rw [same.activation?, StnuLink.activation?_setActivation]
  unfold Network.addNode at added
  split at added
  · cases added
  · cases added
    rfl

end Nodes

section Added

variable {links : List StnuLink} {g : PlainNetwork} {n m : NodeId}

/-- What becomes of a link of a network with `count` nodes. -/
structure Reshaped (count : Nat) (link link' : StnuLink) : Prop where
  contingent : link'.contingent = link.contingent
  lower : link'.lower = 0
  upper : link'.upper = link.upper - link.lower
  kept : link.lower = 0 → link' = link
  started : 0 < link.lower → count ≤ link'.activation

theorem reshaped_ofLinks (nonneg : ∀ link ∈ links, 0 ≤ link.lower) (g : PlainNetwork) :
    ∀ {count}, count ≤ g.nodeCount →
      List.Forall₂ (Reshaped count) links (ofLinks g links).2.1 := by
  induction links generalizing g with
  | nil => exact fun _ => .nil
  | cons link rest ih =>
    intro count within
    have rest := ih fun other mem => nonneg other (List.mem_cons_of_mem _ mem)
    unfold ofLinks
    split
    · rename_i positive
      refine .cons ?_ (rest _ (within.trans ?_))
      · rw [shiftLink_snd]
        exact ⟨rfl, rfl, rfl, fun zero => absurd zero positive.ne', fun _ => within⟩
      · rw [nodeCount_shiftLink]
        exact Nat.le_succ _
    · rename_i none
      have zero := le_antisymm (not_lt.mp none) (nonneg link List.mem_cons_self)
      refine .cons ⟨rfl, zero, ?_, fun _ => rfl, fun positive => absurd positive none⟩ (rest _ within)
      rw [zero, sub_zero]

/-- One node is added for each link with a positive shortest duration. -/
theorem added_ofLinks (links : List StnuLink) (g : PlainNetwork) :
    (ofLinks g links).2.2 = links.countP (fun link => 0 < link.lower) ∧
      (ofLinks g links).1.nodeCount = g.nodeCount + (ofLinks g links).2.2 := by
  induction links generalizing g with
  | nil => exact ⟨rfl, rfl⟩
  | cons link rest ih =>
    unfold ofLinks
    rw [List.countP_cons]
    split
    · rename_i positive
      obtain ⟨added, count⟩ := ih (shiftLink g link).1
      rw [if_pos (decide_eq_true positive)]
      refine ⟨congrArg Nat.succ added, count.trans ?_⟩
      rw [nodeCount_shiftLink, Nat.add_right_comm]
      rfl
    · rename_i none
      obtain ⟨added, count⟩ := ih g
      rw [if_neg (fun positive => none (of_decide_eq_true positive))]
      exact ⟨added, count⟩

theorem wellFormed_ofLinks (wf : g.WellFormed)
    (inside : ∀ link ∈ links, link.activation < g.nodeCount ∧ link.contingent < g.nodeCount) :
    (ofLinks g links).1.WellFormed := by
  refine (ofLinks_induct (I := fun g links => g.WellFormed ∧ ∀ link ∈ links,
    link.activation < g.nodeCount ∧ link.contingent < g.nodeCount) ?_ links [] g ⟨wf, inside⟩).1
  rintro g before link rest ⟨wf, inside⟩ _
  have here := inside link (List.mem_append_right _ List.mem_cons_self)
  refine ⟨(shiftLink_spec wf here).1, fun other mem => ?_⟩
  rw [nodeCount_shiftLink]
  have later : ∀ other, other ∈ before ++ link :: rest →
      other.activation < g.nodeCount + 1 ∧ other.contingent < g.nodeCount + 1 := fun other mem =>
    (inside other mem).imp Nat.lt_succ_of_lt Nat.lt_succ_of_lt
  rcases List.mem_append.mp mem with first | last
  · exact later other (List.mem_append_left _ first)
  · rcases List.mem_cons.mp last with rfl | last
    · exact ⟨Nat.lt_succ_self _, Nat.lt_succ_of_lt here.2⟩
    · exact later other (List.mem_append_right _ (List.mem_cons_of_mem _ last))

theorem node?_ofLinks (links : List StnuLink) (inside : n < g.nodeCount) :
    (ofLinks g links).1.node? n = g.node? n := by
  induction links generalizing g with
  | nil => rfl
  | cons link rest ih =>
    unfold ofLinks
    split
    · refine (ih ?_).trans (node?_shiftLink inside)
      rw [nodeCount_shiftLink]
      exact Nat.lt_succ_of_lt inside
    · exact ih inside

theorem nodeName?_ofLinks_ne (links : List StnuLink) (new : g.nodeCount ≤ n)
    (inside : n < (ofLinks g links).1.nodeCount) (before : m < n) :
    (ofLinks g links).1.nodeName? m ≠ (ofLinks g links).1.nodeName? n := by
  induction links generalizing g with
  | nil => exact absurd inside (not_lt.mpr new)
  | cons link rest ih =>
    unfold ofLinks at inside ⊢
    split
    · rename_i positive
      rw [if_pos positive] at inside
      have count := nodeCount_shiftLink g link
      rcases new.eq_or_lt with rfl | later
      · have same : ∀ k ≤ g.nodeCount, (ofLinks (shiftLink g link).1 rest).1.nodeName? k =
            (shiftLink g link).1.nodeName? k := fun k le =>
          congrArg (Option.map Node.name)
            (node?_ofLinks rest (count ▸ Nat.lt_succ_of_le le))
        dsimp only
        rw [same m before.le, same _ le_rfl]
        exact nodeName?_shiftLink_ne before
      · exact ih (count ▸ later) inside
    · rename_i none
      rw [if_neg none] at inside
      exact ih new inside

/-- A link is activated where it was before, or at a node that is added. -/
theorem activation_of_mem_ofLinks {p : NodeId → Prop} (activated : ∀ link ∈ links, p link.activation)
    {link : StnuLink} (mem : link ∈ (ofLinks g links).2.1) :
    p link.activation ∨ g.nodeCount ≤ link.activation := by
  induction links generalizing g with
  | nil => cases mem
  | cons first rest ih =>
    have later := fun link mem => activated link (List.mem_cons_of_mem _ mem)
    unfold ofLinks at mem
    split at mem
    · rcases List.mem_cons.mp mem with rfl | mem
      · rw [shiftLink_snd]
        exact Or.inr le_rfl
      · refine (ih later mem).imp_right fun new => ?_
        rw [nodeCount_shiftLink] at new
        exact (Nat.le_succ _).trans new
    · rcases List.mem_cons.mp mem with rfl | mem
      · exact Or.inl (activated link List.mem_cons_self)
      · exact ih later mem

theorem existsUnique_cons {first : StnuLink} {rest : List StnuLink} (other : first.activation ≠ n)
    (unique : ∃! link, link ∈ rest ∧ link.activation = n) :
    ∃! link, link ∈ first :: rest ∧ link.activation = n := by
  obtain ⟨link, ⟨mem, here⟩, only⟩ := unique
  refine ⟨link, ⟨List.mem_cons_of_mem _ mem, here⟩, ?_⟩
  rintro link' ⟨mem', here'⟩
  rcases List.mem_cons.mp mem' with rfl | mem'
  · exact absurd here' other
  · exact only link' ⟨mem', here'⟩

theorem existsUnique_ofLinks (activated : ∀ link ∈ links, link.activation < g.nodeCount)
    (new : g.nodeCount ≤ n) (inside : n < (ofLinks g links).1.nodeCount) :
    ∃! link, link ∈ (ofLinks g links).2.1 ∧ link.activation = n := by
  induction links generalizing g with
  | nil => exact absurd inside (not_lt.mpr new)
  | cons link rest ih =>
    have later := fun link mem => activated link (List.mem_cons_of_mem _ mem)
    unfold ofLinks at inside ⊢
    split
    · rename_i positive
      rw [if_pos positive] at inside
      have count := nodeCount_shiftLink g link
      dsimp only at inside ⊢
      rw [shiftLink_snd]
      rcases new.eq_or_lt with rfl | beyond
      · refine ⟨shifted g link, ⟨List.mem_cons_self, rfl⟩, ?_⟩
        rintro link' ⟨mem, here⟩
        rcases List.mem_cons.mp mem with same | mem
        · exact same
        · rcases activation_of_mem_ofLinks (p := (· < g.nodeCount)) later mem with before | after
          · exact absurd here before.ne
          · rw [here, count] at after
            exact absurd after (Nat.not_succ_le_self _)
      · refine existsUnique_cons beyond.ne (ih (fun link mem => ?_) (count ▸ beyond) inside)
        rw [count]
        exact Nat.lt_succ_of_lt (later link mem)
    · rename_i none
      rw [if_neg none] at inside
      have before := activated link List.mem_cons_self
      exact existsUnique_cons (before.trans_le new).ne (ih later new inside)

theorem activation?_ofLinks_of_ne (other : ∀ link ∈ links, n ≠ link.contingent) :
    (ofLinks g links).1.activation? n = g.activation? n := by
  induction links generalizing g with
  | nil => rfl
  | cons link rest ih =>
    have later := fun link mem => other link (List.mem_cons_of_mem _ mem)
    unfold ofLinks
    split
    · refine (ih later).trans ?_
      rw [activation?_shiftLink, if_neg (other link List.mem_cons_self)]
    · exact ih later

end Added

theorem activation?_ofLinks {links : List StnuLink} {g : PlainNetwork} (carries : Carries g links)
    (recorded : ∀ link ∈ links, g.activation? link.contingent = some link.activation) :
    ∀ link ∈ (ofLinks g links).2.1,
      (ofLinks g links).1.activation? link.contingent = some link.activation := by
  refine (ofLinks_induct (I := fun h links' => Carries h links' ∧
    ∀ link ∈ links', h.activation? link.contingent = some link.activation) ?_ links [] g
    ⟨carries, recorded⟩).2
  rintro h before link rest ⟨carries, recorded⟩ _
  have here : link ∈ before ++ link :: rest := by simp
  have shift := shifted_shiftLink carries.wellFormed (carries.inside link here)
    (carries.apart link here)
  refine ⟨carries.shift shift, fun other mem => ?_⟩
  rw [activation?_shiftLink]
  have cases_mem : other = shifted h link ∨ other ∈ before ++ rest := by
    simp only [List.mem_append, List.mem_cons] at mem ⊢
    tauto
  rcases cases_mem with rfl | mem'
  · exact if_pos rfl
  · rw [if_neg (carries.ne_contingent mem')]
    refine recorded other ?_
    simp only [List.mem_append, List.mem_cons] at mem' ⊢
    tauto

end NormalForm

variable {T : Type*} [CommRing T] [LinearOrder T]

/-- Times that satisfy the ordinary constraints, of which `−∞` is one that nothing satisfies, and with
which each link takes the given time. -/
structure Timed (g : PlainNetwork) (links : List StnuLink) (takes : StnuLink → T) (t : NodeId → T) :
    Prop where
  ordinary : ∀ u v w, g.ordinary? u v = some w → w ≠ Value.negInf ∧ t v ≤ t u + (w : T)
  lasts : ∀ link ∈ links, t link.contingent = t link.activation + takes link

theorem Timed.congr {g : PlainNetwork} {links : List StnuLink} {takes takes' : StnuLink → T}
    {t : NodeId → T} (timed : Timed g links takes t) (same : ∀ link ∈ links, takes link = takes' link) :
    Timed g links takes' t :=
  ⟨timed.ordinary, fun link mem => same link mem ▸ timed.lasts link mem⟩

/-- The shortest duration, and what a link takes beyond it. -/
def StnuLink.beyond (spare : NodeId → T) (link : StnuLink) : T := link.lower + spare link.contingent

namespace NormalForm

open StnuLink

variable [IsStrictOrderedRing T] {g h : PlainNetwork} {links before rest : List StnuLink}
  {link : StnuLink} {spare t : NodeId → T}

theorem mem_replaced {other : StnuLink} (mem : other ∈ before ++ link :: rest) (link' : StnuLink) :
    other = link ∨ other ∈ before ++ link' :: rest := by
  simp only [List.mem_append, List.mem_cons] at mem ⊢
  tauto

/-- The times are kept, and the new node is executed the shortest duration after the activation node. -/
theorem Shifted.timed (shift : Shifted g link h) (carries : Carries g (before ++ link :: rest))
    (finite : link.lower < Value.posInf) (nonneg : 0 ≤ spare link.contingent)
    (most : spare link.contingent ≤ (link.upper - link.lower : Value))
    (timed : Timed g (before ++ link :: rest) (beyond spare) t) :
    Timed h (before ++ shifted g link :: rest) (beyond spare)
      (Function.update t g.nodeCount (t link.activation + link.lower)) := by
  have here : link ∈ before ++ link :: rest := by simp
  obtain ⟨ha, hc⟩ := carries.inside link here
  have shortest := carries.nonneg link here
  have range := carries.range link here
  have lasts : t link.contingent = t link.activation + (link.lower + spare link.contingent) :=
    timed.lasts link here
  have old : ∀ {n}, n < g.nodeCount →
      Function.update t g.nodeCount (t link.activation + link.lower) n = t n :=
    fun inside => Function.update_of_ne inside.ne _ _
  have new : Function.update t g.nodeCount (t link.activation + (link.lower : T)) g.nodeCount =
      t link.activation + link.lower := Function.update_self _ _ _
  refine ⟨fun u v w weight => ?_, fun other mem => ?_⟩
  · rcases shift.ordinary?_cases carries.wellFormed weight with ⟨rfl, rfl, rfl⟩ | ⟨rfl, rfl, rfl⟩ |
      ⟨rfl, rfl, rfl⟩ | ⟨rfl, rfl, rfl⟩ | ⟨hu, hv, weight'⟩
    · refine ⟨by decide, ?_⟩
      rw [new, old hc, lasts, Int.cast_zero]
      linarith
    · refine ⟨(Int.lt_trans (by decide) (sub_pos.mpr range)).ne', ?_⟩
      rw [new, old hc, lasts]
      linarith
    · refine ⟨(Int.lt_trans (show Value.negInf < -Value.posInf by decide) (neg_lt_neg finite)).ne', ?_⟩
      rw [new, old ha, Int.cast_neg]
      linarith
    · refine ⟨(Int.lt_of_lt_of_le (by decide) shortest).ne', ?_⟩
      rw [new, old ha]
    · rw [old hu, old hv]
      exact timed.ordinary u v w weight'
  · rcases mem_replaced mem link with rfl | mem
    · rw [beyond, show (shifted g link).contingent = link.contingent from rfl,
        show (shifted g link).activation = g.nodeCount from rfl,
        show (shifted g link).lower = 0 from rfl, new, old hc, lasts, Int.cast_zero, zero_add, add_assoc]
    · obtain ⟨ha', hc'⟩ := carries.inside other mem
      rw [old hc', old ha']
      exact timed.lasts other mem

/-- Times for the network in which a link is started at a new node are times for the network before. -/
theorem Shifted.timed_before (shift : Shifted g link h) (carries : Carries g (before ++ link :: rest))
    (finite : link.lower < Value.posInf)
    (timed : Timed h (before ++ shifted g link :: rest) (beyond spare) t) :
    Timed g (before ++ link :: rest) (beyond spare) t := by
  have here : link ∈ before ++ link :: rest := by simp
  refine ⟨fun u v w weight => ?_, fun other mem => ?_⟩
  · obtain ⟨hu, hv⟩ := Network.lt_of_ordinary? carries.wellFormed weight
    obtain ⟨bound, uncapped⟩ := Network.ordinary?_eq_some_iff.mp weight
    exact timed.ordinary u v w
      (Network.ordinary?_eq_some_iff.mpr ⟨(shift.bound_of_lt hu hv).trans bound, uncapped⟩)
  · rcases mem_replaced mem (shifted g link) with rfl | mem'
    · obtain ⟨later, sooner⟩ := shift.ordinary?_around (carries.inside other mem)
        (carries.apart other mem) (carries.nonneg other mem) finite
      obtain ⟨_, least⟩ := timed.ordinary _ _ _ later
      obtain ⟨_, most⟩ := timed.ordinary _ _ _ sooner
      have lasts : t other.contingent =
          t g.nodeCount + (((0 : Value) : T) + spare other.contingent) :=
        timed.lasts (shifted g other) (by simp)
      rw [Int.cast_neg] at most
      rw [Int.cast_zero] at lasts
      unfold beyond
      linarith
    · exact timed.lasts other mem'

/-- While links are started at new nodes: the times for the network are those for the network so far, but
for the new nodes. -/
structure Retimed (T : Type*) [CommRing T] [LinearOrder T] (g : PlainNetwork) (links : List StnuLink)
    (h : PlainNetwork) (links' : List StnuLink) : Prop where
  carries : Carries h links'
  finite : ∀ link ∈ links', link.lower < Value.posInf
  within : g.nodeCount ≤ h.nodeCount
  same : ∀ link' ∈ links', ∃ link ∈ links, link.contingent = link'.contingent ∧
    link.upper - link.lower = link'.upper - link'.lower
  after : ∀ spare : NodeId → T, (∀ link ∈ links,
      0 ≤ spare link.contingent ∧ spare link.contingent ≤ (link.upper - link.lower : Value)) →
    ∀ t, Timed g links (beyond spare) t →
      ∃ t', (∀ n < g.nodeCount, t' n = t n) ∧ Timed h links' (beyond spare) t'
  before : ∀ (spare t : NodeId → T), Timed h links' (beyond spare) t → Timed g links (beyond spare) t

omit [IsStrictOrderedRing T] in
theorem Retimed.refl (carries : Carries g links) (finite : ∀ link ∈ links, link.lower < Value.posInf) :
    Retimed T g links g links where
  carries := carries
  finite := finite
  within := le_rfl
  same link mem := ⟨link, mem, rfl, rfl⟩
  after _ _ t timed := ⟨t, fun _ _ => rfl, timed⟩
  before _ _ := id

theorem Retimed.shift {k : PlainNetwork} (retimed : Retimed T g links h (before ++ link :: rest))
    (shift : Shifted h link k) : Retimed T g links k (before ++ shifted h link :: rest) := by
  have here : link ∈ before ++ link :: rest := by simp
  have finite := retimed.finite link here
  obtain ⟨first, listed, contingent, length⟩ := retimed.same link here
  refine ⟨retimed.carries.shift shift, fun other mem => ?_, ?_, fun other mem => ?_,
    fun spare range t timed => ?_,
    fun spare t timed => retimed.before spare t (shift.timed_before retimed.carries finite timed)⟩
  · rcases mem_replaced mem link with rfl | mem
    · exact show (0 : Value) < Value.posInf by decide
    · exact retimed.finite other mem
  · rw [shift.nodeCount]
    exact retimed.within.trans (Nat.le_succ _)
  · rcases mem_replaced mem link with rfl | mem'
    · exact ⟨first, listed, contingent, length.trans (sub_zero _).symm⟩
    · exact retimed.same other mem'
  · obtain ⟨t', same, timed'⟩ := retimed.after spare range t timed
    obtain ⟨nonneg, most⟩ := range first listed
    rw [contingent] at nonneg
    rw [contingent, length] at most
    refine ⟨_, fun n inside => ?_, shift.timed retimed.carries finite nonneg most timed'⟩
    rw [Function.update_of_ne (inside.trans_le retimed.within).ne, same n inside]

theorem Retimed.ofLinks (carries : Carries g links)
    (finite : ∀ link ∈ links, link.lower < Value.posInf) :
    Retimed T g links (ofLinks g links).1 (ofLinks g links).2.1 := by
  refine ofLinks_induct (I := fun h links' => Retimed T g links h links') ?_ links [] g
    (.refl carries finite)
  intro h before link rest retimed _
  have here : link ∈ before ++ link :: rest := by simp
  exact retimed.shift (shifted_shiftLink retimed.carries.wellFormed (retimed.carries.inside link here)
    (retimed.carries.apart link here))

/-- The network in normal form, next to the network and its links. -/
structure Normalises (g : PlainNetwork) (links : List StnuLink) (h : PlainNetwork)
    (links' : List StnuLink) (added : Nat) : Prop where
  reshaped : List.Forall₂ (Reshaped g.nodeCount) links links'
  added_eq : added = links.countP fun link => 0 < link.lower
  nodeCount : h.nodeCount = g.nodeCount + added
  node? : ∀ n < g.nodeCount, h.node? n = g.node? n
  fresh : ∀ m n, m < n → g.nodeCount ≤ n → n < h.nodeCount → h.nodeName? m ≠ h.nodeName? n
  started : ∀ n, g.nodeCount ≤ n → n < h.nodeCount → ∃! link, link ∈ links' ∧ link.activation = n
  activation : ∀ link ∈ links', h.activation? link.contingent = some link.activation
  unlinked : ∀ n, (∀ link ∈ links, n ≠ link.contingent) → h.activation? n = g.activation? n
  case?_iff : ∀ u v c, h.case? u v = some c ↔ ∃ link ∈ links',
    u = link.activation ∧ v = link.contingent ∧ c = ⟨.lower, link.contingent, link.lower⟩ ∨
      u = link.contingent ∧ v = link.activation ∧ c = ⟨.upper, link.contingent, -link.upper⟩

theorem normalises_ofLinks (carries : Carries g links)
    (recorded : ∀ link ∈ links, g.activation? link.contingent = some link.activation)
    (carries' : Carries (ofLinks g links).1 (ofLinks g links).2.1) :
    Normalises g links (ofLinks g links).1 (ofLinks g links).2.1 (ofLinks g links).2.2 where
  reshaped := reshaped_ofLinks carries.nonneg g le_rfl
  added_eq := (added_ofLinks links g).1
  nodeCount := (added_ofLinks links g).2
  node? n inside := node?_ofLinks links inside
  fresh m n before new inside := nodeName?_ofLinks_ne links new inside before
  started n new inside := existsUnique_ofLinks (fun link mem => (carries.inside link mem).1) new inside
  activation := activation?_ofLinks carries recorded
  unlinked n other := activation?_ofLinks_of_ne other
  case?_iff u v c := by
    refine ⟨carries'.owned u v c, ?_⟩
    rintro ⟨link, mem, ⟨rfl, rfl, rfl⟩ | ⟨rfl, rfl, rfl⟩⟩
    · exact (carries'.stored link mem).1
    · exact (carries'.stored link mem).2

/-- The normal form of a prepared network starts each link with a positive shortest duration at a node
of its own. Whatever the durations, times for the network fix those of the new nodes, and times for the
normal form are times for the network. -/
theorem ofLinks_preserves (T : Type*) [CommRing T] [LinearOrder T] [IsStrictOrderedRing T]
    (g : PlainNetwork) (wf : g.WellFormed) (raw : ∀ u v, g.case? u v = none)
    (range : ∀ u v, g.bound u v ≤ Value.posInf) (fixes : List String) (links : List StnuLink)
    (d : Draft PlainEdge) (run : prepareAll.run ⟨g, fixes⟩ = .ok links d) (h : PlainNetwork)
    (links' : List StnuLink) (added : Nat) (normal : ofLinks d.network links = (h, links', added)) :
    Normalises d.network links h links' added ∧
    ∀ durations durations' : NodeId → T, (∀ link ∈ links, link.lower ≤ durations link.contingent ∧
        durations link.contingent ≤ link.upper ∧
        durations' link.contingent = durations link.contingent - link.lower) →
      (∀ t, Timed d.network links (fun link => durations link.contingent) t →
        ∃ t', (∀ n < d.network.nodeCount, t' n = t n) ∧
          Timed h links' (fun link => durations' link.contingent) t') ∧
      ∀ t', Timed h links' (fun link => durations' link.contingent) t' →
        Timed d.network links (fun link => durations link.contingent) t' ∧
        ∀ link ∈ links, ∀ link' ∈ links', link'.contingent = link.contingent →
          t' link'.activation = t' link.activation + link.lower := by
  have prepared : Prepared g d.network links := (prepareAll_ends (d := ⟨g, fixes⟩) wf).of_ok run
  have carries := prepared.carries raw
  have finite : ∀ link ∈ links, link.lower < Value.posInf := by
    intro link mem
    obtain ⟨upper, _⟩ := Network.ordinary?_eq_some_iff.mp ((prepared.mem_iff link).mp mem).upper
    exact (carries.range link mem).trans_le (upper.symm.trans_le (range _ _))
  have recorded := (prepareAll_activations (d := ⟨g, fixes⟩) wf).of_ok run
  have retimed : Retimed T d.network links h links' := by
    have retimed := Retimed.ofLinks (T := T) carries finite
    rwa [normal] at retimed
  have normalises : Normalises d.network links h links' added := by
    have carries' := (Retimed.ofLinks (T := T) carries finite).carries
    have normalises := normalises_ofLinks carries recorded carries'
    rwa [normal] at normalises
  refine ⟨normalises, fun durations durations' fits => ?_⟩
  have long : ∀ link ∈ links, durations link.contingent = beyond durations' link := by
    intro link mem
    rw [beyond, (fits link mem).2.2, add_sub_cancel]
  have short : ∀ link ∈ links', durations' link.contingent = beyond durations' link := by
    intro link mem
    have zero : link.lower = 0 := by
      have mem' : link ∈ (ofLinks d.network links).2.1 := by rwa [normal]
      exact le_antisymm (lower_le_of_mem_ofLinks mem') (retimed.carries.nonneg link mem)
    rw [beyond, zero, Int.cast_zero, zero_add]
  have sooner : ∀ t', Timed h links' (fun link => durations' link.contingent) t' →
      Timed d.network links (fun link => durations link.contingent) t' := fun t' timed =>
    (retimed.before durations' t' (timed.congr short)).congr fun link mem => (long link mem).symm
  refine ⟨fun t timed => ?_, fun t' timed => ⟨sooner t' timed, fun link mem link' mem' same => ?_⟩⟩
  · have spare : ∀ link ∈ links, 0 ≤ durations' link.contingent ∧
        durations' link.contingent ≤ (link.upper - link.lower : Value) := by
      intro link mem
      obtain ⟨least, most, less⟩ := fits link mem
      rw [less, Int.cast_sub]
      exact ⟨sub_nonneg.mpr least, sub_le_sub_right most _⟩
    obtain ⟨t', same, timed'⟩ := retimed.after durations' spare t (timed.congr long)
    exact ⟨t', same, timed'.congr fun link mem => (short link mem).symm⟩
  · have before := (sooner t' timed).lasts link mem
    have after := timed.lasts link' mem'
    rw [same, (fits link mem).2.2] at after
    linarith

/-- Two links start at A, one of which may take no time; another one starts where the first one ends. -/
def branchedNetwork : PlainNetwork :=
  (Network.build [.named "Z", .named "A", .named "C", .named "D", .named "A'", .named "E"]
    [("AC", 1, 2, ⟨.contingent, 3, none⟩), ("CA", 2, 1, ⟨.contingent, -1, none⟩),
      ("CD", 2, 3, ⟨.contingent, 4, none⟩), ("DC", 3, 2, ⟨.contingent, -2, none⟩),
      ("AE", 1, 5, ⟨.contingent, 2, none⟩), ("EA", 5, 1, ⟨.contingent, 0, none⟩),
      ("after", 3, 4, ⟨.ordinary, 5, none⟩), ("before", 4, 3, ⟨.ordinary, -1, none⟩)]).getD .empty

/-- The first link is started one after A, the second one two after C. -/
theorem ofLinks_preserves_branched : ∃ links d h links' added,
    prepareAll.run ⟨branchedNetwork, []⟩ = .ok links d ∧
    ofLinks d.network links = (h, links', added) ∧
    links' = [⟨6, 2, 0, 2⟩, ⟨7, 3, 0, 2⟩, ⟨1, 5, 0, 2⟩] ∧ h.nodeName? 6 = some "A''" ∧
    ∃ t : NodeId → Int, Timed h links' (fun _ => 1) t ∧ t 6 = t 1 + 1 ∧ t 7 = t 2 + 2 := by
  obtain ⟨links, d, run⟩ := exists_of_succeeds (m := prepareAll) (s := ⟨branchedNetwork, []⟩)
    (by decide +kernel)
  have wf : branchedNetwork.WellFormed := Network.wellFormed_getD_build _ _
  have given : ∀ {u v edge}, branchedNetwork.edgeBetween? u v = some edge →
      edge.case = none ∧ edge.weight ≤ Value.posInf := fun joined =>
    wf.forall_edges (P := fun _ _ edge => edge.case = none ∧ edge.weight ≤ Value.posInf)
      (by decide +kernel) joined
  have raw : ∀ u v, branchedNetwork.case? u v = none := by
    intro u v
    rw [Network.case?]
    cases joined : branchedNetwork.edgeBetween? u v with
    | none => rfl
    | some edge => exact (given joined).1
  have range : ∀ u v, branchedNetwork.bound u v ≤ Value.posInf := by
    intro u v
    rw [Network.bound]
    cases joined : branchedNetwork.edgeBetween? u v with
    | none => exact le_rfl
    | some edge => exact (given joined).2
  have ready := (StnuChecker.initialise_of_ok run :
    (StnuChecker.ofNetwork branchedNetwork ⟨none, false, true, .morris2014⟩).initialise = _)
  have network := congrArg (fun result => result.1.network) ready
  have found := congrArg (fun result => result.1.links) ready
  dsimp only at network found
  -- The links are sorted by a recursion that only `cbv` unfolds.
  have listed : links = [⟨1, 2, 1, 3⟩, ⟨2, 3, 2, 4⟩, ⟨1, 5, 0, 2⟩] := found.symm.trans (by cbv)
  let durations : NodeId → Int := fun c => if c = 2 then 2 else if c = 3 then 3 else 1
  let times : NodeId → Int := fun n => [0, 0, 2, 5, 7, 1].getD n 0
  have timed : Timed d.network links (fun link => durations link.contingent) times := by
    have prepared := (prepareAll_ends (d := ⟨branchedNetwork, []⟩) wf).of_ok run
    refine ⟨fun u v w weight => ?_, ?_⟩
    · rw [← Network.bind_value?, Option.bind_eq_some_iff] at weight
      obtain ⟨edge, joined, weight⟩ := weight
      refine prepared.wellFormed.forall_edges (P := fun u v edge => ∀ w ∈ edge.value?,
        w ≠ Value.negInf ∧ times v ≤ times u + w) ?_ joined w weight
      rw [← network]
      decide +kernel
    · rw [listed]
      decide
  obtain ⟨_, preserved⟩ := ofLinks_preserves Int branchedNetwork wf raw range [] links d run _ _ _ rfl
  have fits : ∀ link ∈ links, link.lower ≤ durations link.contingent ∧
      durations link.contingent ≤ link.upper ∧ 1 = durations link.contingent - link.lower := by
    rw [listed]
    decide
  have links' : (ofLinks d.network links).2.1 = [⟨6, 2, 0, 2⟩, ⟨7, 3, 0, 2⟩, ⟨1, 5, 0, 2⟩] := by
    rw [listed, ← network]
    decide +kernel
  obtain ⟨extended, restricted⟩ := preserved durations (fun _ => 1) fits
  obtain ⟨t, _, timed'⟩ := extended times timed
  have started := (restricted t timed').2
  rw [links'] at started
  refine ⟨links, d, _, _, _, run, rfl, links', ?_, t, timed',
    started ⟨1, 2, 1, 3⟩ ?_ ⟨6, 2, 0, 2⟩ ?_ rfl, started ⟨2, 3, 2, 4⟩ ?_ ⟨7, 3, 0, 2⟩ ?_ rfl⟩
  · rw [listed, ← network]
    decide +kernel
  all_goals simp [listed]

end NormalForm

end TemporalNetwork
