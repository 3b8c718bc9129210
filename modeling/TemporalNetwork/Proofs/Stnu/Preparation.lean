import Mathlib.Data.List.Nodup
import TemporalNetwork.Proofs.Check.Preparation
import TemporalNetwork.Proofs.Stnu.Weights

/-!
What the preparation of a network without propositions yields: bounds to the reference node, and one
link for each pair of contingent edges, whose case values it stores.
-/

namespace TemporalNetwork

namespace Network

/-- The reference node: the one that is set, else the node named `Z`, else one yet to be added. -/
def origin (g : PlainNetwork) : NodeId := (g.z <|> g.findNode? "Z").getD g.nodeCount

/-- The nodes that are scheduled: those of the network, and the reference node. -/
def Scheduled (g : PlainNetwork) (n : NodeId) : Prop := n < g.nodeCount ∨ n = g.origin

/-- Whether an edge belongs to a contingent link. -/
def IsContingent (g : PlainNetwork) (u v : NodeId) : Prop :=
  ∃ edge, g.edgeBetween? u v = some edge ∧ edge.kind = .contingent

/-- Whether a link is given by the contingent edges of a network: its bounds are their values, but that
the contingent node is not before the reference node. -/
structure IsLink (g : PlainNetwork) (link : StnuLink) : Prop where
  ahead : g.IsContingent link.activation link.contingent
  behind : g.IsContingent link.contingent link.activation
  upper : g.ordinary? link.activation link.contingent = some link.upper
  lower : -link.lower = if link.activation = g.origin then
    min (g.bound link.contingent link.activation) 0 else g.bound link.contingent link.activation
  nonneg : 0 ≤ link.lower
  range : link.lower < link.upper
  other : link.contingent ≠ g.origin

/-- A network in which nodes have been bounded to be at or after the reference node. -/
structure Bounded (g k : PlainNetwork) : Prop where
  wellFormed : k.WellFormed
  nodeCount_le : g.nodeCount ≤ k.nodeCount
  nodes : ∀ n, n < k.nodeCount → g.Scheduled n
  contingent : ∀ u v, k.IsContingent u v ↔ g.IsContingent u v
  case? : ∀ u v, k.case? u v = g.case? u v
  bound : ∀ u v, k.bound u v = g.bound u v ∨ v = g.origin ∧ k.bound u v = 0 ∧ 0 < g.bound u v

namespace Bounded

variable {g k : PlainNetwork} {u v n : NodeId}

theorem bound_le (bounded : g.Bounded k) (u v : NodeId) : k.bound u v ≤ g.bound u v := by
  rcases bounded.bound u v with same | ⟨_, zero, positive⟩
  · exact same.le
  · exact zero ▸ positive.le

theorem ordinary?_le (bounded : g.Bounded k) {w : Value} (weight : g.ordinary? u v = some w) :
    ∃ w', k.ordinary? u v = some w' ∧ w' ≤ w := by
  obtain ⟨rfl, finite⟩ := ordinary?_eq_some_iff.mp weight
  rcases bounded.bound u v with same | ⟨_, zero, positive⟩
  · exact ⟨_, ordinary?_eq_some_iff.mpr ⟨same, finite⟩, le_rfl⟩
  · exact ⟨0, ordinary?_eq_some_iff.mpr ⟨zero, by decide⟩, positive.le⟩

theorem bound_eq (bounded : g.Bounded k)
    (first : ∀ n, n < k.nodeCount → n ≠ g.origin → k.bound n g.origin ≤ 0) (inside : u < k.nodeCount)
    (apart : u ≠ v) : k.bound u v = if v = g.origin then min (g.bound u v) 0 else g.bound u v := by
  rcases bounded.bound u v with same | ⟨into, zero, positive⟩
  · split
    · rename_i into
      subst into
      rw [← same, min_eq_left (first u inside apart)]
    · exact same
  · rw [if_pos into, min_eq_right positive.le, zero]

theorem tighten (bounded : g.Bounded k) (hn : n < k.nodeCount) (hz : g.origin < k.nodeCount) :
    g.Bounded (k.tighten n g.origin 0).1 := by
  have wf := bounded.wellFormed
  have count : (k.tighten n g.origin 0).1.nodeCount = k.nodeCount :=
    congrArg Array.size (nodes_tighten wf hn hz 0)
  refine ⟨wf.tighten hn hz 0, bounded.nodeCount_le.trans_eq count.symm, ?_, fun u v => ?_,
    fun u v => ?_, fun u v => ?_⟩
  · rw [count]
    exact bounded.nodes
  · rw [← bounded.contingent u v, IsContingent, edgeBetween?_tighten wf hn hz]
    split
    · rename_i same
      rw [← same.1, ← same.2, IsContingent]
      cases k.edgeBetween? n g.origin with
      | none => simp [PlainEdge.tighten, PlainEdge.ofKind, Value.posInf]
      | some edge =>
        simp only [Option.getD_some, Option.some.injEq, exists_eq_left', PlainEdge.tighten]
        split <;> rfl
    · rfl
  · rw [case?_tighten wf hn hz, bounded.case?]
  · rw [bound_tighten wf hn hz]
    split
    · rename_i same
      rw [← same.1, ← same.2]
      rcases lt_or_ge 0 (k.bound n g.origin) with positive | kept
      · refine Or.inr ⟨rfl, min_eq_left positive.le, lt_of_lt_of_le positive ?_⟩
        exact bounded.bound_le n g.origin
      · rw [min_eq_right kept]
        exact bounded.bound n g.origin
    · exact bounded.bound u v

end Bounded

theorem bounded_ensureZ {d : Draft PlainEdge} (wf : d.network.WellFormed) :
    Ends Preparation.ensureZ d (fun z d' => z = d.network.origin ∧ d.network.Bounded d'.network)
      fun _ _ => True := by
  unfold Preparation.ensureZ
  rw [ends_bind, Preparation.ends_network]
  split
  · rename_i z present
    refine ⟨by rw [origin, present, Option.getD_some], wf.setZ z, le_rfl, fun n hn => Or.inl hn,
      fun _ _ => Iff.rfl, fun _ _ => rfl, fun _ _ => Or.inl rfl⟩
  · rename_i absent
    have new : d.network.origin = d.network.nodeCount := by rw [origin, absent, Option.getD_none]
    rw [ends_bind, Preparation.ends_noteFix, ends_bind, Preparation.ends_modifyNetwork, ends_bind,
      Preparation.ends_modifyNetwork, ends_pure]
    refine ⟨new.symm, ?_⟩
    dsimp only
    cases added : d.network.addNode (Node.named "Z") with
    | none =>
      exact ⟨wf.setZ _, le_rfl, fun n hn => Or.inl hn, fun _ _ => Iff.rfl, fun _ _ => rfl,
        fun _ _ => Or.inl rfl⟩
    | some result =>
      obtain ⟨h, id⟩ := result
      have edges : ∀ u v, (h.setZ d.network.nodeCount).edgeBetween? u v =
          d.network.edgeBetween? u v := by
        intro u v
        have found := findEdge?_addNode wf added u v
        have stored : h.edge? = d.network.edge? := by
          unfold addNode at added
          split at added
          · cases added
          · cases added
            rfl
        change (h.findEdge? u v).bind h.edge? = _
        rw [found, stored, edgeBetween?]
      have count : (h.setZ d.network.nodeCount).nodeCount = d.network.nodeCount + 1 := by
        unfold addNode at added
        split at added
        · cases added
        · cases added
          exact Array.size_push _
      refine ⟨(wf.addNode added).setZ _, count ▸ Nat.le_succ _, fun n hn => ?_, fun u v => ?_,
        fun u v => ?_, fun u v => Or.inl ?_⟩
      · exact (Nat.lt_succ_iff_lt_or_eq.mp (hn.trans_eq count)).imp_right fun same =>
          same.trans new.symm
      · exact exists_congr fun edge => by rw [← edges u v]; rfl
      · rw [Network.case?, Network.case?, ← edges u v]
        rfl
      · rw [Network.bound, Network.bound, ← edges u v]
        rfl

end Network

namespace StnuLink

open Preparation

variable {d : Draft PlainEdge} {g : PlainNetwork}

theorem boundBelow_ends (bounded : g.Bounded d.network) {n : NodeId}
    (hn : n < d.network.nodeCount) :
    Ends (boundBelow g.origin n) d (fun _ d' => g.Bounded d'.network ∧
      d'.network.nodeCount = d.network.nodeCount ∧ d'.network.bound n g.origin ≤ 0 ∧
      ∀ u v, d'.network.bound u v ≤ d.network.bound u v) fun _ _ => True := by
  unfold boundBelow
  rw [ends_bind, ends_network]
  cases present : d.network.node? g.origin with
  | none => exact trivial
  | some node =>
    have hz : g.origin < d.network.nodeCount := by
      by_contra outside
      rw [Network.node?, Array.getElem?_eq_none (not_lt.mp outside)] at present
      cases present
    have wf := bounded.wellFormed
    have into := Network.tightenedInto_tighten wf hn hz (show (0 : Value) < Value.posInf by decide)
    have bound := Network.bound_tighten wf hn hz 0 n g.origin
    rw [if_pos ⟨rfl, rfl⟩] at bound
    exact ⟨bounded.tighten hn hz, into.nodeCount, bound.trans_le (min_le_left _ _), into.bound_le⟩

theorem boundAll_ends (bounded : g.Bounded d.network) :
    Ends ((d.network.nodeIds.filter fun n => n != g.origin).forM (boundBelow g.origin)) d
      (fun _ d' => g.Bounded d'.network ∧
        ∀ n, n < d'.network.nodeCount → n ≠ g.origin → d'.network.bound n g.origin ≤ 0)
      fun _ _ => True := by
  refine (ends_forM (fun todo d' => g.Bounded d'.network ∧
    d'.network.nodeCount = d.network.nodeCount ∧ (∀ n ∈ todo, n < d.network.nodeCount) ∧
    ∀ n, n < d.network.nodeCount → n ≠ g.origin → n ∈ todo ∨ d'.network.bound n g.origin ≤ 0)
    ?_ _ d ⟨bounded, rfl, ?_, ?_⟩).mono ?_ fun _ _ h => h
  · rintro n rest d' ⟨bounded', count, inside, remaining⟩
    have hn : n < d'.network.nodeCount := count ▸ inside n List.mem_cons_self
    refine (boundBelow_ends bounded' hn).mono ?_ fun _ _ h => h
    rintro _ d'' ⟨bounded'', count', here, lower⟩
    refine ⟨bounded'', count'.trans count, fun m mem => inside m (List.mem_cons_of_mem _ mem), ?_⟩
    intro m hm other
    rcases remaining m hm other with mem | below
    · rcases List.mem_cons.mp mem with rfl | later
      · exact Or.inr here
      · exact Or.inl later
    · exact Or.inr ((lower m g.origin).trans below)
  · intro n mem
    exact List.mem_range.mp (List.mem_filter.mp mem).1
  · intro n hn other
    exact Or.inl (List.mem_filter.mpr ⟨List.mem_range.mpr hn, by simpa using other⟩)
  · rintro _ d' ⟨bounded', count, _, remaining⟩
    exact ⟨bounded', fun n hn other => (remaining n (count ▸ hn) other).resolve_left
      List.not_mem_nil⟩

/-- What is read off a contingent edge: a link, or nothing if the link is read off its companion. -/
inductive ReadOff (g : PlainNetwork) (e : EdgeId) : Option StnuLink → Prop
  | ahead {slot slot' : EdgeSlot PlainEdge} {c : EdgeId} {value value' : Value}
    (stored : g.slot? e = some slot) (opposite : g.slot? c = some slot')
    (source : slot'.source = slot.target) (target : slot'.target = slot.source)
    (kind : slot'.payload.kind = .contingent) (weight : slot.payload.value? = some value)
    (weight' : slot'.payload.value? = some value') (nonneg : 0 ≤ -value') (range : -value' < value) :
    ReadOff g e (some ⟨slot.source, slot.target, -value', value⟩)
  | behind {slot slot' : EdgeSlot PlainEdge} {c : EdgeId} {value value' : Value}
    (stored : g.slot? e = some slot) (opposite : g.slot? c = some slot')
    (source : slot'.source = slot.target) (target : slot'.target = slot.source)
    (kind : slot'.payload.kind = .contingent) (weight : slot.payload.value? = some value)
    (weight' : slot'.payload.value? = some value')
    (later : value < value' ∨ value = value' ∧ c < e) : ReadOff g e none

theorem rawValue_ends {e : EdgeId} {slot : EdgeSlot PlainEdge}
    (stored : d.network.slot? e = some slot) :
    Ends (rawValue e) d (fun w d' => d' = d ∧ slot.payload.value? = some w) fun _ _ => True := by
  unfold rawValue
  rw [ends_bind, ends_network, Network.edge?, stored, Option.map_some, Option.bind_some]
  cases slot.payload.value? with
  | none => exact trivial
  | some w => exact ⟨rfl, rfl⟩

theorem ofEdge?_ends (wf : d.network.WellFormed) {e : EdgeId} {slot : EdgeSlot PlainEdge}
    (stored : d.network.slot? e = some slot) :
    Ends (ofEdge? e) d (fun link d' => d' = d ∧ ReadOff d.network e link) fun _ _ => True := by
  unfold ofEdge?
  rw [ends_bind, ends_network, stored]
  dsimp only
  cases found : companion? d.network slot.source slot.target with
  | none => exact trivial
  | some c =>
    obtain ⟨joined, contingent⟩ := Option.filter_eq_some_iff.mp found
    obtain ⟨slot', opposite, source, target⟩ := (wf.listed _ _ _).mp joined
    have kind : slot'.payload.kind = .contingent := by
      simpa [Network.edge?, opposite] using contingent
    refine (rawValue_ends stored).bind ?_
    rintro value _ ⟨rfl, weight⟩
    refine (rawValue_ends opposite).bind ?_
    rintro value' _ ⟨rfl, weight'⟩
    split
    · rename_i later
      exact ⟨rfl, .behind stored opposite source target kind weight weight' later⟩
    · refine negate_ends.bind ?_
      rintro _ _ ⟨rfl, rfl⟩
      split
      · exact trivial
      · rename_i valid
        rw [not_or, not_lt, not_le] at valid
        exact ⟨rfl, .ahead stored opposite source target kind weight weight' valid.1 valid.2⟩

theorem ReadOff.stored_of_some {e : EdgeId} {link : StnuLink} (read : ReadOff g e (some link)) :
    ∃ slot, g.slot? e = some slot ∧ slot.source = link.activation ∧
      slot.target = link.contingent := by
  cases read with
  | ahead stored _ _ _ _ _ _ _ _ => exact ⟨_, stored, rfl, rfl⟩

/-- The links read off a list of contingent edges. -/
structure ReadFrom (g : PlainNetwork) (edges : List EdgeId) (links : List StnuLink) : Prop where
  sound : ∀ link ∈ links, ∃ e ∈ edges, ReadOff g e (some link)
  complete : ∀ e ∈ edges, ReadOff g e none ∨ ∃ link ∈ links, ReadOff g e (some link)
  distinct : (links.map fun l => (l.activation, l.contingent)).Nodup

theorem readFrom_of_forall (wf : g.WellFormed) {edges : List EdgeId} {all : List (Option StnuLink)}
    (made : List.Forall₂ (ReadOff g) edges all) (nodup : edges.Nodup) :
    ReadFrom g edges all.reduceOption := by
  induction made with
  | nil => exact ⟨by simp, by simp, by simp⟩
  | @cons e read edges all here _ ih =>
    obtain ⟨fresh, nodup⟩ := List.nodup_cons.mp nodup
    obtain ⟨sound, complete, distinct⟩ := ih nodup
    cases read with
    | none =>
      rw [List.reduceOption_cons_of_none]
      refine ⟨fun link mem => ?_, fun d mem => ?_, distinct⟩
      · obtain ⟨d, mem', read⟩ := sound link mem
        exact ⟨d, List.mem_cons_of_mem _ mem', read⟩
      · rcases List.mem_cons.mp mem with rfl | later
        · exact Or.inl here
        · exact complete d later
    | some link =>
      rw [List.reduceOption_cons_of_some]
      refine ⟨fun other mem => ?_, fun d mem => ?_, ?_⟩
      · rcases List.mem_cons.mp mem with rfl | later
        · exact ⟨e, List.mem_cons_self, here⟩
        · obtain ⟨d, mem', read⟩ := sound other later
          exact ⟨d, List.mem_cons_of_mem _ mem', read⟩
      · rcases List.mem_cons.mp mem with rfl | later
        · exact Or.inr ⟨link, List.mem_cons_self, here⟩
        · refine (complete d later).imp_right ?_
          rintro ⟨other, mem', read⟩
          exact ⟨other, List.mem_cons_of_mem _ mem', read⟩
      · -- Another link with these ends would have been read off this edge.
        rw [List.map_cons, List.nodup_cons]
        refine ⟨fun mem => ?_, distinct⟩
        obtain ⟨other, mem', same⟩ := List.mem_map.mp mem
        obtain ⟨d, later, read⟩ := sound other mem'
        obtain ⟨slot, stored, source, target⟩ := here.stored_of_some
        obtain ⟨slot', stored', source', target'⟩ := read.stored_of_some
        have ends := wf.findEdge?_of_slot stored
        have ends' := wf.findEdge?_of_slot stored'
        rw [Prod.mk.injEq] at same
        rw [source', target', same.1, same.2, ← source, ← target, ends] at ends'
        exact fresh (Option.some.inj ends' ▸ later)

theorem linksOf_ends (wf : d.network.WellFormed) :
    Ends (d.network.contingentEdges.filterMapM ofEdge?) d
      (fun links d' => d' = d ∧ ReadFrom d.network d.network.contingentEdges links)
      fun _ _ => True := by
  have each : ∀ e ∈ d.network.contingentEdges, Ends (ofEdge? e) d
      (fun link d' => d' = d ∧ ReadOff d.network e link) fun _ _ => True := by
    intro e mem
    obtain ⟨slot, stored⟩ := Option.isSome_iff_exists.mp
      (Network.mem_edgeIds.mp (List.mem_filter.mp mem).1)
    exact ofEdge?_ends wf stored
  refine (ends_filterMapM_of_forall _ each).mono ?_ fun _ _ h => h
  rintro links _ ⟨rfl, all, made, rfl⟩
  exact ⟨rfl, readFrom_of_forall wf made ((List.nodup_range.filter _).filter _)⟩

theorem ordinary?_of_slot (wf : g.WellFormed) {e : EdgeId} {slot : EdgeSlot PlainEdge}
    (stored : g.slot? e = some slot) {u v : NodeId} (source : slot.source = u)
    (target : slot.target = v) : g.ordinary? u v = slot.payload.value? := by
  rw [← Network.bind_value?,
    wf.edgeBetween?_eq_some_iff.mpr ⟨e, slot, stored, source, target, rfl⟩, Option.bind_some]

theorem ReadFrom.edges (wf : g.WellFormed) {edges : List EdgeId} {links : List StnuLink}
    (read : ReadFrom g edges links) {link : StnuLink} (mem : link ∈ links) :
    0 ≤ link.lower ∧ link.lower < link.upper ∧
      g.ordinary? link.activation link.contingent = some link.upper ∧
      g.ordinary? link.contingent link.activation = some (-link.lower) := by
  obtain ⟨e, _, here⟩ := read.sound link mem
  cases here with
  | ahead stored opposite source target _ weight weight' nonneg range =>
    refine ⟨nonneg, range, ?_, ?_⟩
    · exact (ordinary?_of_slot wf stored rfl rfl).trans weight
    · rw [neg_neg]
      exact (ordinary?_of_slot wf opposite source target).trans weight'

/-- No link ends where it starts: its edge would be its own companion. -/
theorem ReadFrom.apart (wf : g.WellFormed) {edges : List EdgeId} {links : List StnuLink}
    (read : ReadFrom g edges links) {link : StnuLink} (mem : link ∈ links) :
    link.activation ≠ link.contingent := by
  obtain ⟨nonneg, range, longest, shortest⟩ := read.edges wf mem
  intro same
  rw [same] at longest shortest
  rw [longest] at shortest
  have := Option.some.inj shortest
  linarith

theorem ReadFrom.bounds (wf : g.WellFormed) {links : List StnuLink}
    (read : ReadFrom g g.contingentEdges links) {u v : NodeId} (contingent : g.IsContingent u v)
    {w : Value} (weight : g.ordinary? u v = some w) :
    ∃ link ∈ links, u = link.activation ∧ v = link.contingent ∧ w = link.upper ∨
      u = link.contingent ∧ v = link.activation ∧ w = -link.lower := by
  obtain ⟨edge, joined, kind⟩ := contingent
  obtain ⟨e, slot, stored, rfl, rfl, rfl⟩ := wf.edgeBetween?_eq_some_iff.mp joined
  have listed : ∀ {c : EdgeId} {slot : EdgeSlot PlainEdge}, g.slot? c = some slot →
      slot.payload.kind = .contingent → c ∈ g.contingentEdges := by
    intro c slot stored kind
    refine List.mem_filter.mpr ⟨Network.mem_edgeIds.mpr (by rw [stored]; rfl), ?_⟩
    rw [Network.edge?, stored]
    exact beq_iff_eq.mpr kind
  rw [ordinary?_of_slot wf stored rfl rfl] at weight
  rcases read.complete e (listed stored kind) with behind | ⟨link, mem, here⟩
  · cases behind with
    | @behind _ slot' c _ value' stored' opposite source target kind' weight₁ weight₂ later =>
      rw [stored] at stored'
      cases stored'
      rw [weight] at weight₁
      cases weight₁
      have back : ∀ {d : EdgeId} {other : EdgeSlot PlainEdge}, g.slot? d = some other →
          other.source = slot'.target → other.target = slot'.source → d = e ∧ other = slot := by
        intro d other stored'' source' target'
        have found := wf.findEdge?_of_slot stored''
        rw [source', target', target, source, wf.findEdge?_of_slot stored] at found
        cases Option.some.inj found
        rw [stored] at stored''
        exact ⟨rfl, (Option.some.inj stored'').symm⟩
      rcases read.complete c (listed opposite kind') with behind | ⟨link, mem, here⟩
      · -- Of the two edges only one is behind the other.
        cases behind with
        | behind opposite' stored'' source' target' _ weight₃ weight₄ later' =>
          rw [opposite] at opposite'
          cases opposite'
          obtain ⟨rfl, rfl⟩ := back stored'' source' target'
          rw [weight₂] at weight₃
          rw [weight] at weight₄
          cases weight₃
          cases weight₄
          lia
      · cases here with
        | ahead opposite' stored'' source' target' _ _ weight₄ _ _ =>
          rw [opposite] at opposite'
          cases opposite'
          obtain ⟨rfl, rfl⟩ := back stored'' source' target'
          rw [weight] at weight₄
          cases weight₄
          exact ⟨_, mem, Or.inr ⟨target.symm, source.symm, (neg_neg w).symm⟩⟩
  · cases here with
    | ahead stored' _ _ _ _ weight' _ _ _ =>
      rw [stored] at stored'
      cases stored'
      rw [weight] at weight'
      cases weight'
      exact ⟨_, mem, Or.inl ⟨rfl, rfl, rfl⟩⟩

theorem isContingent_of_mem (wf : g.WellFormed) {e : EdgeId} {slot : EdgeSlot PlainEdge}
    (mem : e ∈ g.contingentEdges) (stored : g.slot? e = some slot) :
    g.IsContingent slot.source slot.target := by
  have kind := (List.mem_filter.mp mem).2
  rw [Network.edge?, stored] at kind
  exact ⟨slot.payload, wf.edgeBetween?_eq_some_iff.mpr ⟨e, slot, stored, rfl, rfl, rfl⟩,
    beq_iff_eq.mp kind⟩

theorem ReadFrom.isContingent (wf : g.WellFormed) {links : List StnuLink}
    (read : ReadFrom g g.contingentEdges links) {link : StnuLink} (mem : link ∈ links) :
    g.IsContingent link.activation link.contingent ∧
      g.IsContingent link.contingent link.activation := by
  obtain ⟨e, listed, here⟩ := read.sound link mem
  cases here with
  | @ahead slot slot' c _ _ stored opposite source target kind _ _ _ _ =>
    refine ⟨isContingent_of_mem wf listed stored, slot'.payload, ?_, kind⟩
    exact wf.edgeBetween?_eq_some_iff.mpr ⟨c, slot', opposite, source, target, rfl⟩

/-- The links read off after the nodes have been bounded are those of the network. -/
theorem ReadFrom.mem_iff {k : PlainNetwork} (bounded : g.Bounded k)
    (first : ∀ n, n < k.nodeCount → n ≠ g.origin → k.bound n g.origin ≤ 0) {links : List StnuLink}
    (read : ReadFrom k k.contingentEdges links) {link : StnuLink} :
    link ∈ links ↔ g.IsLink link := by
  have wf := bounded.wellFormed
  constructor
  · intro mem
    obtain ⟨nonneg, range, longest, shortest⟩ := read.edges wf mem
    obtain ⟨ahead, behind⟩ := read.isContingent wf mem
    have apart := read.apart wf mem
    have ⟨_, joined, _⟩ := ahead
    obtain ⟨inside, inside'⟩ := wf.lt_of_edgeBetween? joined
    obtain ⟨longest, finite⟩ := Network.ordinary?_eq_some_iff.mp longest
    obtain ⟨shortest, _⟩ := Network.ordinary?_eq_some_iff.mp shortest
    have other : link.contingent ≠ g.origin := by
      intro into
      have early := first link.activation inside (into ▸ apart)
      rw [← into, longest] at early
      exact absurd range (not_lt.mpr (early.trans nonneg))
    rw [bounded.bound_eq first inside apart, if_neg other] at longest
    rw [bounded.bound_eq first inside' apart.symm] at shortest
    exact ⟨(bounded.contingent _ _).mp ahead, (bounded.contingent _ _).mp behind,
      Network.ordinary?_eq_some_iff.mpr ⟨longest, finite⟩, shortest.symm, nonneg, range, other⟩
  · rintro ⟨ahead, behind, longest, shortest, nonneg, range, other⟩
    rw [← bounded.contingent] at ahead behind
    obtain ⟨_, joined, _⟩ := ahead
    obtain ⟨inside, inside'⟩ := wf.lt_of_edgeBetween? joined
    obtain ⟨longest, finite⟩ := Network.ordinary?_eq_some_iff.mp longest
    have apart : link.activation ≠ link.contingent := by
      intro same
      rw [same] at longest shortest
      rw [if_neg other, longest] at shortest
      linarith
    have longest' : k.ordinary? link.activation link.contingent = some link.upper := by
      refine Network.ordinary?_eq_some_iff.mpr ⟨?_, finite⟩
      rw [bounded.bound_eq first inside apart, if_neg other, longest]
    have shortest' : k.ordinary? link.contingent link.activation = some (-link.lower) := by
      refine Network.ordinary?_eq_some_iff.mpr ⟨?_, ?_⟩
      · rw [bounded.bound_eq first inside' apart.symm, shortest]
      · exact ne_of_lt (lt_of_le_of_lt (neg_nonpos.mpr nonneg) (by decide))
    obtain ⟨found, mem, ⟨source, target, same⟩ | ⟨source, target, same⟩⟩ :=
      read.bounds wf behind shortest'
    · obtain ⟨nonneg', range', _⟩ := read.edges wf mem
      linarith
    · obtain ⟨_, _, longest'', _⟩ := read.edges wf mem
      rw [← source, ← target, longest'] at longest''
      obtain rfl : link = found := by
        cases link
        cases found
        dsimp only at *
        rw [source, target, Option.some.inj longest'', neg_injective same]
      exact mem

/-- `h` differs from `g` in a case value of one edge, which was the same before or absent. -/
structure CaseStored (g h : PlainNetwork) (source target : NodeId) (case : CaseValue) : Prop where
  wellFormed : h.WellFormed
  nodeCount : h.nodeCount = g.nodeCount
  bound : ∀ u v, h.bound u v = g.bound u v
  case? : ∀ u v, h.case? u v = if source = u ∧ target = v then some case else g.case? u v
  activations : h.activations = g.activations
  agrees : ∀ c, g.case? source target = some c → c = case

theorem storeCaseValue_ends (wf : d.network.WellFormed) {source target : NodeId}
    (hs : source < d.network.nodeCount) (ht : target < d.network.nodeCount) (case : CaseValue) :
    Ends (storeCaseValue source target case) d
      (fun _ d' => CaseStored d.network d'.network source target case) fun _ _ => True := by
  have wf' := wf.edgeOrInsert hs ht (PlainEdge.ofKind .internal)
  have found := Network.findEdge?_edgeOrInsert wf hs ht (PlainEdge.ofKind .internal)
  have joined := Network.edgeBetween?_edgeOrInsert wf hs ht (PlainEdge.ofKind .internal)
  have nodes := Network.nodes_edgeOrInsert d.network source target (PlainEdge.ofKind .internal)
  have activations : (d.network.edgeOrInsert source target (PlainEdge.ofKind .internal)).1.activations
      = d.network.activations := by
    unfold Network.edgeOrInsert Network.insertEdge
    split
    · rfl
    · split <;> rfl
  unfold storeCaseValue
  rw [ends_bind, ends_modifyNetwork, ends_bind, ends_network]
  dsimp only
  generalize (d.network.edgeOrInsert source target (PlainEdge.ofKind .internal)).2 = e at found
  generalize (d.network.edgeOrInsert source target (PlainEdge.ofKind .internal)).1 = k at *
  have here : k.edge? e = some ((d.network.edgeBetween? source target).getD (.ofKind .internal)) := by
    have there := joined source target
    rwa [if_pos ⟨rfl, rfl⟩, Network.edgeBetween?, found] at there
  rw [found]
  dsimp only
  split
  · exact trivial
  · rename_i agrees
    rw [ends_modifyNetwork]
    have edges := Network.edgeBetween?_modifyEdge wf' found fun edge => { edge with case := some case }
    refine ⟨wf'.modifyEdge e fun edge => { edge with case := some case }, ?_, fun u v => ?_, fun u v => ?_, activations, fun c stored => ?_⟩
    · exact congrArg Array.size nodes
    · rw [Network.bound, Network.bound]
      dsimp only
      rw [edges, joined]
      split
      · rename_i same
        rw [← same.1, ← same.2]
        cases d.network.edgeBetween? source target <;> rfl
      · rfl
    · rw [Network.case?, Network.case?]
      dsimp only
      rw [edges, joined]
      split
      · rfl
      · rfl
    · rw [here] at agrees
      cases joined' : d.network.edgeBetween? source target with
      | none =>
        rw [Network.case?, joined'] at stored
        cases stored
      | some edge =>
        rw [Network.case?, joined', Option.bind_some] at stored
        simpa [joined', stored] using agrees

/-- A network in which the case values of some links have been stored. -/
structure Recorded (g : PlainNetwork) (links : List StnuLink) (h : PlainNetwork) : Prop where
  wellFormed : h.WellFormed
  nodeCount : h.nodeCount = g.nodeCount
  bound : ∀ u v, h.bound u v = g.bound u v
  case? : ∀ u v c, h.case? u v = some c → g.case? u v = some c ∨ ∃ link ∈ links,
    u = link.activation ∧ v = link.contingent ∧ c = ⟨.lower, link.contingent, link.lower⟩ ∨
      u = link.contingent ∧ v = link.activation ∧ c = ⟨.upper, link.contingent, -link.upper⟩
  lower : ∀ link ∈ links, h.case? link.activation link.contingent =
    some ⟨.lower, link.contingent, link.lower⟩
  upper : ∀ link ∈ links, h.case? link.contingent link.activation =
    some ⟨.upper, link.contingent, -link.upper⟩
  activation : ∀ link ∈ links, h.activation? link.contingent = some link.activation

theorem Recorded.nil {g : PlainNetwork} (wf : g.WellFormed) : Recorded g [] g :=
  ⟨wf, rfl, fun _ _ => rfl, fun _ _ _ stored => Or.inl stored,
    fun _ mem => absurd mem List.not_mem_nil, fun _ mem => absurd mem List.not_mem_nil,
    fun _ mem => absurd mem List.not_mem_nil⟩

theorem activation?_setActivation (g : PlainNetwork) (contingent activation n : NodeId) :
    (g.setActivation contingent activation).activation? n =
      if n = contingent then some activation else g.activation? n := by
  unfold Network.activation? Network.setActivation
  rw [List.find?_cons]
  by_cases same : contingent = n
  · simp [same]
  · simp only [beq_false_of_ne same, if_neg (Ne.symm same)]
    rw [List.find?_filter]
    congr 2
    funext a
    by_cases here : a.1 = n
    · simp [here, Ne.symm same]
    · simp [here]

section Recording

variable {links : List StnuLink} {link : StnuLink} {k h₁ h₂ : PlainNetwork}

theorem case?_recorded
    (first : CaseStored k h₁ link.activation link.contingent ⟨.lower, link.contingent, link.lower⟩)
    (second : CaseStored h₁ h₂ link.contingent link.activation ⟨.upper, link.contingent, -link.upper⟩)
    (u v : NodeId) :
    h₂.case? u v =
      if link.contingent = u ∧ link.activation = v then some ⟨.upper, link.contingent, -link.upper⟩
      else if link.activation = u ∧ link.contingent = v then
        some ⟨.lower, link.contingent, link.lower⟩
      else k.case? u v := by
  rw [second.case?, first.case?]

/-- The edge back to the activation node cannot hold the lower case of another link, and that to the
contingent node holds the lower case of no other. -/
theorem Recorded.lower_kept (recorded : Recorded g links k) (apart : link.activation ≠ link.contingent)
    (first : CaseStored k h₁ link.activation link.contingent ⟨.lower, link.contingent, link.lower⟩)
    (second : CaseStored h₁ h₂ link.contingent link.activation ⟨.upper, link.contingent, -link.upper⟩)
    {other : StnuLink} (mem : other ∈ links) :
    h₂.case? other.activation other.contingent = some ⟨.lower, other.contingent, other.lower⟩ := by
  have held := recorded.lower other mem
  rw [case?_recorded first second]
  split
  · rename_i same
    have free := second.agrees
    rw [first.case?, if_neg fun same => apart same.1, same.1, same.2] at free
    cases free _ held
  · split
    · rename_i same
      have agrees := first.agrees
      rw [same.1, same.2] at agrees
      rw [agrees _ held, same.2]
    · exact held

/-- It is the other way round for the upper case. -/
theorem Recorded.upper_kept (recorded : Recorded g links k) (apart : link.activation ≠ link.contingent)
    (first : CaseStored k h₁ link.activation link.contingent ⟨.lower, link.contingent, link.lower⟩)
    (second : CaseStored h₁ h₂ link.contingent link.activation ⟨.upper, link.contingent, -link.upper⟩)
    {other : StnuLink} (mem : other ∈ links) :
    h₂.case? other.contingent other.activation = some ⟨.upper, other.contingent, -other.upper⟩ := by
  have held := recorded.upper other mem
  rw [case?_recorded first second]
  split
  · rename_i same
    have agrees := second.agrees
    rw [first.case?, if_neg fun same => apart same.1, same.1, same.2] at agrees
    rw [agrees _ held, same.1]
  · split
    · rename_i same
      have free := first.agrees
      rw [same.1, same.2] at free
      cases free _ held
    · exact held

theorem Recorded.cons (recorded : Recorded g links k) (apart : link.activation ≠ link.contingent)
    (first : CaseStored k h₁ link.activation link.contingent ⟨.lower, link.contingent, link.lower⟩)
    (second : CaseStored h₁ h₂ link.contingent link.activation ⟨.upper, link.contingent, -link.upper⟩)
    (single : ∀ other ∈ links, other.contingent = link.contingent → other.activation = link.activation)
    (f : Node → Node) :
    Recorded g (link :: links)
      ((h₂.modifyNode link.contingent f).setActivation link.contingent link.activation) := by
  refine ⟨(second.wellFormed.modifyNode link.contingent f).setActivation _ _, ?_, fun u v => ?_,
    fun u v c found => ?_, fun other mem => ?_, fun other mem => ?_, fun other mem => ?_⟩
  · change (h₂.modifyNode link.contingent f).nodeCount = _
    rw [Network.nodeCount, Network.modifyNode, Array.size_modify]
    exact second.nodeCount.trans (first.nodeCount.trans recorded.nodeCount)
  · exact (second.bound u v).trans ((first.bound u v).trans (recorded.bound u v))
  · change h₂.case? u v = some c at found
    rw [case?_recorded first second] at found
    split at found
    · rename_i same
      exact Or.inr ⟨link, List.mem_cons_self,
        Or.inr ⟨same.1.symm, same.2.symm, (Option.some.inj found).symm⟩⟩
    · split at found
      · rename_i same
        exact Or.inr ⟨link, List.mem_cons_self,
          Or.inl ⟨same.1.symm, same.2.symm, (Option.some.inj found).symm⟩⟩
      · refine (recorded.case? u v c found).imp_right ?_
        rintro ⟨other, mem, held⟩
        exact ⟨other, List.mem_cons_of_mem _ mem, held⟩
  · rcases List.mem_cons.mp mem with rfl | before
    · change h₂.case? other.activation other.contingent = _
      rw [case?_recorded first second, if_neg fun same => apart same.1.symm, if_pos ⟨rfl, rfl⟩]
    · exact recorded.lower_kept apart first second before
  · rcases List.mem_cons.mp mem with rfl | before
    · change h₂.case? other.contingent other.activation = _
      rw [case?_recorded first second, if_pos ⟨rfl, rfl⟩]
    · exact recorded.upper_kept apart first second before
  · rw [activation?_setActivation]
    rcases List.mem_cons.mp mem with rfl | before
    · exact if_pos rfl
    · split
      · rename_i same
        rw [single other before same]
      · have held := recorded.activation other before
        rw [Network.activation?] at held ⊢
        change (h₂.activations.find? _).map _ = _
        rwa [second.activations, first.activations]

/-- A further link is recorded; its contingent node is not activated by another node. -/
theorem record_ends (recorded : Recorded g links d.network)
    (inside : link.activation < g.nodeCount ∧ link.contingent < g.nodeCount)
    (apart : link.activation ≠ link.contingent) :
    Ends (record link) d (fun _ d' => Recorded g (link :: links) d'.network ∧
      ∀ other ∈ links, other.contingent = link.contingent → other.activation = link.activation)
      fun _ _ => True := by
  have ha : link.activation < d.network.nodeCount := recorded.nodeCount ▸ inside.1
  have hc : link.contingent < d.network.nodeCount := recorded.nodeCount ▸ inside.2
  unfold record
  rw [ends_bind, ends_network]
  cases present : (d.network.activation? link.contingent).filter (· != link.activation) with
  | some other =>
    dsimp only
    exact nodeName_ends.bind fun _ _ _ => trivial
  | none =>
    have single : ∀ other ∈ links, other.contingent = link.contingent →
        other.activation = link.activation := by
      intro other mem same
      have held := recorded.activation other mem
      rw [same] at held
      rw [held] at present
      simpa using present
    refine negate_ends.bind ?_
    rintro _ d ⟨rfl, rfl⟩
    refine (storeCaseValue_ends recorded.wellFormed ha hc _).bind fun _ d₁ first => ?_
    refine (storeCaseValue_ends first.wellFormed (by rwa [first.nodeCount])
      (by rwa [first.nodeCount]) _).bind fun _ d₂ second => ?_
    rw [ends_bind, ends_modifyNetwork, ends_modifyNetwork]
    exact ⟨recorded.cons apart first second single _, single⟩

end Recording

theorem recordAll_ends {links : List StnuLink} (wf : d.network.WellFormed)
    (read : ReadFrom d.network d.network.contingentEdges links) :
    Ends (links.forM record) d (fun _ d' => Recorded d.network links d'.network ∧
      ∀ link ∈ links, ∀ other ∈ links, other.contingent = link.contingent →
        other.activation = link.activation) fun _ _ => True := by
  refine (ends_forM (fun todo d' => ∃ done, (∀ link, link ∈ links ↔ link ∈ done ∨ link ∈ todo) ∧
    Recorded d.network done d'.network ∧ ∀ link ∈ done, ∀ other ∈ done,
      other.contingent = link.contingent → other.activation = link.activation) ?_ _ d
    ⟨[], fun link => by simp, .nil wf, by simp⟩).mono ?_ fun _ _ h => h
  · rintro link rest d' ⟨done, members, recorded, single⟩
    have mem : link ∈ links := (members link).mpr (Or.inr List.mem_cons_self)
    obtain ⟨_, _, longest, _⟩ := read.edges wf mem
    rw [← Network.bind_value?] at longest
    obtain ⟨edge, joined, _⟩ := Option.bind_eq_some_iff.mp longest
    refine (record_ends recorded (wf.lt_of_edgeBetween? joined) (read.apart wf mem)).mono ?_
      fun _ _ h => h
    rintro _ d'' ⟨recorded', single'⟩
    refine ⟨link :: done, fun other => ?_, recorded', ?_⟩
    · rw [members other, List.mem_cons, List.mem_cons]
      tauto
    · intro a ha b hb same
      rcases List.mem_cons.mp ha with new | old <;> rcases List.mem_cons.mp hb with new' | old'
      · rw [new, new']
      · rw [new] at same ⊢
        exact single' b old' same
      · rw [new'] at same ⊢
        exact (single' a old same.symm).symm
      · exact single a old b old' same
  · rintro _ d' ⟨done, members, recorded, single⟩
    have same : ∀ link, link ∈ done ↔ link ∈ links := fun link => by simp [members link]
    simp only [same] at single
    refine ⟨⟨recorded.wellFormed, recorded.nodeCount, recorded.bound, fun u v c found => ?_,
      fun link mem => recorded.lower link ((same link).mpr mem),
      fun link mem => recorded.upper link ((same link).mpr mem),
      fun link mem => recorded.activation link ((same link).mpr mem)⟩, single⟩
    refine (recorded.case? u v c found).imp_right ?_
    rintro ⟨link, mem, held⟩
    exact ⟨link, (same link).mp mem, held⟩

end StnuLink

/-- A link whose bounds stand in the network. -/
structure LinkPrepared (g : PlainNetwork) (link : StnuLink) : Prop where
  inside : link.activation < g.nodeCount ∧ link.contingent < g.nodeCount
  apart : link.activation ≠ link.contingent
  nonneg : 0 ≤ link.lower
  range : link.lower < link.upper
  lower : g.lowerWeight? link.activation link.contingent = some link.lower
  upper : ∃ w, g.ordinary? link.contingent link.activation = some w ∧ w ≤ -link.lower

/-- What the preparation makes of a network: the links are its pairs of contingent edges, and no
constraints are added but that no node is before the reference node. -/
structure Prepared (g h : PlainNetwork) (links : List StnuLink) : Prop where
  wellFormed : h.WellFormed
  nodeCount_le : g.nodeCount ≤ h.nodeCount
  nodes : ∀ n, n < h.nodeCount → g.Scheduled n
  mem_iff : ∀ link, link ∈ links ↔ g.IsLink link
  link : ∀ link ∈ links, LinkPrepared h link
  distinct : (links.map StnuLink.contingent).Nodup
  lower : ∀ u v w, h.lowerWeight? u v = some w → g.lowerWeight? u v = some w ∨
    ∃ link ∈ links, u = link.activation ∧ v = link.contingent ∧ w = link.lower
  case? : ∀ u v c, h.case? u v = some c → g.case? u v = some c ∨ ∃ link ∈ links,
    u = link.activation ∧ v = link.contingent ∧ c = ⟨.lower, link.contingent, link.lower⟩ ∨
      u = link.contingent ∧ v = link.activation ∧ c = ⟨.upper, link.contingent, -link.upper⟩
  cases : ∀ link ∈ links,
    h.case? link.activation link.contingent = some ⟨.lower, link.contingent, link.lower⟩ ∧
      h.case? link.contingent link.activation = some ⟨.upper, link.contingent, -link.upper⟩
  ordinary : ∀ u v w, h.ordinary? u v = some w →
    g.ordinary? u v = some w ∧ ¬ g.IsContingent u v ∨ v = g.origin ∧ w = 0 ∨
      ∃ link ∈ links, u = link.activation ∧ v = link.contingent ∧ w = link.upper ∨
        u = link.contingent ∧ v = link.activation ∧ w = -link.lower
  kept : ∀ u v w, g.ordinary? u v = some w → ∃ w', h.ordinary? u v = some w' ∧ w' ≤ w
  first : ∀ n, n < h.nodeCount → n ≠ g.origin → h.bound n g.origin ≤ 0

/-- The order of the links does not matter. -/
theorem Prepared.perm {g h : PlainNetwork} {links links' : List StnuLink}
    (prepared : Prepared g h links) (perm : links.Perm links') : Prepared g h links' where
  wellFormed := prepared.wellFormed
  nodeCount_le := prepared.nodeCount_le
  nodes := prepared.nodes
  mem_iff link := perm.mem_iff.symm.trans (prepared.mem_iff link)
  link link mem := prepared.link link (perm.mem_iff.mpr mem)
  distinct := (perm.map StnuLink.contingent).nodup_iff.mp prepared.distinct
  lower := by simpa only [perm.mem_iff] using prepared.lower
  case? := by simpa only [perm.mem_iff] using prepared.case?
  cases link mem := prepared.cases link (perm.mem_iff.mpr mem)
  ordinary := by simpa only [perm.mem_iff] using prepared.ordinary
  kept := prepared.kept
  first := prepared.first

namespace StnuLink

open Preparation

section Assembling

variable {g k h : PlainNetwork} {links : List StnuLink}

theorem Recorded.ordinary? (recorded : Recorded k links h) (u v : NodeId) :
    h.ordinary? u v = k.ordinary? u v := by
  rw [Network.ordinary?, recorded.bound, Network.ordinary?]

theorem Recorded.lowerWeight? (recorded : Recorded k links h) {u v : NodeId} {w : Value}
    (found : h.lowerWeight? u v = some w) : k.lowerWeight? u v = some w ∨
      ∃ link ∈ links, u = link.activation ∧ v = link.contingent ∧ w = link.lower := by
  obtain ⟨c, held, rfl⟩ := Option.map_eq_some_iff.mp found
  obtain ⟨held, kind⟩ := Option.filter_eq_some_iff.mp held
  rcases recorded.case? u v c held with before | ⟨link, mem, ⟨rfl, rfl, rfl⟩ | ⟨_, _, rfl⟩⟩
  · refine Or.inl ?_
    rw [Network.lowerWeight?, before, Option.filter_some, if_pos kind]
    rfl
  · exact Or.inr ⟨link, mem, rfl, rfl, rfl⟩
  · cases kind

theorem Recorded.linkPrepared (recorded : Recorded k links h) (wf : k.WellFormed)
    (read : ReadFrom k k.contingentEdges links) {link : StnuLink} (mem : link ∈ links) :
    LinkPrepared h link := by
  obtain ⟨nonneg, range, longest, shortest⟩ := read.edges wf mem
  have ⟨_, joined, _⟩ := (read.isContingent wf mem).1
  refine ⟨?_, read.apart wf mem, nonneg, range, ?_, _, (recorded.ordinary? _ _).trans shortest, le_rfl⟩
  · rw [recorded.nodeCount]
    exact wf.lt_of_edgeBetween? joined
  · rw [Network.lowerWeight?, recorded.lower link mem]
    rfl

/-- An ordinary value stood in the network before, or is a bound of a node or of a link. -/
theorem ReadFrom.ordinary?_cases (bounded : g.Bounded k)
    (read : ReadFrom k k.contingentEdges links) {u v : NodeId} {w : Value}
    (weight : k.ordinary? u v = some w) :
    g.ordinary? u v = some w ∧ ¬ g.IsContingent u v ∨ v = g.origin ∧ w = 0 ∨
      ∃ link ∈ links, u = link.activation ∧ v = link.contingent ∧ w = link.upper ∨
        u = link.contingent ∧ v = link.activation ∧ w = -link.lower := by
  by_cases contingent : k.IsContingent u v
  · exact Or.inr (Or.inr (read.bounds bounded.wellFormed contingent weight))
  · obtain ⟨rfl, finite⟩ := Network.ordinary?_eq_some_iff.mp weight
    rcases bounded.bound u v with same | ⟨into, zero, _⟩
    · refine Or.inl ⟨?_, fun was => contingent ((bounded.contingent u v).mpr was)⟩
      exact Network.ordinary?_eq_some_iff.mpr ⟨same.symm, finite⟩
    · exact Or.inr (Or.inl ⟨into, zero⟩)

theorem Recorded.prepared (recorded : Recorded k links h) (bounded : g.Bounded k)
    (read : ReadFrom k k.contingentEdges links)
    (first : ∀ n, n < k.nodeCount → n ≠ g.origin → k.bound n g.origin ≤ 0)
    (single : ∀ link ∈ links, ∀ other ∈ links, other.contingent = link.contingent →
      other.activation = link.activation) : Prepared g h links where
  wellFormed := recorded.wellFormed
  nodeCount_le := bounded.nodeCount_le.trans_eq recorded.nodeCount.symm
  nodes n hn := bounded.nodes n (recorded.nodeCount ▸ hn)
  mem_iff link := read.mem_iff bounded first
  link link mem := recorded.linkPrepared bounded.wellFormed read mem
  distinct := List.Nodup.map_on (fun a ha b hb same => List.inj_on_of_nodup_map read.distinct ha hb
    (Prod.ext (single b hb a ha same) same)) (List.Nodup.of_map _ read.distinct)
  lower u v w found := by
    refine (recorded.lowerWeight? found).imp_left fun before => ?_
    rwa [Network.lowerWeight?, bounded.case?] at before
  case? u v c held := (recorded.case? u v c held).imp_left fun before => by rwa [← bounded.case?]
  cases link mem := ⟨recorded.lower link mem, recorded.upper link mem⟩
  ordinary u v w weight := read.ordinary?_cases bounded ((recorded.ordinary? u v).symm.trans weight)
  kept u v w weight := by
    rw [recorded.ordinary?]
    exact bounded.ordinary?_le weight
  first n hn other := by
    rw [recorded.bound]
    exact first n (recorded.nodeCount ▸ hn) other

end Assembling

theorem prepareAll_ends {d : Draft PlainEdge} (wf : d.network.WellFormed) :
    Ends prepareAll d (fun links d' => Prepared d.network d'.network links) fun _ _ => True := by
  unfold prepareAll
  refine (Network.bounded_ensureZ wf).bind ?_
  rintro _ d₁ ⟨rfl, bounded⟩
  rw [ends_bind, ends_network]
  refine (boundAll_ends bounded).bind ?_
  rintro _ d₂ ⟨bounded, first⟩
  rw [ends_bind, ends_network]
  refine (linksOf_ends bounded.wellFormed).bind ?_
  rintro links d₂ ⟨rfl, read⟩
  refine (recordAll_ends bounded.wellFormed read).bind ?_
  rintro _ d₃ ⟨recorded, single⟩
  rw [ends_pure]
  exact (recorded.prepared bounded read first single).perm
    (List.mergeSort_perm links fun a b => a.contingent ≤ b.contingent).symm

end StnuLink

end TemporalNetwork
