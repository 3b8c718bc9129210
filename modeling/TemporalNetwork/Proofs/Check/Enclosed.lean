import TemporalNetwork.Proofs.Check.Preparation
import TemporalNetwork.Proofs.Network.Removal

/-!
What a preparation needs in order not to run into a fault: the nodes that a network refers to, its
reference node and the activation nodes of its links, are nodes of it. A preparation that fails leaves
such a network behind as well, so it can be tried again.
-/

namespace TemporalNetwork

variable {E : Type} {g h : Network E}

namespace Network

/-- The nodes that the network refers to are its own. -/
structure Enclosed (g : Network E) : Prop where
  wellFormed : g.WellFormed
  z : ∀ z, g.z = some z → z < g.nodeCount
  activations : ∀ a ∈ g.activations, a.2 < g.nodeCount

namespace Enclosed

theorem of_sameNodes (enclosed : g.Enclosed) (same : g.SameNodes h) (wf : h.WellFormed) :
    h.Enclosed := by
  have count : h.nodeCount = g.nodeCount := congrArg Array.size same.nodes
  refine ⟨wf, ?_, ?_⟩
  · rw [same.z, count]
    exact enclosed.z
  · rw [same.activations, count]
    exact enclosed.activations

theorem modifyEdge (enclosed : g.Enclosed) (e : EdgeId) (f : E → E) : (g.modifyEdge e f).Enclosed :=
  enclosed.of_sameNodes ⟨rfl, rfl, rfl⟩ (enclosed.wellFormed.modifyEdge e f)

theorem modifyNode (enclosed : g.Enclosed) (n : NodeId) (f : Node → Node) :
    (g.modifyNode n f).Enclosed := by
  have count : (g.modifyNode n f).nodeCount = g.nodeCount := Array.size_modify ..
  refine ⟨enclosed.wellFormed.modifyNode n f, fun z reference => ?_, fun a mem => ?_⟩
  · rw [count]
    exact enclosed.z z reference
  · rw [count]
    exact enclosed.activations a mem

theorem setZ (enclosed : g.Enclosed) {z : NodeId} (inside : z < g.nodeCount) : (g.setZ z).Enclosed := by
  refine ⟨enclosed.wellFormed.setZ z, fun z' reference => ?_, enclosed.activations⟩
  cases reference
  exact inside

theorem setActivation (enclosed : g.Enclosed) (contingent : NodeId) {activation : NodeId}
    (inside : activation < g.nodeCount) : (g.setActivation contingent activation).Enclosed := by
  refine ⟨enclosed.wellFormed.setActivation contingent activation, enclosed.z, fun a mem => ?_⟩
  rcases List.mem_cons.mp mem with rfl | before
  · exact inside
  · exact enclosed.activations a (List.mem_filter.mp before).1

theorem activation?_lt (enclosed : g.Enclosed) {contingent activation : NodeId}
    (activated : g.activation? contingent = some activation) : activation < g.nodeCount := by
  obtain ⟨a, found, rfl⟩ := Option.map_eq_some_iff.mp activated
  exact enclosed.activations a (List.mem_of_find?_eq_some found)

theorem addNode (enclosed : g.Enclosed) {n : Node} {id : NodeId}
    (added : g.addNode n = some (h, id)) : h.Enclosed ∧ h.nodeCount = g.nodeCount + 1 := by
  have wf := enclosed.wellFormed.addNode added
  unfold Network.addNode at added
  split at added
  · cases added
  · cases added
    have count : (g.nodes.push n).size = g.nodeCount + 1 := Array.size_push _
    refine ⟨⟨wf, fun z reference => ?_, fun a mem => ?_⟩, count⟩
    · rw [Network.nodeCount, count]
      dsimp only at reference
      split at reference
      · cases reference
        exact Nat.lt_succ_self g.nodeCount
      · exact Nat.lt_succ_of_lt (enclosed.z z reference)
    · rw [Network.nodeCount, count]
      exact Nat.lt_succ_of_lt (enclosed.activations a mem)

theorem addEdgeBetween (enclosed : g.Enclosed) {name : String} {payload : E} {source target : NodeId}
    {e : EdgeId} (added : g.addEdgeBetween name payload source target = some (h, e)) : h.Enclosed := by
  refine enclosed.of_sameNodes ?_ (enclosed.wellFormed.addEdgeBetween added)
  unfold Network.addEdgeBetween at added
  split at added
  · cases added
  · have same := sameNodes_insertEdge g name payload source target
    rwa [Option.some.inj added] at same

theorem edgeOrInsert (enclosed : g.Enclosed) {source target : NodeId}
    (hs : source < g.nodeCount) (ht : target < g.nodeCount) (payload : E) :
    (g.edgeOrInsert source target payload).1.Enclosed := by
  refine enclosed.of_sameNodes ?_ (enclosed.wellFormed.edgeOrInsert hs ht payload)
  unfold Network.edgeOrInsert
  split
  · exact .refl g
  · exact sameNodes_insertEdge ..

theorem empty : (Network.empty : Network E).Enclosed := ⟨wellFormed_empty, nofun, nofun⟩

theorem getD_build (nodes : List Node) (edges : List (String × NodeId × NodeId × E)) :
    ((build nodes edges).getD .empty).Enclosed := by
  cases built : build nodes edges with
  | none => exact empty
  | some g =>
    exact build_induct (P := Enclosed) empty (fun _ _ _ _ _ added enclosed => (enclosed.addNode added).1)
      (fun _ _ _ _ _ _ _ _ added enclosed => enclosed.addEdgeBetween added) built

theorem nodeCount_edgeOrInsert (g : Network E) (source target : NodeId) (payload : E) :
    (g.edgeOrInsert source target payload).1.nodeCount = g.nodeCount := by
  rw [nodeCount, nodes_edgeOrInsert, nodeCount]

end Enclosed

theorem findNode?_lt {name : String} {n : NodeId} (found : g.findNode? name = some n) :
    n < g.nodeCount := (Array.findIdx?_eq_some_iff_findIdx_eq.mp found).1

end Network

/-- A failure that is a fault is one of some kinds. -/
def Failure.Within (kinds : Fault → Prop) (e : Failure) : Prop := ∀ f, e = .fault f → kinds f

namespace Preparation

variable {kinds : Fault → Prop} {α β : Type} {d : Draft E}

/-- A preparation leaves an enclosed network behind, in which no node is missing; if it fails with a fault,
that is one of some kinds. -/
def Keeps (kinds : Fault → Prop) (m : Preparation E α) (d : Draft E) (ok : α → Network E → Prop) :
    Prop :=
  Ends m d
    (fun a d' => d'.network.Enclosed ∧ d.network.nodeCount ≤ d'.network.nodeCount ∧ ok a d'.network)
    fun e d' => d'.network.Enclosed ∧ e.Within kinds

variable {m : Preparation E α} {f : α → Preparation E β} {ok : α → Network E → Prop}
  {ok' : β → Network E → Prop}

theorem Keeps.bind (first : Keeps kinds m d ok)
    (rest : ∀ a d', d'.network.Enclosed → d.network.nodeCount ≤ d'.network.nodeCount →
      ok a d'.network → Keeps kinds (f a) d' ok') : Keeps kinds (m >>= f) d ok' := by
  refine Ends.bind first ?_
  rintro a d' ⟨enclosed, le, holds⟩
  refine (rest a d' enclosed le holds).mono ?_ fun _ _ => id
  rintro b d'' ⟨enclosed', le', holds'⟩
  exact ⟨enclosed', Nat.le_trans le le', holds'⟩

theorem Keeps.mono {ok' : α → Network E → Prop} (keeps : Keeps kinds m d ok)
    (weaker : ∀ a k, ok a k → ok' a k) : Keeps kinds m d ok' :=
  Ends.mono keeps (fun a d' ⟨enclosed, le, holds⟩ => ⟨enclosed, le, weaker a d'.network holds⟩)
    fun _ _ => id

theorem keeps_pure (enclosed : d.network.Enclosed) {a : α} (holds : ok a d.network) :
    Keeps kinds (pure a) d ok := ⟨enclosed, Nat.le_refl _, holds⟩

theorem keeps_throw (enclosed : d.network.Enclosed) {e : Failure} (within : e.Within kinds) :
    Keeps kinds (throw e : Preparation E α) d ok := ⟨enclosed, within⟩

theorem within_structural (e : StructuralError) : (Failure.structural e).Within kinds := nofun

theorem within_range (e : RangeError) : (Failure.range e).Within kinds := nofun

theorem keeps_network_bind {f : Network E → Preparation E β} :
    Keeps kinds (network >>= f) d ok' ↔ Keeps kinds (f d.network) d ok' := Iff.rfl

theorem keeps_modifyNetwork {change : Network E → Network E} (enclosed : (change d.network).Enclosed)
    (le : d.network.nodeCount ≤ (change d.network).nodeCount) :
    Keeps kinds (modifyNetwork change) d fun _ _ => True := ⟨enclosed, le, trivial⟩

theorem keeps_noteFix (enclosed : d.network.Enclosed) (fix : String) :
    Keeps kinds (noteFix fix : Preparation E Unit) d fun _ k => k = d.network :=
  ⟨enclosed, Nat.le_refl _, rfl⟩

theorem keeps_forM {f : α → Preparation E PUnit} (todo : List α)
    (step : ∀ a ∈ todo, ∀ d', d'.network.Enclosed → d.network.nodeCount ≤ d'.network.nodeCount →
      Keeps kinds (f a) d' fun _ _ => True)
    (enclosed : d.network.Enclosed) : Keeps kinds (todo.forM f) d fun _ _ => True := by
  refine (ends_forM (fun rest (d' : Draft E) => rest ⊆ todo ∧ d'.network.Enclosed ∧
    d.network.nodeCount ≤ d'.network.nodeCount) ?_ todo d
    ⟨List.Subset.refl todo, enclosed, Nat.le_refl _⟩).mono ?_ fun _ _ => id
  · rintro a rest d' ⟨among, enclosed', le⟩
    refine Ends.mono (step a (among List.mem_cons_self) d' enclosed' le) ?_ fun _ _ => id
    rintro _ d'' ⟨enclosed'', le', _⟩
    exact ⟨List.subset_of_cons_subset among, enclosed'', Nat.le_trans le le'⟩
  · rintro _ d' ⟨_, enclosed', le⟩
    exact ⟨enclosed', le, trivial⟩

theorem keeps_negate (enclosed : d.network.Enclosed) (overflow : kinds .overflow) (v : Value) :
    Keeps kinds (negate v : Preparation E Value) d fun _ k => k = d.network := by
  unfold negate
  cases Value.neg? v with
  | none =>
    refine keeps_throw enclosed fun f same => ?_
    cases same
    exact overflow
  | some w => exact keeps_pure enclosed rfl

theorem keeps_nodeName (enclosed : d.network.Enclosed) {n : NodeId} (inside : n < d.network.nodeCount) :
    Keeps kinds (nodeName n : Preparation E String) d fun _ k => k = d.network := by
  unfold nodeName
  rw [keeps_network_bind]
  have present : d.network.node? n = some d.network.nodes[n] := Array.getElem?_eq_getElem inside
  rw [present]
  exact keeps_pure enclosed rfl

theorem keeps_ensureZ (enclosed : d.network.Enclosed) :
    Keeps kinds (ensureZ : Preparation E NodeId) d fun z k => k.z = some z := by
  unfold ensureZ
  rw [keeps_network_bind]
  split
  · rename_i z present
    have inside : z < d.network.nodeCount := by
      cases reference : d.network.z with
      | none =>
        rw [reference] at present
        exact Network.findNode?_lt present
      | some z' =>
        rw [reference] at present
        cases present
        exact enclosed.z z reference
    exact ⟨enclosed.setZ inside, Nat.le_refl _, rfl⟩
  · rename_i absent
    -- No node has the name "Z" then, so that one can be added.
    have unnamed : d.network.findNode? "Z" = none := by
      cases reference : d.network.z with
      | none => rwa [reference] at absent
      | some z => rw [reference] at absent; cases absent
    refine (keeps_noteFix enclosed _).bind ?_
    rintro _ d₁ - - same
    have added : ∃ h id, d.network.addNode (Node.named "Z") = some (h, id) := by
      unfold Network.addNode
      rw [if_neg (by simp [Node.named, unnamed])]
      exact ⟨_, _, rfl⟩
    obtain ⟨h, id, added⟩ := added
    obtain ⟨enclosed', count⟩ := enclosed.addNode added
    have made : ((d₁.network.addNode (Node.named "Z")).map Prod.fst).getD d₁.network = h := by
      rw [same, added]
      rfl
    have inside : d.network.nodeCount < h.nodeCount := count ▸ Nat.lt_succ_self _
    dsimp only
    rw [Keeps, ends_bind, ends_modifyNetwork, ends_bind, ends_modifyNetwork, ends_pure]
    dsimp only
    rw [made]
    exact ⟨enclosed'.setZ inside, by rw [same]; exact Nat.le_of_lt inside, rfl⟩

end Preparation

end TemporalNetwork
