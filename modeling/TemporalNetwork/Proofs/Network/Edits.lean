import TemporalNetwork.Proofs.Network.Representation

/-!
What edits can do to a network. An edit that is refused leaves it as it is, and the three that add an
edge store it in the same way, so what an edit keeps is shown for one outcome each, and what allowed
edits build is reached by induction on them.
-/

namespace TemporalNetwork

/-- What each step keeps, a run of steps without a fault keeps. -/
theorem foldlM_keeps {ε α β : Type} {f : α → β → Except ε α} {P : α → Prop} {bs : List β}
    (step : ∀ a, ∀ b ∈ bs, ∀ a', P a → f a b = .ok a' → P a') {a a' : α} (start : P a)
    (run : bs.foldlM f a = .ok a') : P a' := by
  induction bs generalizing a with
  | nil =>
    cases run
    exact start
  | cons b rest ih =>
    rw [List.foldlM_cons] at run
    cases done : f a b with
    | error fault =>
      rw [done] at run
      cases run
    | ok next =>
      rw [done] at run
      exact ih (fun a b mem => step a b (List.mem_cons_of_mem _ mem))
        (step a b List.mem_cons_self next start done) run

variable {E : Type} {g h : Network E}

/-- The payload of the edge that an edit may add. -/
def Edit.payload? : Edit E → Option E
  | addEdge _ payload _ _ => some payload
  | addEdgeBetween _ payload _ _ => some payload
  | edgeOrInsert _ _ payload => some payload
  | _ => none

variable [EdgePayload E]

/-- What an edit can make of the network `g`. -/
inductive Edit.Outcome (g : Network E) : Edit E → Network E → Prop where
  | refused (edit : Edit E) : Outcome g edit g
  | addNode {n : Node} {h : Network E} {id : NodeId} (added : g.addNode n = some (h, id)) :
    Outcome g (.addNode n) h
  | modifyNode (n : NodeId) (f : Node → Node) : Outcome g (.modifyNode n f) (g.modifyNode n f)
  | renameNode (n : NodeId) (name : String) :
    Outcome g (.renameNode n name) (g.modifyNode n fun node => { node with name := name })
  | removeNode {n : NodeId} {h : Network E} {removed : Node}
    (gone : g.removeNode n = some (h, removed)) : Outcome g (.removeNode n) h
  | insertEdge {edit : Edit E} {payload : E} (name : String) {source target : NodeId}
    (adds : edit.payload? = some payload) (source_lt : source < g.nodeCount)
    (target_lt : target < g.nodeCount) (unjoined : g.findEdge? source target = none) :
    Outcome g edit (g.insertEdge name payload source target).1
  | modifyEdge (e : EdgeId) (f : E → E) : Outcome g (.modifyEdge e f) (g.modifyEdge e f)
  | renameEdge (e : EdgeId) (name : String) : Outcome g (.renameEdge e name) (g.renameEdge e name).1
  | removeEdge (e : EdgeId) : Outcome g (.removeEdge e) (g.removeEdge e).1
  | reverse : Outcome g .reverse g.reverse
  | setZ (z : NodeId) : Outcome g (.setZ z) (g.setZ z)
  | setActivation (contingent activation : NodeId) :
    Outcome g (.setActivation contingent activation) (g.setActivation contingent activation)

namespace Edit

theorem outcome_addEdgeBetween {edit : Edit E} {payload : E} (adds : edit.payload? = some payload)
    (name : String) (source target : NodeId) :
    Outcome g edit ((g.addEdgeBetween name payload source target).elim g Prod.fst) := by
  unfold Network.addEdgeBetween
  split
  · exact .refused edit
  · rename_i accepted
    simp only [not_or, Nat.not_le, Option.not_isSome_iff_eq_none] at accepted
    exact .insertEdge name adds accepted.1 accepted.2.1 accepted.2.2.2

theorem outcome_of_apply {edit : Edit E} (done : edit.apply g = .ok h) : Outcome g edit h := by
  cases edit with
  | addNode n =>
    cases done
    cases added : g.addNode n with
    | none => exact .refused _
    | some result => exact .addNode added
  | modifyNode n f =>
    cases done
    exact .modifyNode n f
  | renameNode n name =>
    obtain ⟨result, renamed, rfl⟩ := of_map_eq_ok done
    unfold Network.renameNode at renamed
    split at renamed
    · cases renamed
      exact .refused _
    · split at renamed <;> cases renamed
      exact .renameNode n name
  | removeNode n =>
    cases done
    cases gone : g.removeNode n with
    | none => exact .refused _
    | some result => exact .removeNode gone
  | addEdge name payload source target =>
    cases done
    unfold Network.addEdge
    cases g.findNode? source with
    | none => exact .refused _
    | some u =>
      cases g.findNode? target with
      | none => exact .refused _
      | some v => exact outcome_addEdgeBetween rfl name u v
  | addEdgeBetween name payload source target =>
    cases done
    exact outcome_addEdgeBetween rfl name source target
  | edgeOrInsert source target payload =>
    cases first : g.node source with
    | error fault =>
      rw [apply, first] at done
      cases done
    | ok a =>
      cases second : g.node target with
      | error fault =>
        rw [apply, first, second] at done
        cases done
      | ok b =>
        rw [apply, first, second] at done
        cases done
        unfold Network.edgeOrInsert
        split
        · exact .refused _
        · rename_i unjoined
          exact .insertEdge _ rfl (Network.lt_of_node_eq_ok first) (Network.lt_of_node_eq_ok second) unjoined
  | modifyEdge e f =>
    cases done
    exact .modifyEdge e f
  | renameEdge e name =>
    cases done
    exact .renameEdge e name
  | removeEdge e =>
    cases done
    exact .removeEdge e
  | reverse =>
    cases done
    exact .reverse
  | setZ z =>
    cases done
    exact .setZ z
  | setActivation contingent activation =>
    cases done
    exact .setActivation contingent activation

end Edit

theorem Network.WellFormed.removeNode (wf : g.WellFormed) {n : NodeId} {removed : Node}
    (gone : g.removeNode n = some (h, removed)) : h.WellFormed := by
  rw [Network.removeNode_eq] at gone
  obtain ⟨node, present, same⟩ := Option.map_eq_some_iff.mp gone
  cases same
  have inside := Network.lt_of_node? present
  have count : (g.removeEdges (g.incident n)).nodeCount = g.nodeCount :=
    congrArg Array.size (Network.sameNodes_removeEdges (g.incident n) g).nodes
  exact (wf.removeEdges (g.incident n)).dropNode (wf.isolated inside) (count ▸ inside)

theorem Network.WellFormed.apply (wf : g.WellFormed) {edit : Edit E} (done : edit.apply g = .ok h) :
    h.WellFormed := by
  cases Edit.outcome_of_apply done with
  | refused => exact wf
  | addNode added => exact wf.addNode added
  | modifyNode n f => exact wf.modifyNode n f
  | renameNode n name => exact wf.modifyNode n _
  | removeNode gone => exact wf.removeNode gone
  | insertEdge name _ source_lt target_lt unjoined =>
    exact wf.insertEdge name _ source_lt target_lt unjoined
  | modifyEdge e f => exact wf.modifyEdge e f
  | renameEdge e name =>
    cases taken : g.findEdgeByName? name with
    | none => exact wf.renameEdge taken
    | some present =>
      rw [Network.renameEdge, taken]
      exact wf
  | removeEdge e => exact wf.removeEdge e
  | reverse => exact wf.reverse
  | setZ z => exact wf.setZ z
  | setActivation contingent activation => exact wf.setActivation contingent activation

namespace IndexedNetwork

/-- The networks that edits build of which each is allowed where it is performed. -/
inductive BuiltWith (allowed : Network E → Edit E → Prop) :
    List (Edit E) → IndexedNetwork E → Prop where
  | empty : BuiltWith allowed [] .empty
  | edit {edits : List (Edit E)} {m m' : IndexedNetwork E} (edit : Edit E)
      (before : BuiltWith allowed edits m) (admissible : edit.Admissible m.network)
      (permitted : allowed m.network edit) (performed : edit.perform m = .ok m') :
      BuiltWith allowed (edits ++ [edit]) m'

variable {allowed : Network E → Edit E → Prop} {edits : List (Edit E)} {m : IndexedNetwork E}

theorem BuiltWith.built (built : BuiltWith allowed edits m) : Built edits m := by
  induction built with
  | empty => exact .empty
  | edit edit _ admissible _ performed ih => exact ih.edit edit admissible performed

/-- What allowed edits keep of a network in which tables and slots agree holds of what they build. -/
theorem BuiltWith.invariant {P : Network E → Prop} (built : BuiltWith allowed edits m)
    (start : P .empty)
    (step : ∀ g h edit, g.WellFormed → P g → allowed g edit → edit.apply g = .ok h → P h) :
    P m.network := by
  induction built with
  | empty => exact start
  | edit edit before admissible permitted performed ih =>
    have faithful := before.built.faithful.1
    have done := faithful.perform_network edit
    rw [performed] at done
    exact step _ _ edit faithful.wellFormed ih permitted done.symm

end IndexedNetwork

end TemporalNetwork
