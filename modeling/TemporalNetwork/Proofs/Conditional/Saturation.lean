import TemporalNetwork.Proofs.Conditional.Application

/-!
Saturation: when the propagation ends with a fixpoint, no application of a rule changes the network.
The loop only looks again at edges that have changed. The invariant says that an application which is
not settled is due in the current step, or reads an edge that is still to be looked at.
-/

namespace TemporalNetwork

namespace Worklist

variable {w : Worklist} {d e : EdgeId}

/-- Every edge that is marked as noted is in the list. -/
def Faithful (w : Worklist) : Prop := ∀ e, w.contains e = true → e ∈ w.toList

theorem faithful_empty : empty.Faithful := fun e noted => by simp at noted

theorem Faithful.mem_insert (faithful : w.Faithful) :
    e ∈ (w.insert d).toList ↔ e ∈ w.toList ∨ e = d := by
  rw [toList_insert]
  split
  · rename_i noted
    constructor
    · exact Or.inl
    · rintro (mem | rfl)
      · exact mem
      · exact faithful e noted
  · simp

theorem Faithful.insert (faithful : w.Faithful) (d : EdgeId) : (w.insert d).Faithful := by
  intro e noted
  rw [contains_insert, Bool.or_eq_true, decide_eq_true_eq] at noted
  rw [faithful.mem_insert]
  exact noted.imp (faithful e) Eq.symm

end Worklist

/-- Whether the application belongs to the first half of a pass. -/
def Application.isObservation : Application → Bool
  | r0 .. => true
  | r3 .. => true
  | _ => false

namespace Propagation

section Invariant

/-- What the applications keep in the networks that `start` grows to: `I` of the network, `E` of the
reason for which the propagation stops. -/
structure Performs (ctx : RuleContext) (start : LabeledNetwork) (I : LabeledNetwork → Prop)
    (E : Halt → Prop) : Prop where
  perform : ∀ (a : Application) (p : Progress), a.Possible ctx → p.network.WellFormed →
    start.Grows p.network → I p.network →
    Ends (a.perform ctx) p (fun _ q => I q.network) (fun halt _ => E halt)

/-- What a propagation from `start` keeps: `I` of the network as long as it runs, `E` of the reason
for which it stops. -/
structure Keeps (ctx : RuleContext) (start : LabeledNetwork) (I : LabeledNetwork → Prop)
    (E : Halt → Prop) : Prop extends Performs ctx start I E where
  timeout : E .timeout
  cycleBoundExceeded : E .cycleBoundExceeded

/-- The network `k` has come about on the way from `start` to `g`. -/
structure Between (I : LabeledNetwork → Prop) (start k g : LabeledNetwork) : Prop where
  after : start.Grows k
  wellFormed : k.WellFormed
  holds : I k
  before : k.Grows g

/-- The application has been made on the way from `start` to `g`: all that it derived then is covered,
and only noted edges have changed since. -/
def Made (ctx : RuleContext) (I : LabeledNetwork → Prop) (start : LabeledNetwork)
    (noted : EdgeId → Prop) (a : Application) (g : LabeledNetwork) : Prop :=
  ∃ k, Between I start k g ∧ (∀ d ∈ a.derivations ctx k, d.SettledAt g a.source a.target) ∧
    ∀ u v, g.edgeBetween? u v = k.edgeBetween? u v ∨ ∃ e, g.findEdge? u v = some e ∧ noted e

/-- An application has added something on the way from `start` to `g`. -/
def Advanced (ctx : RuleContext) (I : LabeledNetwork → Prop) (start g : LabeledNetwork) : Prop :=
  ∃ (k : LabeledNetwork) (a : Application), Between I start k g ∧ a.Possible ctx ∧
    ∃ d ∈ a.derivations ctx k, ¬ d.SettledAt k a.source a.target ∧ d.SettledAt g a.source a.target

/-- The state within a pass that has begun with the network `start`. An application that has not been
made in it is `due`, or it reads an edge which its half of the pass has not come to yet. -/
structure Running (ctx : RuleContext) (start : LabeledNetwork) (I : LabeledNetwork → Prop)
    (observe combine : List EdgeId) (noted : EdgeId → Prop) (due : Application → Prop)
    (p : Progress) : Prop where
  wellFormed : p.network.WellFormed
  grows : start.Grows p.network
  holds : I p.network
  advanced : ∀ e, noted e → Advanced ctx I start p.network
  covered : ∀ a, a.Relevant ctx → due a ∨ Made ctx I start noted a p.network ∨
    ∃ u v e, a.Reads start u v ∧ p.network.findEdge? u v = some e ∧
      e ∈ if a.isObservation then observe else combine

variable {ctx : RuleContext} {start g h : LabeledNetwork} {I : LabeledNetwork → Prop} {E : Halt → Prop}
  {observe combine : List EdgeId} {noted : EdgeId → Prop} {due : Application → Prop}
  {a : Application} {p : Progress}

theorem Performs.rebase (keeps : Performs ctx start I E) (grows : start.Grows g) :
    Performs ctx g I E where
  perform a p possible wf grows' holds := keeps.perform a p possible wf (grows.trans grows') holds

theorem Between.grows {k : LabeledNetwork} (between : Between I start k g) (grows : g.Grows h) :
    Between I start k h :=
  ⟨between.after, between.wellFormed, between.holds, between.before.trans grows⟩

theorem Advanced.grows (advanced : Advanced ctx I start g) (grows : g.Grows h) :
    Advanced ctx I start h := by
  obtain ⟨k, a, between, possible, d, mem, unsettled, settled⟩ := advanced
  exact ⟨k, a, between.grows grows, possible, d, mem, unsettled, settled.grows grows⟩

theorem Made.mono {noted' : EdgeId → Prop} (made : Made ctx I start noted a g)
    (more : ∀ e, noted e → noted' e) : Made ctx I start noted' a g := by
  obtain ⟨k, between, settled, unchanged⟩ := made
  exact ⟨k, between, settled, fun u v => (unchanged u v).imp_right
    fun ⟨e, found, isNoted⟩ => ⟨e, found, more e isNoted⟩⟩

/-- An application that has been made is settled, or it reads an edge that is noted. -/
theorem Made.settled_or_reads (made : Made ctx I start noted a g) (wf : g.WellFormed) :
    a.Settled ctx g ∨ ∃ u v e, a.Reads start u v ∧ g.findEdge? u v = some e ∧ noted e := by
  obtain ⟨k, between, settled, unchanged⟩ := made
  by_cases reads : ∃ u v e, a.Reads start u v ∧ g.findEdge? u v = some e ∧ noted e
  · exact Or.inr reads
  · refine Or.inl fun d mem => settled d ?_
    refine Application.mem_derivations_congr between.wellFormed wf between.before.nodes
      (fun u v readsUV => ?_) mem
    rw [Application.Reads.congr between.after.nodeD] at readsUV
    refine (unchanged u v).resolve_right ?_
    rintro ⟨e, found, isNoted⟩
    exact reads ⟨u, v, e, readsUV, found, isNoted⟩

theorem Running.made_of_settled (run : Running ctx start I observe combine noted due p)
    (settled : a.Settled ctx p.network) : Made ctx I start noted a p.network :=
  ⟨p.network, ⟨run.grows, run.wellFormed, run.holds, .refl _⟩, settled, fun _ _ => Or.inl rfl⟩

theorem Running.mono (noted' : EdgeId → Prop) (due' : Application → Prop)
    (run : Running ctx start I observe combine noted due p) (same : ∀ e, noted e ↔ noted' e)
    (fewer : ∀ a, a.Relevant ctx → due a → due' a ∨ a.Settled ctx p.network) :
    Running ctx start I observe combine noted' due' p where
  wellFormed := run.wellFormed
  grows := run.grows
  holds := run.holds
  advanced e isNoted := run.advanced e ((same e).mpr isNoted)
  covered a relevant := by
    rcases run.covered a relevant with isDue | made | reads
    · exact (fewer a relevant isDue).imp_right fun settled =>
        Or.inl ((run.made_of_settled settled).mono fun e => (same e).mp)
    · exact Or.inr (Or.inl (made.mono fun e => (same e).mp))
    · exact Or.inr (Or.inr reads)

/-- Performing an application: it has been made then, and the edge that it has changed is noted. -/
theorem Running.perform (keeps : Performs ctx start I E)
    (run : Running ctx start I observe combine noted due p) (a : Application)
    (possible : a.Possible ctx) :
    Ends (a.perform ctx) p
      (fun changed q => p.network.Grows q.network ∧
        Running ctx start I observe combine
          (fun e => noted e ∨ changed = true ∧ q.network.findEdge? a.source a.target = some e)
          (fun b => due b ∧ b ≠ a) q)
      (fun halt _ => E halt) := by
  have ends := ((a.perform_ends ctx p run.wellFormed).and (a.perform_changed ctx p run.wellFormed)).and
    (keeps.perform a p possible run.wellFormed run.grows run.holds)
  refine ends.mono ?_ fun halt _ stops => stops.2
  rintro changed q ⟨⟨⟨grows, settled, same⟩, unsettled⟩, holds⟩
  -- An edge that stays as it is until now stays so, or it is noted.
  have unchanged : ∀ u v, q.network.edgeBetween? u v = p.network.edgeBetween? u v ∨
      ∃ e, q.network.findEdge? u v = some e ∧
        (noted e ∨ changed = true ∧ q.network.findEdge? a.source a.target = some e) := by
    intro u v
    by_cases here : a.source = u ∧ a.target = v
    · obtain ⟨rfl, rfl⟩ := here
      cases found : q.network.findEdge? a.source a.target with
      | none =>
        have before : p.network.findEdge? a.source a.target = none := by
          by_contra joined
          obtain ⟨e, present⟩ := Option.ne_none_iff_exists'.mp joined
          rw [grows.found _ _ e present] at found
          cases found
        rw [Network.edgeBetween?, found, Network.edgeBetween?, before]
        exact Or.inl rfl
      | some e =>
        cases changed with
        | false => exact Or.inl (by rw [same rfl])
        | true => exact Or.inr ⟨e, rfl, Or.inr ⟨rfl, rfl⟩⟩
    · exact Or.inl (grows.elsewhere u v here)
  refine ⟨grows.toGrows, grows.wellFormed, run.grows.trans grows.toGrows, holds, ?_, ?_⟩
  · rintro e (isNoted | ⟨isChanged, _⟩)
    · exact (run.advanced e isNoted).grows grows.toGrows
    · have open_ := unsettled isChanged
      unfold Application.Settled at open_
      push Not at open_
      obtain ⟨d, mem, notSettled⟩ := open_
      exact ⟨p.network, a, ⟨run.grows, run.wellFormed, run.holds, grows.toGrows⟩, possible, d, mem,
        notSettled, settled d mem⟩
  · intro b relevant
    rcases run.covered b relevant with isDue | ⟨k, between, covered, unchanged'⟩ |
        ⟨u, v, e, reads, found, waits⟩
    · by_cases this : b = a
      · subst this
        exact Or.inr (Or.inl ⟨p.network, ⟨run.grows, run.wellFormed, run.holds, grows.toGrows⟩, settled,
          unchanged⟩)
      · exact Or.inl ⟨isDue, this⟩
    · refine Or.inr (Or.inl ⟨k, between.grows grows.toGrows,
        fun d mem => (covered d mem).grows grows.toGrows, fun u v => ?_⟩)
      rcases unchanged u v with stays | isNoted
      · rcases unchanged' u v with stays' | ⟨e, found, isNoted⟩
        · exact Or.inl (stays.trans stays')
        · exact Or.inr ⟨e, grows.found _ _ e found, Or.inl isNoted⟩
      · exact Or.inr isNoted
    · exact Or.inr (Or.inr ⟨u, v, e, reads, grows.found _ _ e found, waits⟩)

/-- Performing an application and noting the edge that has changed. -/
def visit (ctx : RuleContext) (next : Worklist) (a : Application) : Propagation Worklist := do
  noteIf (← a.perform ctx) a.source a.target next

theorem noteIf_run (changed : Bool) (u v : NodeId) (next : Worklist) (p : Progress) :
    (noteIf changed u v next).run p =
      .ok (if changed then ((p.network.findEdge? u v).map next.insert).getD next else next) p := by
  cases changed with
  | false => rfl
  | true =>
    simp only [noteIf, if_true, run_get_bind]
    cases p.network.findEdge? u v <;> rfl

/-- A state within a pass together with the worklist of the next one. -/
structure Collecting (ctx : RuleContext) (start : LabeledNetwork) (I : LabeledNetwork → Prop)
    (observe combine : List EdgeId) (due : Application → Prop) (next : Worklist) (p : Progress) :
    Prop where
  faithful : next.Faithful
  running : Running ctx start I observe combine (· ∈ next.toList) due p

theorem Collecting.visit (keeps : Performs ctx start I E) {next : Worklist}
    (run : Collecting ctx start I observe combine due next p) (a : Application)
    (possible : a.Possible ctx) :
    Ends (visit ctx next a) p
      (fun next' q => p.network.Grows q.network ∧
        Collecting ctx start I observe combine (fun b => due b ∧ b ≠ a) next' q)
      (fun halt _ => E halt) := by
  refine (run.running.perform keeps a possible).bind ?_
  rintro changed q ⟨grows, running⟩
  unfold Ends
  rw [noteIf_run]
  refine ⟨grows, ?_⟩
  cases changed with
  | false => exact ⟨run.faithful, running.mono _ _ (fun e => by simp) fun _ _ => Or.inl⟩
  | true =>
    cases found : q.network.findEdge? a.source a.target with
    | none =>
      exact ⟨run.faithful, running.mono _ _ (fun e => by simp [found]) fun _ _ => Or.inl⟩
    | some d =>
      refine ⟨run.faithful.insert d, running.mono _ _ (fun e => ?_) fun _ _ => Or.inl⟩
      simp only [Option.map_some, Option.getD_some, if_true]
      rw [run.faithful.mem_insert]
      simp [found, eq_comm]

/-- After the applications `f n` have been performed, only those are due that were due before and
are neither among them nor settled already. -/
theorem Collecting.visitAll (keeps : Performs ctx start I E) (f : NodeId → Application)
    (ns : List NodeId) (due' : Application → Prop) {next : Worklist}
    (possible : ∀ n ∈ ns, (f n).Possible ctx)
    (run : Collecting ctx start I observe combine due next p)
    (others : ∀ a, a.Relevant ctx → due a →
      (∃ n ∈ ns, a = f n) ∨ due' a ∨ a.Settled ctx p.network) :
    Ends (ns.foldlM (fun next n => Propagation.visit ctx next (f n)) next) p
      (fun next' q => p.network.Grows q.network ∧
        Collecting ctx start I observe combine due' next' q) (fun halt _ => E halt) := by
  have shrunk : Collecting ctx start I observe combine
      (fun a => (∃ n ∈ ns, a = f n) ∨ due' a) next p :=
    ⟨run.faithful, run.running.mono _ _ (fun _ => Iff.rfl) fun a relevant isDue =>
      or_assoc.mpr (others a relevant isDue)⟩
  clear others run
  induction ns generalizing next p with
  | nil =>
    refine ⟨.refl _, shrunk.faithful, shrunk.running.mono _ _ (fun _ => Iff.rfl) fun a _ isDue =>
      Or.inl (isDue.resolve_left ?_)⟩
    rintro ⟨_, mem, _⟩
    cases mem
  | cons n rest ih =>
    rw [List.foldlM_cons]
    refine (shrunk.visit keeps (f n) (possible n List.mem_cons_self)).bind fun next' q step => ?_
    obtain ⟨grows, visited⟩ := step
    refine (ih (fun m mem => possible m (List.mem_cons_of_mem _ mem)) ?_).mono
      (fun _ r done => ⟨grows.trans done.1, done.2⟩) fun _ _ => id
    refine ⟨visited.faithful, visited.running.mono _ _ (fun _ => Iff.rfl) fun a _ isDue => Or.inl ?_⟩
    rcases isDue.1 with ⟨m, mem, rfl⟩ | isDue'
    · rcases List.mem_cons.mp mem with rfl | mem
      · exact absurd rfl isDue.2
      · exact Or.inl ⟨m, mem, rfl⟩
    · exact Or.inr isDue'

/-- Once the pass comes to an edge, the applications of its half that read the edge are due. -/
theorem Running.take (half : Bool) {e : EdgeId} {u v : NodeId} {todo other : List EdgeId}
    (run : Running ctx start I (if half then e :: todo else other)
      (if half then other else e :: todo) noted (fun _ => False) p)
    (found : p.network.findEdge? u v = some e) :
    Running ctx start I (if half then todo else other) (if half then other else todo) noted
      (fun a => a.isObservation = half ∧ a.Reads start u v) p where
  wellFormed := run.wellFormed
  grows := run.grows
  holds := run.holds
  advanced := run.advanced
  covered a relevant := by
    rcases run.covered a relevant with isDue | made | ⟨s, t, d, reads, listed, waits⟩
    · exact isDue.elim
    · exact Or.inr (Or.inl made)
    · by_cases here : d = e
      · subst here
        obtain ⟨rfl, rfl⟩ := run.wellFormed.ends_unique found listed
        by_cases mine : a.isObservation = half
        · exact Or.inl ⟨mine, reads⟩
        · refine Or.inr (Or.inr ⟨u, v, d, reads, listed, ?_⟩)
          cases half <;> simp_all
      · refine Or.inr (Or.inr ⟨s, t, d, reads, listed, ?_⟩)
        cases half <;> cases kind : a.isObservation <;> simp_all

theorem Running.skip (half : Bool) {e : EdgeId} {todo other : List EdgeId}
    (run : Running ctx start I (if half then e :: todo else other)
      (if half then other else e :: todo) noted due p)
    (gone : p.network.slot? e = none) :
    Running ctx start I (if half then todo else other) (if half then other else todo) noted
      due p where
  wellFormed := run.wellFormed
  grows := run.grows
  holds := run.holds
  advanced := run.advanced
  covered a relevant := by
    rcases run.covered a relevant with isDue | made | ⟨u, v, d, reads, listed, waits⟩
    · exact Or.inl isDue
    · exact Or.inr (Or.inl made)
    · have apart : d ≠ e := by
        rintro rfl
        obtain ⟨slot, stored, _⟩ := (run.wellFormed.listed u v d).mp listed
        rw [gone] at stored
        cases stored
      refine Or.inr (Or.inr ⟨u, v, d, reads, listed, ?_⟩)
      cases half <;> cases kind : a.isObservation <;> simp_all

theorem settled_of_nil {g : LabeledNetwork} {a : Application}
    (nothing : a.derivations ctx g = []) : a.Settled ctx g := by
  intro d mem
  rw [nothing] at mem
  cases mem

theorem r0_of_unjoined {g : LabeledNetwork} {observer target : NodeId}
    (unjoined : g.edgeBetween? observer target = none) : ctx.r0 g observer target = [] := by
  unfold RuleContext.r0
  rw [unjoined]
  split
  · rfl
  · split <;> simp_all

theorem letterRemoval_of_unjoined {g : LabeledNetwork} {x activation : NodeId}
    (unjoined : g.edgeBetween? x activation = none) : ctx.letterRemoval g x activation = [] := by
  unfold RuleContext.letterRemoval
  rw [unjoined]
  split <;> rfl

theorem r3_of_unjoined {g : LabeledNetwork} {source target : NodeId}
    (unjoined : g.edgeBetween? source target = none) : ctx.r3 g source target = [] := by
  unfold RuleContext.r3
  rw [unjoined]
  split <;> rfl

/-- What is due of the first half for the edge from `s` to `t` when R0 and R3 have been applied to the edge
itself: an observation is still to be compared with the other edges into `t`. -/
def Beside (start : LabeledNetwork) (s t : NodeId) (a : Application) : Prop :=
  ∃ other, a = .r3 other t ∧ other ≠ s ∧ s ≠ t ∧ (start.nodeD s).isObserver = true

theorem beside_of_reads {s t : NodeId}
    (open_ : ((a.isObservation = true ∧ a.Reads start s t) ∧ a ≠ .r0 s t) ∧ a ≠ .r3 s t) :
    Beside start s t a := by
  obtain ⟨⟨⟨kind, reads⟩, notR0⟩, notR3⟩ := open_
  cases a with
  | r0 observer target =>
    obtain ⟨rfl, rfl⟩ := reads
    exact absurd rfl notR0
  | r3 source target =>
    obtain ⟨rfl, rfl | ⟨apart, apart', observer⟩⟩ := reads
    · exact absurd rfl notR3
    · exact ⟨source, rfl, Ne.symm apart, apart', observer⟩
  | labelPropagation => cases kind
  | crossLowerCase => cases kind
  | letterRemoval => cases kind

theorem Collecting.observeBeside (keeps : Performs ctx start I E) {s t : NodeId} {e : EdgeId}
    {next : Worklist} (run : Collecting ctx start I observe combine (Beside start s t) next p)
    (found : p.network.findEdge? s t = some e) :
    Ends (if (p.network.nodeD s).isObserver then
        ((p.network.inEdges t).filterMap fun i => if i.1 = s then none else some i.1).foldlM
          (fun next u => Propagation.visit ctx next (.r3 u t)) next
      else pure next) p
      (Collecting ctx start I observe combine (fun _ => False)) (fun halt _ => E halt) := by
  have wf := run.running.wellFormed
  by_cases observer : (p.network.nodeD s).isObserver = true
  · rw [if_pos observer]
    refine (run.visitAll keeps (Application.r3 · t) _ (fun _ => False)
      (fun _ _ => trivial) ?_).mono (fun _ _ done => done.2) fun _ _ => id
    -- The nodes without an edge into `t` have nothing to combine with the observation.
    rintro a _ ⟨other, rfl, apart, _⟩
    cases joined : p.network.edgeBetween? other t with
    | none => exact Or.inr (Or.inr (settled_of_nil (r3_of_unjoined joined)))
    | some edge =>
      refine Or.inl ⟨other, ?_, rfl⟩
      have listed := (wf.mem_predecessors (wf.lt_of_findEdge? found).2).mpr
        (Option.isSome_iff_exists.mpr ⟨edge, joined⟩)
      obtain ⟨i, mem, rfl⟩ := List.mem_map.mp listed
      exact List.mem_filterMap.mpr ⟨i, mem, by simp [apart]⟩
  · rw [if_neg observer]
    rw [run.running.grows.nodeD s] at observer
    refine ⟨run.faithful, run.running.mono _ _ (fun _ => Iff.rfl) fun a _ isDue => ?_⟩
    obtain ⟨_, _, _, _, isObserver⟩ := isDue
    exact absurd isObserver observer

/-- The first half of a pass: the edge itself, and for an observation the edges beside it. -/
theorem Collecting.observeEdge (keeps : Performs ctx start I E) {e : EdgeId} {todo : List EdgeId}
    {next : Worklist}
    (run : Collecting ctx start I (e :: todo) combine (fun _ => False) next p) :
    Ends (observeEdge ctx next e) p (Collecting ctx start I todo combine (fun _ => False))
      (fun halt _ => E halt) := by
  unfold Propagation.observeEdge
  rw [ends_bind, ends_get]
  cases stored : p.network.slot? e with
  | none => exact ⟨run.faithful, Running.skip true run.running stored⟩
  | some slot =>
    obtain ⟨name, s, t, payload⟩ := slot
    have found : p.network.findEdge? s t = some e := run.running.wellFormed.findEdge?_of_slot stored
    have taken := Running.take true run.running found
    refine (taken.perform keeps (.r0 s t) trivial).bind ?_
    rintro first q ⟨grows, afterFirst⟩
    have found' := grows.found _ _ _ found
    refine (afterFirst.perform keeps (.r3 s t) trivial).bind ?_
    rintro second r ⟨grows', afterSecond⟩
    have found'' := grows'.found _ _ _ found'
    -- The worklist takes the edge in exactly if one of the two rules changed it.
    have collecting : Collecting ctx start I todo combine (Beside start s t)
        (if first || second then next.insert e else next) r := by
      refine ⟨?_, afterSecond.mono _ _ (fun d => ?_) fun a _ isDue => Or.inl (beside_of_reads isDue)⟩
      · split
        · exact run.faithful.insert e
        · exact run.faithful
      · simp only [Application.source, Application.target, found', found'', Option.some.injEq]
        split
        · rename_i some
          rw [Bool.or_eq_true] at some
          rw [run.faithful.mem_insert, eq_comm (b := d)]
          tauto
        · rename_i none
          rw [Bool.or_eq_true, not_or] at none
          tauto
    rw [ends_bind, ends_get]
    exact collecting.observeBeside keeps found''

theorem labelPropagation_of_unjoined {g : LabeledNetwork} {x y w : NodeId}
    (unjoined : g.edgeBetween? x y = none ∨ g.edgeBetween? y w = none) :
    ctx.labelPropagation g x y w = [] := by
  unfold RuleContext.labelPropagation
  split
  · rfl
  · split
    · rename_i first second
      rcases unjoined with unjoined | unjoined <;> simp_all
    · rfl

theorem crossLowerCase_of_unjoined {g : LabeledNetwork} {activation contingent w : NodeId}
    (unjoined : (g.edgeBetween? activation contingent).bind LabeledEdge.lower = none ∨
      g.edgeBetween? contingent w = none) : ctx.crossLowerCase g activation contingent w = [] := by
  unfold RuleContext.crossLowerCase
  split
  · rfl
  · split
    · rename_i first second
      rcases unjoined with unjoined | unjoined <;> simp_all
    · rfl

theorem letterRemoval_of_no_links {g : LabeledNetwork} {x activation : NodeId}
    (none : ctx.links = []) : ctx.letterRemoval g x activation = [] := by
  unfold RuleContext.letterRemoval RuleContext.linksActivatedBy
  rw [none]
  split
  · rfl
  · split <;> rfl

/-- No two links of a context end in the same node but start in different ones. -/
def LinksFunctional (ctx : RuleContext) : Prop :=
  ∀ link ∈ ctx.links, ∀ link' ∈ ctx.links, link.contingent = link'.contingent →
    link.activation = link'.activation

theorem linksFunctional_of_no_links (none : ctx.links = []) : LinksFunctional ctx := by
  intro _ mem
  rw [none] at mem
  cases mem

/-- The link found for a contingent node is the one its activation node belongs to. -/
theorem linkOf?_eq (functional : LinksFunctional ctx) {link : ContingentLink}
    (mem : link ∈ ctx.links) :
    ∃ found, ctx.linkOf? link.contingent = some found ∧ found.activation = link.activation := by
  have exists_link : (ctx.linkOf? link.contingent).isSome = true :=
    List.find?_isSome.mpr ⟨link, mem, beq_self_eq_true _⟩
  obtain ⟨found, h⟩ := Option.isSome_iff_exists.mp exists_link
  have ends := List.find?_some h
  rw [beq_iff_eq] at ends
  exact ⟨found, h, functional found (List.mem_of_find?_eq_some h) link mem ends⟩

theorem Collecting.removeLetters (keeps : Performs ctx start I E) {a b : NodeId} {e : EdgeId}
    {next : Worklist}
    (run : Collecting ctx start I observe combine (fun c => c = .letterRemoval a b) next p)
    (found : p.network.findEdge? a b = some e) :
    Ends (do
      let removed ← applyLetterRemoval ctx a b
      return if removed then next.insert e else next) p
      (Collecting ctx start I observe combine (fun _ => False)) (fun halt _ => E halt) := by
  refine (run.running.perform keeps (.letterRemoval a b) trivial).bind ?_
  rintro removed q ⟨grows, running⟩
  have found' : q.network.findEdge? a b = some e := grows.found _ _ _ found
  have noted := running.mono (· ∈ (if removed then next.insert e else next).toList)
    (fun _ => False) (fun d => ?_) fun c _ isDue => absurd isDue.1 isDue.2
  · refine ⟨?_, noted⟩
    split
    · exact run.faithful.insert e
    · exact run.faithful
  · simp only [Application.source, Application.target, found', Option.some.injEq]
    split
    · rw [run.faithful.mem_insert, eq_comm (b := d)]
      tauto
    · tauto

section Combining

variable {a b : NodeId} {e : EdgeId} {next : Worklist} {successors : List NodeId}

/-- An application that ends with the edge from `a` to `b`, or that takes letters off its values. -/
def EndsIn (a b : NodeId) (c : Application) : Prop :=
  (∃ x, c = .crossLowerCase x a b) ∨ c = .letterRemoval a b

/-- Or one that crosses the edge and goes on to a successor. -/
def Crosses (a b : NodeId) (successors : List NodeId) (c : Application) : Prop :=
  (∃ w ∈ successors, c = .crossLowerCase a b w) ∨ EndsIn a b c

theorem edgeBetween?_eq_none_of_not_mem {g : LabeledNetwork} (wf : g.WellFormed)
    (inside : b < g.nodeCount) {w : NodeId} (absent : w ∉ (g.outEdges b).map Prod.fst) :
    g.edgeBetween? b w = none := by
  rw [wf.mem_successors inside] at absent
  simpa using absent

/-- The triangles that begin with the edge. -/
theorem Collecting.leave (keeps : Performs ctx start I E)
    (run : Collecting ctx start I observe combine
      (fun c => c.isObservation = false ∧ c.Reads start a b) next p)
    (found : p.network.findEdge? a b = some e)
    (listed : successors = (p.network.outEdges b).map Prod.fst) :
    Ends ((if ctx.onlyToZ then successors.filter fun w => w == ctx.z else successors).foldlM
        (fun next w => Propagation.visit ctx next (.labelPropagation a b w)) next) p
      (fun next' q => p.network.Grows q.network ∧ Collecting ctx start I observe combine
        (fun c => (∃ x, c = .labelPropagation x a b) ∨ Crosses a b successors c) next' q)
      (fun halt _ => E halt) := by
  have wf := run.running.wellFormed
  have inside := (wf.lt_of_findEdge? found).2
  refine run.visitAll keeps (Application.labelPropagation a b ·) _ _ ?_ ?_
  · intro w mem toZ
    rw [if_pos toZ] at mem
    simpa using (List.mem_filter.mp mem).2
  · rintro c relevant ⟨kind, reads⟩
    -- The rules that read the edge first are visited now; what remains is left for the next steps.
    cases c with
    | r0 => cases kind
    | r3 => cases kind
    | labelPropagation x y w =>
      rcases reads with ⟨rfl, rfl⟩ | ⟨rfl, rfl⟩
      · by_cases joined : w ∈ successors
        · refine Or.inl ⟨w, ?_, rfl⟩
          split
          · rename_i toZ
            exact List.mem_filter.mpr ⟨joined, by simp [relevant toZ]⟩
          · exact joined
        · rw [listed] at joined
          exact Or.inr (Or.inr (settled_of_nil (labelPropagation_of_unjoined
            (Or.inr (edgeBetween?_eq_none_of_not_mem wf inside joined)))))
      · exact Or.inr (Or.inl (Or.inl ⟨x, rfl⟩))
    | crossLowerCase x y w =>
      rcases reads with ⟨rfl, rfl⟩ | ⟨rfl, rfl⟩
      · by_cases joined : w ∈ successors
        · exact Or.inr (Or.inl (Or.inr (Or.inl ⟨w, joined, rfl⟩)))
        · rw [listed] at joined
          exact Or.inr (Or.inr (settled_of_nil (crossLowerCase_of_unjoined
            (Or.inr (edgeBetween?_eq_none_of_not_mem wf inside joined)))))
      · exact Or.inr (Or.inl (Or.inr (Or.inr (Or.inl ⟨x, rfl⟩))))
    | letterRemoval x y =>
      obtain ⟨rfl, rfl⟩ := reads
      exact Or.inr (Or.inl (Or.inr (Or.inr (Or.inr rfl))))

/-- The triangles that end with the edge. -/
theorem Collecting.enter (keeps : Performs ctx start I E)
    (run : Collecting ctx start I observe combine
      (fun c => (∃ x, c = .labelPropagation x a b) ∨ Crosses a b successors c) next p)
    (found : p.network.findEdge? a b = some e) :
    Ends ((if !ctx.onlyToZ ∨ b = ctx.z then (p.network.inEdges a).map Prod.fst else []).foldlM
        (fun next x => Propagation.visit ctx next (.labelPropagation x a b)) next) p
      (fun next' q => p.network.Grows q.network ∧
        Collecting ctx start I observe combine (Crosses a b successors) next' q)
      (fun halt _ => E halt) := by
  have wf := run.running.wellFormed
  refine run.visitAll keeps (Application.labelPropagation · a b) _ _ ?_ ?_
  · intro x mem toZ
    by_contra away
    rw [if_neg (by simp [toZ, away])] at mem
    cases mem
  · rintro c relevant (⟨x, rfl⟩ | rest)
    · cases joined : p.network.edgeBetween? x a with
      | none => exact Or.inr (Or.inr (settled_of_nil (labelPropagation_of_unjoined (Or.inl joined))))
      | some edge =>
        have listed := (wf.mem_predecessors (wf.lt_of_findEdge? found).1).mpr
          (Option.isSome_iff_exists.mpr ⟨edge, joined⟩)
        have allowed : (!ctx.onlyToZ) = true ∨ b = ctx.z := by
          cases toZ : ctx.onlyToZ with
          | false => exact Or.inl rfl
          | true => exact Or.inr (relevant toZ)
        exact Or.inl ⟨x, by rwa [if_pos allowed], rfl⟩
    · exact Or.inr (Or.inl rest)

/-- Without links no value crosses a lower-case one and none has letters. -/
theorem Collecting.unlinked (run : Collecting ctx start I observe combine (Crosses a b successors) next p)
    (noLinks : ctx.links = []) :
    Collecting ctx start I observe combine (fun _ => False) next p := by
  refine ⟨run.faithful, run.running.mono _ _ (fun _ => Iff.rfl) fun c relevant isDue => ?_⟩
  have irrelevant : ∀ x y w, ¬ (Application.crossLowerCase x y w).Relevant ctx := by
    rintro x y w ⟨link, mem, _⟩
    rw [noLinks] at mem
    cases mem
  rcases isDue with ⟨w, _, rfl⟩ | ⟨x, rfl⟩ | rfl
  · exact absurd relevant (irrelevant _ _ _)
  · exact absurd relevant (irrelevant _ _ _)
  · exact Or.inr (settled_of_nil (letterRemoval_of_no_links noLinks))

theorem Collecting.cross (keeps : Performs ctx start I E) (links : ctx.links ≠ [])
    (run : Collecting ctx start I observe combine (Crosses a b successors) next p)
    (found : p.network.findEdge? a b = some e) :
    Ends ((if ((p.network.edge? e).bind LabeledEdge.lower).isSome then successors else []).foldlM
        (fun next w => Propagation.visit ctx next (.crossLowerCase a b w)) next) p
      (fun next' q => p.network.Grows q.network ∧
        Collecting ctx start I observe combine (EndsIn a b) next' q)
      (fun halt _ => E halt) := by
  refine run.visitAll keeps (Application.crossLowerCase a b ·) _ _ (fun _ _ => links) ?_
  rintro c relevant (⟨w, mem, rfl⟩ | rest)
  · obtain ⟨edge, stored, joined⟩ := Network.edge?_of_findEdge? run.running.wellFormed found
    rw [stored, Option.bind_some]
    by_cases crossed : edge.lower.isSome = true
    · exact Or.inl ⟨w, by rwa [if_pos crossed], rfl⟩
    · refine Or.inr (Or.inr (settled_of_nil (crossLowerCase_of_unjoined (Or.inl ?_))))
      rw [joined]
      simpa using crossed
  · exact Or.inr (Or.inl rest)

/-- Only the link that ends in the source of the edge has a lower-case value there, so of the values that
might cross one before the edge there is at most one. -/
theorem Collecting.crossInto (keeps : Performs ctx start I E) (functional : LinksFunctional ctx)
    (links : ctx.links ≠ [])
    (run : Collecting ctx start I observe combine (EndsIn a b) next p) :
    Ends (match ctx.linkOf? a with
        | some link => Propagation.visit ctx next (.crossLowerCase link.activation a b)
        | none => pure next) p
      (fun next' q => p.network.Grows q.network ∧
        Collecting ctx start I observe combine (fun c => c = .letterRemoval a b) next' q)
      (fun halt _ => E halt) := by
  cases ended : ctx.linkOf? a with
  | none =>
    refine ⟨.refl _, run.faithful, run.running.mono _ _ (fun _ => Iff.rfl) fun c relevant isDue => ?_⟩
    rcases isDue with ⟨x, rfl⟩ | rfl
    · obtain ⟨link, mem, _, rfl⟩ := relevant
      obtain ⟨other, h, _⟩ := linkOf?_eq functional mem
      rw [ended] at h
      cases h
    · exact Or.inl rfl
  | some link =>
    refine (run.visit keeps (.crossLowerCase link.activation a b) links).mono ?_ fun _ _ => id
    rintro next' q ⟨grows, run'⟩
    refine ⟨grows, run'.faithful, run'.running.mono _ _ (fun _ => Iff.rfl)
      fun c relevant isDue => Or.inl ?_⟩
    rcases isDue with ⟨⟨x, rfl⟩ | rfl, other⟩
    · obtain ⟨link', mem, rfl, rfl⟩ := relevant
      obtain ⟨first, h, same⟩ := linkOf?_eq functional mem
      rw [ended] at h
      cases h
      exact absurd (by rw [same]) other
    · rfl

/-- The second half of a pass: every triangle and every contingent link the edge is part of. -/
theorem Collecting.combineEdge (keeps : Performs ctx start I E) (functional : LinksFunctional ctx)
    {todo : List EdgeId}
    (run : Collecting ctx start I observe (e :: todo) (fun _ => False) next p) :
    Ends (combineEdge ctx next e) p (Collecting ctx start I observe todo (fun _ => False))
      (fun halt _ => E halt) := by
  unfold Propagation.combineEdge
  rw [ends_bind, ends_get]
  cases stored : p.network.slot? e with
  | none => exact ⟨run.faithful, Running.skip false run.running stored⟩
  | some slot =>
    obtain ⟨name, a, b, payload⟩ := slot
    have found : p.network.findEdge? a b = some e := run.running.wellFormed.findEdge?_of_slot stored
    have taken : Collecting ctx start I observe todo _ next p :=
      ⟨run.faithful, Running.take false run.running found⟩
    rw [ends_bind, ends_get]
    dsimp only
    -- Each step takes away what is due; nothing is in the end.
    refine (taken.leave keeps found rfl).bind ?_
    rintro next₁ p₁ ⟨grows₁, run₁⟩
    have found₁ := grows₁.found _ _ _ found
    rw [ends_bind, ends_get]
    refine (run₁.enter keeps found₁).bind ?_
    rintro next₂ p₂ ⟨grows₂, run₂⟩
    have found₂ := grows₂.found _ _ _ found₁
    by_cases noLinks : ctx.links.isEmpty = true
    · rw [if_pos noLinks]
      exact run₂.unlinked (List.isEmpty_iff.mp noLinks)
    · rw [if_neg noLinks, ends_bind, ends_get]
      rw [List.isEmpty_iff] at noLinks
      refine (run₂.cross keeps noLinks found₂).bind ?_
      rintro next₃ p₃ ⟨grows₃, run₃⟩
      have found₃ := grows₃.found _ _ _ found₂
      have crossed := run₃.crossInto keeps functional noLinks
      cases ended : ctx.linkOf? a with
      | none =>
        rw [ended] at crossed
        exact crossed.2.removeLetters keeps found₃
      | some link =>
        rw [ended] at crossed
        simp only [← bind_assoc]
        refine crossed.bind ?_
        rintro next₄ p₄ ⟨grows₄, run₄⟩
        exact run₄.removeLetters keeps (grows₄.found _ _ _ found₃)

end Combining

theorem Running.of_network {q : Progress}
    (run : Running ctx start I observe combine noted due p) (same : q.network = p.network) :
    Running ctx start I observe combine noted due q :=
  ⟨same ▸ run.wellFormed, same ▸ run.grows, same ▸ run.holds, same ▸ run.advanced, same ▸ run.covered⟩

theorem poll_ends {stops : Polls} (timely : ∀ n, stops n = true → E .timeout) (p : Progress) :
    Ends (poll stops) p (fun _ q => q.network = p.network) (fun halt _ => E halt) := by
  unfold Ends poll
  simp only [EStateM.run]
  split
  · rename_i h
    split at h <;> cases h
    rfl
  · rename_i h
    split at h <;> cases h
    rename_i stop
    exact timely _ stop

/-- The state between two passes. An application that is not settled reads an edge that the next pass
looks at. -/
structure Pending (ctx : RuleContext) (start : LabeledNetwork) (I : LabeledNetwork → Prop)
    (edges : List EdgeId) (p : Progress) : Prop where
  wellFormed : p.network.WellFormed
  grows : start.Grows p.network
  holds : I p.network
  covered : ∀ a : Application, a.Relevant ctx → a.Settled ctx p.network ∨
    ∃ u v e, a.Reads start u v ∧ p.network.findEdge? u v = some e ∧ e ∈ edges

theorem Pending.of_network {edges : List EdgeId} {q : Progress}
    (pending : Pending ctx start I edges p) (same : q.network = p.network) :
    Pending ctx start I edges q :=
  ⟨same ▸ pending.wellFormed, same ▸ pending.grows, same ▸ pending.holds, same ▸ pending.covered⟩

theorem Pending.pass {edges : List EdgeId} (pending : Pending ctx start I edges p)
    (keeps : Performs ctx start I E) (functional : LinksFunctional ctx) {stops : Polls}
    (timely : ∀ n, stops n = true → E .timeout) :
    Ends (Propagation.pass ctx stops edges) p
      (Collecting ctx p.network I [] [] (fun _ => False)) (fun halt _ => E halt) := by
  have keeps' := keeps.rebase pending.grows
  have run : Running ctx p.network I edges edges (· ∈ Worklist.empty.toList) (fun _ => False) p := by
    refine ⟨pending.wellFormed, .refl _, pending.holds, nofun, fun a relevant => ?_⟩
    rcases pending.covered a relevant with settled | ⟨u, v, e, reads, found, mem⟩
    · exact Or.inr (Or.inl ⟨p.network, ⟨.refl _, pending.wellFormed, pending.holds, .refl _⟩, settled,
        fun _ _ => Or.inl rfl⟩)
    · rw [← Application.Reads.congr pending.grows.nodeD] at reads
      exact Or.inr (Or.inr ⟨u, v, e, reads, found, by split <;> exact mem⟩)
  have observed : Ends (edges.foldlM (Propagation.observeEdge ctx) Worklist.empty) p
      (Collecting ctx p.network I [] edges (fun _ => False)) (fun halt _ => E halt) :=
    ends_foldlM (fun rest => Collecting ctx p.network I rest edges (fun _ => False))
      (fun _ _ _ _ run => Collecting.observeEdge keeps' run) edges Worklist.empty p
      ⟨Worklist.faithful_empty, run⟩
  refine observed.bind fun next q run' =>
    ends_foldlM (fun rest => Collecting ctx p.network I [] rest (fun _ => False))
      (fun e _ next r run'' => ?_) edges next q run'
  refine (poll_ends timely r).bind fun _ t same => ?_
  exact Collecting.combineEdge keeps' functional
    ⟨run''.faithful, run''.running.of_network same⟩

/-- A pass leaves an application open only if it reads an edge of the next worklist. -/
theorem Pending.next {edges : List EdgeId} {next : Worklist} {q : Progress}
    (pending : Pending ctx start I edges p)
    (run : Collecting ctx p.network I [] [] (fun _ => False) next q) :
    Pending ctx start I next.toList q := by
  refine ⟨run.running.wellFormed, pending.grows.trans run.running.grows, run.running.holds,
    fun a relevant => ?_⟩
  rcases run.running.covered a relevant with isDue | made | ⟨_, _, _, _, _, mem⟩
  · exact isDue.elim
  · refine (made.settled_or_reads run.running.wellFormed).imp_right ?_
    rintro ⟨u, v, e, reads, found, mem⟩
    exact ⟨u, v, e, (Application.Reads.congr pending.grows.nodeD).mp reads, found, mem⟩
  · split at mem <;> cases mem

theorem passes_ends (keeps : Keeps ctx start I E) (functional : LinksFunctional ctx)
    (stops : Polls) (remaining : Nat) (edges : List EdgeId) (p : Progress)
    (pending : Pending ctx start I edges p) :
    Ends (passes ctx stops remaining edges) p (fun _ => Pending ctx start I [])
      (fun halt _ => E halt) := by
  induction remaining generalizing edges p with
  | zero =>
    cases edges with
    | nil => exact pending
    | cons e es => exact keeps.cycleBoundExceeded
  | succ remaining ih =>
    cases edges with
    | nil => exact pending
    | cons e es =>
      rw [passes, ends_bind, ends_modify]
      refine (poll_ends (fun _ _ => keeps.timeout) _).bind fun _ q same => ?_
      have pending' : Pending ctx start I (e :: es) q := pending.of_network same
      exact (pending'.pass keeps.toPerforms functional fun _ _ => keeps.timeout).bind fun next r run =>
        ih next.toList r (pending'.next run)

theorem exists_reads {g : LabeledNetwork} {a : Application} (derives : a.derivations ctx g ≠ []) :
    ∃ u v e, a.Reads g u v ∧ g.findEdge? u v = some e := by
  have joined : ∀ u v, g.edgeBetween? u v ≠ none → ∃ e, g.findEdge? u v = some e := by
    intro u v present
    refine Option.ne_none_iff_exists'.mp fun unjoined => present ?_
    rw [Network.edgeBetween?, unjoined]
    rfl
  cases a with
  | r0 observer target =>
    obtain ⟨e, found⟩ := joined observer target fun unjoined =>
      derives (r0_of_unjoined unjoined)
    exact ⟨observer, target, e, ⟨rfl, rfl⟩, found⟩
  | r3 source target =>
    obtain ⟨e, found⟩ := joined source target fun unjoined =>
      derives (r3_of_unjoined unjoined)
    exact ⟨source, target, e, ⟨rfl, Or.inl rfl⟩, found⟩
  | labelPropagation x y w =>
    obtain ⟨e, found⟩ := joined x y fun unjoined =>
      derives (labelPropagation_of_unjoined (Or.inl unjoined))
    exact ⟨x, y, e, Or.inl ⟨rfl, rfl⟩, found⟩
  | crossLowerCase activation contingent w =>
    obtain ⟨e, found⟩ := joined contingent w fun unjoined =>
      derives (crossLowerCase_of_unjoined (Or.inr unjoined))
    exact ⟨contingent, w, e, Or.inr ⟨rfl, rfl⟩, found⟩
  | letterRemoval x activation =>
    obtain ⟨e, found⟩ := joined x activation fun unjoined =>
      derives (letterRemoval_of_unjoined unjoined)
    exact ⟨x, activation, e, ⟨rfl, rfl⟩, found⟩

theorem Pending.initial (wf : p.network.WellFormed) (holds : I p.network) :
    Pending ctx p.network I p.network.edgeIds p := by
  refine ⟨wf, .refl _, holds, fun a _ => ?_⟩
  by_cases nothing : a.derivations ctx p.network = []
  · exact Or.inl (settled_of_nil nothing)
  · obtain ⟨u, v, e, reads, found⟩ := exists_reads nothing
    obtain ⟨slot, stored, _⟩ := (wf.listed u v e).mp found
    exact Or.inr ⟨u, v, e, reads, found, Network.mem_edgeIds.mpr (by simp [stored])⟩

/-- If the propagation ends with a fixpoint, every application that is meant to be made is settled,
and `I` still holds; if it stops before, `E` holds of the reason. -/
theorem toFixpoint_ends (keeps : Keeps ctx p.network I E) (functional : LinksFunctional ctx)
    (stops : Polls) (cycleBound : Nat) (wf : p.network.WellFormed) (holds : I p.network) :
    Ends (toFixpoint ctx stops cycleBound) p
      (fun _ q => q.network.WellFormed ∧ p.network.Grows q.network ∧ I q.network ∧
        ∀ a : Application, a.Relevant ctx → a.Settled ctx q.network)
      (fun halt _ => E halt) := by
  rw [toFixpoint, ends_bind, ends_get]
  refine (passes_ends keeps functional stops cycleBound p.network.edgeIds p
    (Pending.initial wf holds)).mono ?_ fun _ _ => id
  intro _ q pending
  refine ⟨pending.wellFormed, pending.grows, pending.holds, fun a relevant => ?_⟩
  refine (pending.covered a relevant).resolve_right ?_
  rintro ⟨_, _, _, _, _, mem⟩
  cases mem

end Invariant

end Propagation

end TemporalNetwork
