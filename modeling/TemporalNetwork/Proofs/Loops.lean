import Mathlib.Logic.Relation
import TemporalNetwork.Proofs.Runs

/-!
Loops that nothing limits. A turn of a loop leads to another value or to a result. Calls that wait for
others are a loop as well: its values are stacks of calls, and a turn replaces the call on top by those
that are left to do. A function that makes a limited number of turns computes the result of the loop,
as long as it does not reach its limit.
-/

namespace TemporalNetwork

section loops

variable {α β : Type} {turn : α → α ⊕ β} {a b c : α} {r r' : β}

/-- Whether the loop comes from one value to another. -/
def Comes (turn : α → α ⊕ β) : α → α → Prop := Relation.ReflTransGen fun a b => turn a = .inl b

def EndsWith (turn : α → α ⊕ β) (a : α) (r : β) : Prop := ∃ b, Comes turn a b ∧ turn b = .inr r

theorem Comes.refl (a : α) : Comes turn a a := Relation.ReflTransGen.refl

theorem Comes.head (first : turn a = .inl b) (later : Comes turn b c) : Comes turn a c :=
  Relation.ReflTransGen.head first later

theorem Comes.trans (first : Comes turn a b) (later : Comes turn b c) : Comes turn a c :=
  Relation.ReflTransGen.trans first later

/-- What holds at the start and after each turn holds wherever the loop comes. -/
theorem Comes.keeps {I : α → Prop} (comes : Comes turn a b) (start : I a)
    (step : ∀ a b, I a → turn a = .inl b → I b) : I b := by
  induction comes with
  | refl => exact start
  | tail _ turned ih => exact step _ _ ih turned

theorem EndsWith.of_comes (comes : Comes turn a b) (ends : EndsWith turn b r) : EndsWith turn a r := by
  obtain ⟨c, later, stops⟩ := ends
  exact ⟨c, comes.trans later, stops⟩

theorem EndsWith.unique (first : EndsWith turn a r) (second : EndsWith turn a r') : r = r' := by
  obtain ⟨b, comes, stops⟩ := first
  obtain ⟨c, comes', stops'⟩ := second
  induction comes using Relation.ReflTransGen.head_induction_on with
  | refl =>
    rcases comes'.cases_head with rfl | ⟨d, turned, _⟩
    · exact Sum.inr.inj (stops.symm.trans stops')
    · rw [stops] at turned
      cases turned
  | head turned _ ih =>
    rcases comes'.cases_head with rfl | ⟨d, turned', later⟩
    · rw [turned] at stops'
      cases stops'
    · obtain rfl := Sum.inl.inj (turned.symm.trans turned')
      exact ih later

/-- A function whose turns are those of the loop ends as the loop does, if a measure that falls with
every turn is below the limit. -/
theorem endsWith_limited (limited : Nat → α → β) (I : α → Prop) (measure : α → Nat)
    (unfolds : ∀ fuel a, limited (fuel + 1) a =
      match turn a with
      | .inl b => limited fuel b
      | .inr r => r)
    (step : ∀ a b, I a → turn a = .inl b → I b ∧ measure b < measure a) (fuel : Nat) (a : α)
    (start : I a) (enough : measure a < fuel) : EndsWith turn a (limited fuel a) := by
  induction fuel generalizing a with
  | zero => omega
  | succ fuel ih =>
    rw [unfolds]
    cases turned : turn a with
    | inl b =>
      obtain ⟨holds, less⟩ := step a b start turned
      exact .of_comes (.head turned (.refl b)) (ih b holds (by omega))
    | inr r => exact ⟨a, .refl a, turned⟩

end loops

section calls

variable {φ ε σ : Type} {turn : φ → EStateM ε σ (List φ)} {call : φ} {calls rest more : List φ}
  {s t : σ}

/-- A turn of a computation whose calls are on a stack: the one on top is replaced. -/
def stackTurn (turn : φ → EStateM ε σ (List φ)) :
    List φ × σ → (List φ × σ) ⊕ EStateM.Result ε σ Unit
  | ([], s) => .inr (.ok () s)
  | (call :: rest, s) =>
    match (turn call).run s with
    | .ok calls t => .inl (calls ++ rest, t)
    | .error e t => .inr (.error e t)

theorem stackTurn_of_ok (run : (turn call).run s = .ok calls t) (rest : List φ) :
    stackTurn turn (call :: rest, s) = .inl (calls ++ rest, t) := by
  rw [stackTurn, run]

theorem stackTurn_of_error {e : ε} (run : (turn call).run s = .error e t) (rest : List φ) :
    stackTurn turn (call :: rest, s) = .inr (.error e t) := by
  rw [stackTurn, run]

/-- What each turn of a call on top of the stack keeps holds wherever the computation comes. -/
theorem Comes.keeps_stack {I : List φ → σ → Prop} {stack stack' : List φ}
    (comes : Comes (stackTurn turn) (stack, s) (stack', t)) (start : I stack s)
    (step : ∀ call rest s, I (call :: rest) s →
      Ends (turn call) s (fun calls t => I (calls ++ rest) t) fun _ _ => True) : I stack' t := by
  refine Comes.keeps (I := fun (stack, s) => I stack s) comes start ?_
  rintro ⟨stack, s⟩ ⟨stack', t⟩ holds turned
  cases stack with
  | nil => cases turned
  | cons call rest =>
    rw [stackTurn] at turned
    cases run : (turn call).run s with
    | ok calls u =>
      rw [run] at turned
      cases turned
      exact (step call rest s holds).of_ok run
    | error e u =>
      rw [run] at turned
      cases turned

/-- Whether calls on top of any stack do what a computation does: when they are over so is the
computation, in the same state, and an error ends both. -/
def Performs (turn : φ → EStateM ε σ (List φ)) (calls : List φ) (m : EStateM ε σ Unit) (s : σ) :
    Prop :=
  ∀ rest, Ends m s (fun _ t => Comes (stackTurn turn) (calls ++ rest, s) (rest, t))
    fun e t => EndsWith (stackTurn turn) (calls ++ rest, s) (.error e t)

namespace Performs

variable {m m' : EStateM ε σ Unit}

theorem nil (s : σ) : Performs turn [] (pure ()) s := fun rest => Comes.refl (rest, s)

theorem of_turn (failed : ∀ e t, (turn call).run s = .error e t → m.run s = .error e t)
    (turned : ∀ calls t, (turn call).run s = .ok calls t →
      ∃ m', m.run s = m'.run t ∧ Performs turn (calls ++ more) m' t) :
    Performs turn (call :: more) m s := by
  intro rest
  unfold Ends
  cases run : (turn call).run s with
  | error e t =>
    rw [failed e t run]
    exact ⟨_, .refl _, stackTurn_of_error run _⟩
  | ok calls t =>
    obtain ⟨m', same, performs⟩ := turned calls t run
    have ends := performs rest
    have first : Comes (stackTurn turn) (call :: more ++ rest, s) (calls ++ more ++ rest, t) := by
      rw [List.append_assoc]
      exact .head (stackTurn_of_ok run _) (.refl _)
    unfold Ends at ends
    rw [same]
    cases run' : m'.run t with
    | ok _ u =>
      rw [run'] at ends
      exact first.trans ends
    | error e u =>
      rw [run'] at ends
      exact .of_comes first ends

theorem of_turn_bind {k : List φ → EStateM ε σ Unit}
    (turned : ∀ calls t, (turn call).run s = .ok calls t →
      Performs turn (calls ++ more) (k calls) t) :
    Performs turn (call :: more) (turn call >>= k) s := by
  refine of_turn (fun e t run => ?_) fun calls t run => ⟨k calls, ?_, turned calls t run⟩
  · rw [EStateM.run_bind, run]
  · rw [EStateM.run_bind, run]

theorem append (first : Performs turn calls m s)
    (later : ∀ t, (∀ rest, Comes (stackTurn turn) (calls ++ rest, s) (rest, t)) →
      Performs turn more m' t) :
    Performs turn (calls ++ more) (m >>= fun _ => m') s := by
  intro rest
  rw [List.append_assoc]
  unfold Ends
  rw [EStateM.run_bind]
  cases run : m.run s with
  | ok a t =>
    have comes : ∀ rest, Comes (stackTurn turn) (calls ++ rest, s) (rest, t) :=
      fun rest => (first rest).of_ok run
    have ends := later t comes rest
    unfold Ends at ends
    dsimp only
    cases run' : m'.run t with
    | ok _ u =>
      rw [run'] at ends
      exact (comes _).trans ends
    | error e u =>
      rw [run'] at ends
      exact .of_comes (comes _) ends
  | error e t => exact (first _).of_error run

theorem forM {α : Type} {f : α → EStateM ε σ PUnit} (toCall : α → φ) {I : σ → Prop} (todo : List α)
    (each : ∀ a ∈ todo, ∀ s, I s → Performs turn [toCall a] (f a) s)
    (keeps : ∀ a ∈ todo, ∀ s t, I s → Comes (stackTurn turn) ([toCall a], s) ([], t) → I t) (s : σ)
    (start : I s) : Performs turn (todo.map toCall) (todo.forM f) s := by
  induction todo generalizing s with
  | nil => exact .nil s
  | cons a todo ih =>
    refine append (each a List.mem_cons_self s start) fun t comes => ?_
    exact ih (fun b mem => each b (List.mem_cons_of_mem _ mem))
      (fun b mem => keeps b (List.mem_cons_of_mem _ mem)) t
      (keeps a List.mem_cons_self s t start (comes []))

theorem ends (performs : Performs turn calls m s) {ok : σ → Prop} {err : ε → σ → Prop}
    (succeeded : ∀ t, Comes (stackTurn turn) (calls, s) ([], t) → ok t)
    (failed : ∀ call rest t, Comes (stackTurn turn) (calls, s) (call :: rest, t) →
      Ends (turn call) t (fun _ _ => True) err) : Ends m s (fun _ => ok) err := by
  have ends := performs []
  rw [List.append_nil] at ends
  refine ends.mono (fun _ => succeeded) fun e t ends => ?_
  obtain ⟨⟨_ | ⟨call, rest⟩, u⟩, comes, stops⟩ := ends
  · cases stops
  · have halts := failed call rest u comes
    rw [stackTurn] at stops
    cases run : (turn call).run u with
    | ok calls v =>
      rw [run] at stops
      cases stops
    | error e' v =>
      rw [run] at stops
      cases stops
      exact halts.of_error run

/-- The loop over a stack of calls that do what a computation does has its result and no other. -/
theorem endsWith_iff (performs : Performs turn calls m s) {r : EStateM.Result ε σ Unit} :
    EndsWith (stackTurn turn) (calls, s) r ↔ r = m.run s := by
  have ends : EndsWith (stackTurn turn) (calls, s) (m.run s) := by
    have ends := performs []
    rw [List.append_nil] at ends
    unfold Ends at ends
    cases run : m.run s with
    | ok _ t =>
      rw [run] at ends
      exact ⟨_, ends, rfl⟩
    | error e t =>
      rw [run] at ends
      exact ends
  constructor
  · exact fun other => other.unique ends
  · rintro rfl
    exact ends

end Performs

end calls

end TemporalNetwork
