import Mathlib.Data.List.Forall2
import Mathlib.Data.List.ReduceOption
import Mathlib.Order.Basic

/-!
What holds when a computation with state and errors ends. `Ends m s ok err` says that `m`, started in
the state `s`, ends with a result and a state for which `ok` holds, or with an error and a state for
which `err` holds. Folds are described by an invariant of the elements still to come. `Abreast` says
the like of two computations that end in the same way.
-/

namespace TemporalNetwork

variable {ε σ α β : Type}

def Ends (m : EStateM ε σ α) (s : σ) (ok : α → σ → Prop) (err : ε → σ → Prop) : Prop :=
  match m.run s with
  | .ok a t => ok a t
  | .error e t => err e t

variable {s : σ} {ok : α → σ → Prop} {err : ε → σ → Prop}

@[simp] theorem ends_pure {a : α} : Ends (pure a) s ok err ↔ ok a s := Iff.rfl

@[simp] theorem ends_throw {e : ε} : Ends (throw e : EStateM ε σ α) s ok err ↔ err e s := Iff.rfl

@[simp] theorem ends_get {ok : σ → σ → Prop} : Ends (get : EStateM ε σ σ) s ok err ↔ ok s s :=
  Iff.rfl

@[simp] theorem ends_modify {f : σ → σ} {ok : PUnit → σ → Prop} :
    Ends (modify f : EStateM ε σ PUnit) s ok err ↔ ok ⟨⟩ (f s) := Iff.rfl

@[simp] theorem ends_modifyGet {f : σ → α × σ} :
    Ends (modifyGet f : EStateM ε σ α) s ok err ↔ ok (f s).1 (f s).2 := Iff.rfl

theorem run_get_bind (f : σ → EStateM ε σ α) (s : σ) :
    (get >>= f : EStateM ε σ α).run s = (f s).run s := rfl

theorem ends_bind {m : EStateM ε σ α} {f : α → EStateM ε σ β} {ok : β → σ → Prop} :
    Ends (m >>= f) s ok err ↔ Ends m s (fun a t => Ends (f a) t ok err) err := by
  simp only [Ends, EStateM.run_bind]
  cases m.run s <;> rfl

theorem Ends.mono {m : EStateM ε σ α} {ok' : α → σ → Prop} {err' : ε → σ → Prop}
    (ends : Ends m s ok err) (results : ∀ a t, ok a t → ok' a t)
    (errors : ∀ e t, err e t → err' e t) : Ends m s ok' err' := by
  unfold Ends at ends ⊢
  cases h : m.run s with
  | ok a t =>
    rw [h] at ends
    exact results a t ends
  | error e t =>
    rw [h] at ends
    exact errors e t ends

theorem Ends.bind {m : EStateM ε σ α} {f : α → EStateM ε σ β} {mid : α → σ → Prop}
    {ok : β → σ → Prop} (first : Ends m s mid err)
    (rest : ∀ a t, mid a t → Ends (f a) t ok err) : Ends (m >>= f) s ok err :=
  ends_bind.mpr (first.mono rest fun _ _ => id)

theorem Ends.and {m : EStateM ε σ α} {ok' : α → σ → Prop} {err' : ε → σ → Prop}
    (first : Ends m s ok err) (second : Ends m s ok' err') :
    Ends m s (fun a t => ok a t ∧ ok' a t) (fun e t => err e t ∧ err' e t) := by
  unfold Ends at *
  cases h : m.run s <;> rw [h] at first second <;> exact ⟨first, second⟩

theorem Ends.of_ok {m : EStateM ε σ α} {a : α} {t : σ} (ends : Ends m s ok err)
    (run : m.run s = .ok a t) : ok a t := by
  unfold Ends at ends
  rwa [run] at ends

theorem Ends.of_error {m : EStateM ε σ α} {e : ε} {t : σ} (ends : Ends m s ok err)
    (run : m.run s = .error e t) : err e t := by
  unfold Ends at ends
  rwa [run] at ends

theorem run_eq_of_ends {m : EStateM ε σ α} {a : α} {t : σ}
    (ends : Ends m s (fun b u => b = a ∧ u = t) fun _ _ => False) : m.run s = .ok a t := by
  unfold Ends at ends
  cases run : m.run s with
  | ok b u =>
    rw [run] at ends
    obtain ⟨rfl, rfl⟩ := ends
    rfl
  | error e u =>
    rw [run] at ends
    exact ends.elim

/-- Whether a computation ends with a result. -/
def succeeds (m : EStateM ε σ α) (s : σ) : Bool :=
  match m.run s with
  | .ok .. => true
  | .error .. => false

theorem exists_of_succeeds {m : EStateM ε σ α} (h : succeeds m s = true) :
    ∃ a t, m.run s = .ok a t := by
  unfold succeeds at h
  cases run : m.run s with
  | ok a t => exact ⟨a, t, rfl⟩
  | error e t =>
    rw [run] at h
    cases h

/-- A fold keeps an invariant of the elements still to come, the value reached and the state. -/
theorem ends_foldlM {f : β → α → EStateM ε σ β} (inv : List α → β → σ → Prop)
    (step : ∀ a rest b s, inv (a :: rest) b s → Ends (f b a) s (inv rest) err)
    (todo : List α) (b : β) (s : σ) (start : inv todo b s) :
    Ends (todo.foldlM f b) s (inv []) err := by
  induction todo generalizing b s with
  | nil => exact start
  | cons a rest ih =>
    rw [List.foldlM_cons]
    exact (step a rest b s start).bind fun c t holds => ih c t holds

theorem ends_forM {f : α → EStateM ε σ PUnit} (inv : List α → σ → Prop)
    (step : ∀ a rest s, inv (a :: rest) s → Ends (f a) s (fun _ => inv rest) err)
    (todo : List α) (s : σ) (start : inv todo s) :
    Ends (todo.forM f) s (fun _ => inv []) err := by
  induction todo generalizing s with
  | nil => exact start
  | cons a rest ih => exact (step a rest s start).bind fun _ t holds => ih t holds

theorem ends_filterMapM {f : α → EStateM ε σ (Option β)}
    (inv : List α → List β → σ → Prop)
    (step : ∀ a rest kept s, inv (a :: rest) kept s →
      Ends (f a) s (fun b => inv rest (b.toList ++ kept)) err)
    (todo : List α) (s : σ) (start : inv todo [] s) :
    Ends (todo.filterMapM f) s (fun result => inv [] result.reverse) err := by
  have loop : ∀ todo kept s, inv todo kept s →
      Ends (List.filterMapM.loop f todo kept) s (fun result => inv [] result.reverse) err := by
    intro todo
    induction todo with
    | nil =>
      intro kept s holds
      rw [List.filterMapM.loop, ends_pure, List.reverse_reverse]
      exact holds
    | cons a rest ih =>
      intro kept s holds
      rw [List.filterMapM.loop]
      refine (step a rest kept s holds).bind fun b t next => ?_
      cases b with
      | none => exact ih kept t next
      | some b => exact ih (b :: kept) t next
  exact loop todo [] s start

theorem ends_filterMapM_of_forall {f : α → EStateM ε σ (Option β)} {made : α → Option β → Prop}
    (todo : List α) (each : ∀ a ∈ todo, Ends (f a) s (fun b t => t = s ∧ made a b) err) :
    Ends (todo.filterMapM f) s
      (fun result t => t = s ∧ ∃ all, List.Forall₂ made todo all ∧ result = all.reduceOption)
      err := by
  refine (ends_filterMapM (fun rest kept t => t = s ∧ ∃ done all, todo = done ++ rest ∧
    List.Forall₂ made done all ∧ kept.reverse = all.reduceOption) ?_ todo s
    ⟨rfl, [], [], rfl, .nil, rfl⟩).mono ?_ fun _ _ h => h
  · rintro a rest kept t ⟨rfl, done, all, rfl, made', same⟩
    refine (each a (by simp)).mono ?_ fun _ _ h => h
    rintro b _ ⟨rfl, here⟩
    refine ⟨rfl, done ++ [a], all ++ [b], by simp, ?_, ?_⟩
    · exact List.rel_append made' (.cons here .nil)
    · rw [List.reverse_append, same, List.reduceOption_append]
      cases b <;> rfl
  · rintro result t ⟨rfl, done, all, rfl, made', same⟩
    rw [List.append_nil]
    exact ⟨rfl, all, made', by rwa [List.reverse_reverse] at same⟩

section abreast

variable {σ' β' : Type} {s' : σ'}

/-- Two computations end in the same way: both with a result and states for which `ok` holds, or both
with the same error and states for which `err` holds. -/
def Abreast (m : EStateM ε σ α) (m' : EStateM ε σ' β) (s : σ) (s' : σ')
    (ok : α → σ → β → σ' → Prop) (err : ε → σ → σ' → Prop) : Prop :=
  match m.run s, m'.run s' with
  | .ok a t, .ok b t' => ok a t b t'
  | .error e t, .error e' t' => e' = e ∧ err e t t'
  | _, _ => False

variable {m : EStateM ε σ α} {m' : EStateM ε σ' β} {ok : α → σ → β → σ' → Prop}
  {err : ε → σ → σ' → Prop}

theorem Abreast.mono {ok' : α → σ → β → σ' → Prop} {err' : ε → σ → σ' → Prop}
    (abreast : Abreast m m' s s' ok err)
    (results : ∀ a t b t', ok a t b t' → ok' a t b t')
    (errors : ∀ e t t', err e t t' → err' e t t') : Abreast m m' s s' ok' err' := by
  unfold Abreast at abreast ⊢
  cases run : m.run s <;> cases run' : m'.run s' <;> rw [run, run'] at abreast
  · exact results _ _ _ _ abreast
  · exact abreast
  · exact abreast
  · exact ⟨abreast.1, errors _ _ _ abreast.2⟩

theorem Abreast.bind {α' : Type} {f : α → EStateM ε σ α'} {f' : β → EStateM ε σ' β'}
    {mid : α → σ → β → σ' → Prop} {ok : α' → σ → β' → σ' → Prop}
    (first : Abreast m m' s s' mid err)
    (rest : ∀ a t b t', mid a t b t' → Abreast (f a) (f' b) t t' ok err) :
    Abreast (m >>= f) (m' >>= f') s s' ok err := by
  unfold Abreast at first
  rw [Abreast, EStateM.run_bind, EStateM.run_bind]
  cases run : m.run s <;> cases run' : m'.run s' <;> rw [run, run'] at first
  · exact rest _ _ _ _ first
  · exact first.elim
  · exact first.elim
  · exact first

theorem abreast_bind_of_ok {α' : Type} {f : α → EStateM ε σ α'} {f' : β → EStateM ε σ' β'}
    {ok : α' → σ → β' → σ' → Prop} {a : α} {t : σ} {b : β} {t' : σ'} (run : m.run s = .ok a t)
    (run' : m'.run s' = .ok b t') (rest : Abreast (f a) (f' b) t t' ok err) :
    Abreast (m >>= f) (m' >>= f') s s' ok err := by
  unfold Abreast at rest ⊢
  rwa [EStateM.run_bind, EStateM.run_bind, run, run']

theorem abreast_bind_of_error {α' : Type} {f : α → EStateM ε σ α'} {f' : β → EStateM ε σ' β'}
    {ok : α' → σ → β' → σ' → Prop} {e : ε} {t : σ} {t' : σ'} (run : m.run s = .error e t)
    (run' : m'.run s' = .error e t') (ends : err e t t') :
    Abreast (m >>= f) (m' >>= f') s s' ok err := by
  unfold Abreast
  rw [EStateM.run_bind, EStateM.run_bind, run, run']
  exact ⟨rfl, ends⟩

/-- Computations with separate descriptions end in the same way if no result of one goes together
with an error of the other. -/
theorem Abreast.of_ends {ok₁ : α → σ → Prop} {err₁ : ε → σ → Prop} {ok₂ : β → σ' → Prop}
    {err₂ : ε → σ' → Prop} (first : Ends m s ok₁ err₁) (second : Ends m' s' ok₂ err₂)
    (results : ∀ a t b t', ok₁ a t → ok₂ b t' → ok a t b t')
    (errors : ∀ e t e' t', err₁ e t → err₂ e' t' → e' = e ∧ err e t t')
    (apart : ∀ a t e t', ok₁ a t → ¬ err₂ e t') (apart' : ∀ e t b t', err₁ e t → ¬ ok₂ b t') :
    Abreast m m' s s' ok err := by
  unfold Ends at first second
  unfold Abreast
  cases run : m.run s <;> cases run' : m'.run s' <;> rw [run] at first <;> rw [run'] at second
  · exact results _ _ _ _ first second
  · exact apart _ _ _ _ first second
  · exact apart' _ _ _ _ first second
  · exact errors _ _ _ _ first second

theorem Abreast.left (abreast : Abreast m m' s s' ok err) :
    Ends m s (fun a t => ∃ b t', ok a t b t') fun e t => ∃ t', err e t t' := by
  unfold Abreast at abreast
  unfold Ends
  cases run : m.run s <;> cases run' : m'.run s' <;> rw [run, run'] at abreast
  · exact ⟨_, _, abreast⟩
  · exact abreast.elim
  · exact abreast.elim
  · exact ⟨_, abreast.2⟩

theorem Abreast.right (abreast : Abreast m m' s s' ok err) :
    Ends m' s' (fun b t' => ∃ a t, ok a t b t') fun e t' => ∃ t, err e t t' := by
  unfold Abreast at abreast
  unfold Ends
  cases run : m.run s <;> cases run' : m'.run s' <;> rw [run, run'] at abreast
  · exact ⟨_, _, abreast⟩
  · exact abreast.elim
  · exact abreast.elim
  · exact ⟨_, abreast.1 ▸ abreast.2⟩

theorem abreast_forM {f : α → EStateM ε σ PUnit} {f' : α → EStateM ε σ' PUnit}
    (inv : List α → σ → σ' → Prop)
    (step : ∀ a rest s s', inv (a :: rest) s s' →
      Abreast (f a) (f' a) s s' (fun _ t _ t' => inv rest t t') err)
    (todo : List α) (s : σ) (s' : σ') (start : inv todo s s') :
    Abreast (todo.forM f) (todo.forM f') s s' (fun _ t _ t' => inv [] t t') err := by
  induction todo generalizing s s' with
  | nil => exact start
  | cons a rest ih => exact (step a rest s s' start).bind fun _ t _ t' holds => ih t t' holds

end abreast

end TemporalNetwork
