import Mathlib.Data.Fintype.EquivFin
import TemporalNetwork.Proofs.Conditional.Confined

/-!
Outlooks: what is made of the propositions at the place that a value speaks of. A label shows the
outlooks that have its literals; where a proposition is unknown, an outlook sees neither it nor what is
only observed once it is. A label applies in an outlook if it has no literal that contradicts what the
outlook sees. If an outlook is shown by what two labels combine to, then each of the two shows one which
agrees with it on what it sees, so a label that applies there applies here, too
(`Combines.applies_left`).
-/

namespace TemporalNetwork

/-- What is made of each proposition. -/
abbrev Outlook := Proposition → LiteralState

/-- Whether no proposition is unknown. -/
def Outlook.Knows (e : Outlook) : Prop := ∀ p, e p ≠ .unknown

/-- The truth value, or some truth value. -/
def LiteralState.decided : LiteralState → LiteralState
  | unknown => straight
  | s => s

theorem LiteralState.decided_ne_unknown (s : LiteralState) : s.decided ≠ unknown := by
  cases s <;> nofun

theorem LiteralState.decided_of_ne {s : LiteralState} (known : s ≠ unknown) : s.decided = s := by
  cases s with
  | unknown => exact absurd rfl known
  | _ => rfl

theorem PropositionSet.contains_foldl_union (f : Proposition → PropositionSet) (q : Proposition)
    (ps : List Proposition) (s : PropositionSet) :
    (ps.foldl (fun s p => s ∪ f p) s).contains q = true ↔
      s.contains q = true ∨ ∃ p ∈ ps, (f p).contains q = true := by
  induction ps generalizing s with
  | nil => simp
  | cons p ps ih => simp [ih, or_assoc]

namespace Label

variable {a b l : Label} {e : Outlook} {p : Proposition} {s : LiteralState}

/-- Whether the outlook has the literals of the label, and a truth value for what it does not mention.
-/
def Shows (l : Label) (e : Outlook) : Prop :=
  ∀ p, l.state p = some (e p) ∨ l.state p = none ∧ e p ≠ .unknown

/-- The outlook with the literals of the label, and elsewhere the truth values of another one. -/
def view (l : Label) (e : Outlook) : Outlook := fun p => (l.state p).getD (e p).decided

theorem view_of_state (stated : l.state p = some s) (e : Outlook) : l.view e p = s := by
  rw [view, stated]
  rfl

theorem view_of_absent (absent : l.state p = none) (e : Outlook) : l.view e p = (e p).decided := by
  rw [view, absent]
  rfl

theorem shows_view (l : Label) (e : Outlook) : l.Shows (l.view e) := by
  intro p
  cases stated : l.state p with
  | some s => exact Or.inl (by rw [view_of_state stated])
  | none => exact Or.inr ⟨rfl, by simpa only [view_of_absent stated] using (e p).decided_ne_unknown⟩

theorem Shows.eq_of_state (shows : l.Shows e) (stated : l.state p = some s) : e p = s := by
  rcases shows p with same | ⟨absent, _⟩
  · exact (Option.some.inj (stated.symm.trans same)).symm
  · rw [stated] at absent
    cases absent

theorem Shows.state_of_unknown (shows : l.Shows e) (unknown : e p = .unknown) :
    l.state p = some .unknown := by
  rcases shows p with same | ⟨_, known⟩
  · rw [same, unknown]
  · exact absurd unknown known

theorem Shows.knows (shows : l.Shows e) (known : l.hasUnknown = false) : e.Knows :=
  fun p unknown => state_ne_unknown known p (shows.state_of_unknown unknown)

theorem state_view_of_unknown (unknown : l.view e p = .unknown) : l.state p = some .unknown :=
  (l.shows_view e).state_of_unknown unknown

/-- An outlook of the common part of two twins is one of either. -/
theorem Shows.twin {literal : Literal} (shows : (l.erase literal.proposition).Shows e)
    (flips : literal ∈ ValueMap.flippable l) :
    l.Shows e ∨ (l.replace literal.complement).Shows e := by
  obtain ⟨stated, known⟩ := mem_flippable.mp flips
  have seen : e literal.proposition ≠ .unknown := fun unknown => by
    have here := shows.state_of_unknown unknown
    rw [state_erase, if_pos rfl] at here
    cases here
  have elsewhere : ∀ p, literal.proposition ≠ p →
      l.state p = some (e p) ∨ l.state p = none ∧ e p ≠ .unknown := by
    intro p other
    have here := shows p
    rwa [state_erase, if_neg other] at here
  by_cases same : e literal.proposition = literal.state
  · refine Or.inl fun p => ?_
    by_cases at_p : literal.proposition = p
    · subst at_p
      exact Or.inl (stated.trans (congrArg some same.symm))
    · exact elsewhere p at_p
  · have flipped : e literal.proposition = literal.complement.state := by
      obtain ⟨p, s⟩ := literal
      dsimp only [Literal.complement] at same seen known ⊢
      cases here : e p <;> cases s <;> simp_all [LiteralState.complement]
    refine Or.inr fun p => ?_
    rw [state_replace]
    by_cases at_p : literal.complement.proposition = p
    · rw [if_pos at_p]
      exact Or.inl (congrArg some (flipped.symm.trans (congrArg e at_p)))
    · rw [if_neg at_p]
      exact elsewhere p at_p

theorem blendStates_comm (s t : Option LiteralState) : blendStates s t = blendStates t s := by
  rcases s with _ | s <;> rcases t with _ | t
  · rfl
  · rfl
  · rfl
  · simp only [blendStates, eq_comm]
    split
    · rename_i same
      rw [same]
    · rfl

theorem hasUnknown_of_subsumes (refines : a.subsumes b = true) (known : a.hasUnknown = false) :
    b.hasUnknown = false := by
  rw [← Bool.not_eq_true, hasUnknown_iff]
  rintro ⟨p, unknown⟩
  exact state_ne_unknown known p (subsumes_iff.mp refines p _ unknown)

theorem blendStates_unknown (s : Option LiteralState) :
    blendStates (some .unknown) s = some .unknown := by
  rcases s with _ | s
  · rfl
  · cases s <;> rfl

end Label

namespace RuleContext

variable {ctx : RuleContext} {g : LabeledNetwork} {e : Outlook} {a b c k l m : Label}
  {p q : Proposition} {s : LiteralState}

/-- Whether `p` is only observed once a proposition that is unknown in the outlook is. -/
def Hides (ctx : RuleContext) (e : Outlook) (p : Proposition) : Prop :=
  ∃ q, e q = .unknown ∧ (ctx.children q).contains p = true

def Sees (ctx : RuleContext) (e : Outlook) (p : Proposition) : Prop :=
  e p ≠ .unknown ∧ ¬ ctx.Hides e p

/-- Whether the label agrees with what the outlook sees. -/
def Applies (ctx : RuleContext) (e : Outlook) (l : Label) : Prop :=
  ∀ p s, ctx.Sees e p → l.state p = some s → e p = s

/-- Whether the outlook sees the literals of the label. -/
def Grants (ctx : RuleContext) (e : Outlook) (l : Label) : Prop :=
  ∀ p s, l.state p = some s → ctx.Sees e p ∧ e p = s

/-- Whether `p` is only observed once an unknown literal of the label is decided. -/
def IsHidden (ctx : RuleContext) (l : Label) (p : Proposition) : Prop :=
  ∃ q, l.state q = some .unknown ∧ (ctx.children q).contains p = true

/-- Whether the label has the literals of the observer of each proposition that it mentions. -/
def ClosedLabel (ctx : RuleContext) (g : LabeledNetwork) (l : Label) : Prop :=
  ∀ n p, (g.nodeD n).observed = some p → l.mentions p = true →
    l.subsumes (ctx.nodeLabel g n) = true

/-- Whether the labels of the nodes say consistently what is observed once what is. -/
structure Nested (ctx : RuleContext) (g : LabeledNetwork) : Prop where
  known : ∀ n, (ctx.nodeLabel g n).hasUnknown = false
  closed : ∀ n, ctx.ClosedLabel g (ctx.nodeLabel g n)
  own : ∀ n p, (g.nodeD n).observed = some p → (ctx.nodeLabel g n).mentions p = false
  children : ∀ p q, (ctx.children p).contains q = true ↔
    ∃ n, (g.nodeD n).observed = some q ∧ (ctx.nodeLabel g n).mentions p = true

section Dropping

theorem contains_children_of_off (off : ctx.withNodeLabels = false) (p q : Proposition) :
    (ctx.children p).contains q = false := by
  rw [children, if_neg (Bool.eq_false_iff.mp off)]
  exact PropositionSet.contains_empty q

theorem state_dropChildrenOfUnknown_of_isHidden (hidden : ctx.IsHidden l p) :
    (ctx.dropChildrenOfUnknown l).state p = none := by
  obtain ⟨q, unknown, child⟩ := hidden
  unfold dropChildrenOfUnknown
  split
  · rw [Label.state_eraseAll, if_pos]
    refine (PropositionSet.contains_foldl_union _ _ _ _).mpr (Or.inr ⟨q, ?_, child⟩)
    simpa using unknown
  · rename_i off
    rw [contains_children_of_off (Bool.eq_false_iff.mpr off)] at child
    cases child

theorem state_dropChildrenOfUnknown (seen : ¬ ctx.IsHidden l p) :
    (ctx.dropChildrenOfUnknown l).state p = l.state p := by
  unfold dropChildrenOfUnknown
  split
  · rw [Label.state_eraseAll, if_neg]
    intro dropped
    rcases (PropositionSet.contains_foldl_union _ _ _ _).mp dropped with nothing | ⟨q, mem, child⟩
    · simp at nothing
    · exact seen ⟨q, by simpa using mem, child⟩
  · rfl

theorem subsumes_dropChildrenOfUnknown (ctx : RuleContext) (l : Label) :
    l.subsumes (ctx.dropChildrenOfUnknown l) = true := by
  refine Label.subsumes_iff.mpr fun p s stated => ?_
  by_cases hidden : ctx.IsHidden l p
  · rw [state_dropChildrenOfUnknown_of_isHidden hidden] at stated
    cases stated
  · rwa [state_dropChildrenOfUnknown hidden] at stated

end Dropping

namespace Nested

theorem irrefl (nested : ctx.Nested g) (p : Proposition) : (ctx.children p).contains p = false := by
  rw [Bool.eq_false_iff]
  intro child
  obtain ⟨n, observes, mentioned⟩ := (nested.children p p).mp child
  rw [nested.own n p observes] at mentioned
  cases mentioned

/-- What a closed label mentions, it mentions along with all that has to be observed before. -/
theorem mentions_of_child (nested : ctx.Nested g) (closed : ctx.ClosedLabel g l)
    (child : (ctx.children p).contains q = true) (mentioned : l.mentions q = true) :
    l.mentions p = true := by
  obtain ⟨n, observes, needed⟩ := (nested.children p q).mp child
  exact Label.mentions_of_subsumes (closed n q observes mentioned) needed

theorem trans (nested : ctx.Nested g) {r : Proposition}
    (first : (ctx.children p).contains q = true) (second : (ctx.children q).contains r = true) :
    (ctx.children p).contains r = true := by
  obtain ⟨n, observes, needed⟩ := (nested.children q r).mp second
  exact (nested.children p r).mpr
    ⟨n, observes, nested.mentions_of_child (nested.closed n) first needed⟩

theorem wellFounded (nested : ctx.Nested g) :
    WellFounded fun p q => (ctx.children p).contains q = true := by
  have : IsTrans Proposition fun p q => (ctx.children p).contains q = true :=
    ⟨fun _ _ _ => nested.trans⟩
  have : Std.Irrefl fun p q : Proposition => (ctx.children p).contains q = true :=
    ⟨fun p => Bool.eq_false_iff.mp (nested.irrefl p)⟩
  exact Finite.wellFounded_of_trans_of_irrefl _

/-- What is hidden stays hidden when the hidden literals are dropped: the outermost unknown one stays.
-/
theorem isHidden_dropChildrenOfUnknown (nested : ctx.Nested g) (hidden : ctx.IsHidden l p) :
    ctx.IsHidden (ctx.dropChildrenOfUnknown l) p := by
  obtain ⟨q, unknown, child⟩ := hidden
  induction q using nested.wellFounded.induction with
  | _ q ih =>
    by_cases inner : ctx.IsHidden l q
    · obtain ⟨r, unknown', child'⟩ := inner
      exact ih r child' unknown' (nested.trans child' child)
    · exact ⟨q, (state_dropChildrenOfUnknown inner).trans unknown, child⟩

theorem hides (nested : ctx.Nested g) (general : c.subsumes (ctx.dropChildrenOfUnknown l) = true)
    (shows : c.Shows e) (hidden : ctx.IsHidden l p) : ctx.Hides e p := by
  obtain ⟨q, unknown, child⟩ := nested.isHidden_dropChildrenOfUnknown hidden
  exact ⟨q, shows.eq_of_state (Label.subsumes_iff.mp general q _ unknown), child⟩

theorem sees_of_child (nested : ctx.Nested g) (sees : ctx.Sees e q)
    (child : (ctx.children p).contains q = true) : ctx.Sees e p := by
  refine ⟨fun unknown => sees.2 ⟨p, unknown, child⟩, ?_⟩
  rintro ⟨r, unknown, child'⟩
  exact sees.2 ⟨r, unknown, nested.trans child' child⟩

end Nested

section Applying

theorem Applies.mono (applies : ctx.Applies e a) (general : a.subsumes b = true) :
    ctx.Applies e b :=
  fun p s sees stated => applies p s sees (Label.subsumes_iff.mp general p s stated)

theorem Applies.of_shows (shows : l.Shows e) : ctx.Applies e l :=
  fun _ _ _ stated => shows.eq_of_state stated

theorem Applies.blend (first : ctx.Applies e a) (second : ctx.Applies e b) :
    ctx.Applies e (a.blend b) := by
  intro p s sees stated
  rw [Label.state_blend] at stated
  cases left : a.state p with
  | none =>
    rw [left] at stated
    exact second p s sees stated
  | some s' =>
    cases right : b.state p with
    | none =>
      rw [left, right] at stated
      exact first p s sees (left.trans stated)
    | some t =>
      have here := first p s' sees left
      rw [left, right, ← here, ← second p t sees right] at stated
      simpa [Label.blendStates] using stated

theorem Applies.drop (applies : ctx.Applies e l) : ctx.Applies e (ctx.dropChildrenOfUnknown l) :=
  applies.mono (ctx.subsumes_dropChildrenOfUnknown l)

theorem Grants.applies (grants : ctx.Grants e l) : ctx.Applies e l :=
  fun p s _ stated => (grants p s stated).2

theorem sees_of_knows (knows : e.Knows) (p : Proposition) : ctx.Sees e p :=
  ⟨knows p, fun ⟨q, unknown, _⟩ => knows q unknown⟩

theorem Applies.hasUnknown (applies : ctx.Applies e l) (knows : e.Knows) :
    l.hasUnknown = false := by
  rw [← Bool.not_eq_true, Label.hasUnknown_iff]
  rintro ⟨p, unknown⟩
  exact knows p (applies p _ (sees_of_knows knows p) unknown)

theorem Applies.and? (first : ctx.Applies e a) (second : ctx.Applies e b) (knows : e.Knows) :
    a.and? b = some (a.blend b) := by
  refine Label.and?_eq_some_iff.mpr ⟨fun p s t left right => ?_, rfl⟩
  rw [← first p s (sees_of_knows knows p) left, ← second p t (sees_of_knows knows p) right]

theorem Applies.and?_of_grants (applies : ctx.Applies e a) (grants : ctx.Grants e k) :
    a.and? k = some (a.blend k) := by
  refine Label.and?_eq_some_iff.mpr ⟨fun p s t left right => ?_, rfl⟩
  obtain ⟨sees, same⟩ := grants p t right
  rw [← applies p s sees left, same]

theorem Applies.withEndpoints? {u v : NodeId} (applies : ctx.Applies e l)
    (source : ctx.Grants e (ctx.nodeLabel g u)) (target : ctx.Grants e (ctx.nodeLabel g v)) :
    ∃ c, ctx.withEndpoints? g u v l = some c ∧ ctx.Applies e c ∧
      ∀ p, c.mentions p = true → l.mentions p = true ∨ (ctx.nodeLabel g u).mentions p = true ∨
        (ctx.nodeLabel g v).mentions p = true := by
  have first := applies.and?_of_grants source
  have both := applies.blend source.applies
  have second := both.and?_of_grants target
  refine ⟨_, ?_, both.blend target.applies, fun p mentioned => ?_⟩
  · rw [RuleContext.withEndpoints?, first, Option.bind_some, second]
  · rcases Label.mentions_and? second mentioned with before | there
    · exact (Label.mentions_and? first before).imp_right Or.inl
    · exact Or.inr (Or.inr there)

/-- An outlook grants a node label if it is shown by a label that has its literals. -/
theorem Nested.grants (nested : ctx.Nested g) {n : NodeId} (shows : c.Shows e)
    (general : c.subsumes (ctx.nodeLabel g n) = true) : ctx.Grants e (ctx.nodeLabel g n) := by
  intro p s stated
  have here : ∀ q t, (ctx.nodeLabel g n).state q = some t → e q = t ∧ t ≠ .unknown := by
    intro q t needed
    refine ⟨shows.eq_of_state (Label.subsumes_iff.mp general q t needed), ?_⟩
    rintro rfl
    exact Label.state_ne_unknown (nested.known n) q needed
  obtain ⟨same, known⟩ := here p s stated
  refine ⟨⟨by rwa [same], ?_⟩, same⟩
  rintro ⟨q, unknown, child⟩
  -- What has to be observed before `p` is in the label, too.
  have mentioned := nested.mentions_of_child (nested.closed n) child
    (by rw [Label.mentions_eq, stated]; rfl)
  rw [Label.mentions_eq, Option.isSome_iff_exists] at mentioned
  obtain ⟨t, needed⟩ := mentioned
  obtain ⟨same', known'⟩ := here q t needed
  exact known' (same'.symm.trans unknown)

end Applying

/-- Whether `c` has what the labels `a` and `b` combine to, but for the propositions that are `gone`,
along with what is only observed once they are. -/
structure Combines (ctx : RuleContext) (gone : Proposition → Prop) (a b c : Label) : Prop where
  closed : ∀ p q, gone p → (ctx.children p).contains q = true → gone q
  combined : ∃ m : Label, c.subsumes (ctx.dropChildrenOfUnknown m) = true ∧
    ∀ p, ¬ gone p → m.state p = Label.blendStates (a.state p) (b.state p)

namespace Combines

variable {gone : Proposition → Prop}

theorem symm (combines : ctx.Combines gone a b c) : ctx.Combines gone b a c := by
  obtain ⟨closed, m, general, states⟩ := combines
  exact ⟨closed, m, general, fun p kept => (states p kept).trans (Label.blendStates_comm _ _)⟩

/-- The first of two labels shows an outlook that agrees with one of their combination on what that one
sees. -/
theorem sees_left (combines : ctx.Combines gone a b c) (nested : ctx.Nested g) (shows : c.Shows e)
    (kept : ¬ gone p) (sees : ctx.Sees e p) :
    ctx.Sees (a.view (b.view e)) p ∧ a.view (b.view e) p = e p := by
  obtain ⟨closed, m, general, states⟩ := combines
  have open_ : ¬ ctx.IsHidden m p := fun hidden => sees.2 (nested.hides general shows hidden)
  have same : a.view (b.view e) p = e p := by
    have stated := states p kept
    rw [← state_dropChildrenOfUnknown open_] at stated
    have combined : ∀ s, Label.blendStates (a.state p) (b.state p) = some s → e p = s :=
      fun s blended => shows.eq_of_state (Label.subsumes_iff.mp general p s (stated.trans blended))
    -- If both labels mention `p` they agree on it: otherwise the blend is unknown there, and `p` not
    -- seen.
    cases left : a.state p with
    | some s =>
      rw [Label.view_of_state left]
      rw [left] at combined
      cases right : b.state p with
      | none =>
        rw [right] at combined
        exact (combined s rfl).symm
      | some t =>
        rw [right] at combined
        by_cases agree : s = t
        · exact (combined s (if_pos agree)).symm
        · exact absurd (combined .unknown (if_neg agree)) sees.1
    | none =>
      rw [Label.view_of_absent left]
      rw [left] at combined
      cases right : b.state p with
      | none =>
        rw [Label.view_of_absent right, LiteralState.decided_of_ne (LiteralState.decided_ne_unknown _),
          LiteralState.decided_of_ne sees.1]
      | some t =>
        rw [right] at combined
        rw [Label.view_of_state right, ← combined t rfl, LiteralState.decided_of_ne sees.1]
  refine ⟨⟨by rw [same]; exact sees.1, ?_⟩, same⟩
  rintro ⟨q, unknown, child⟩
  have left := Label.state_view_of_unknown unknown
  refine open_ ⟨q, ?_, child⟩
  rw [states q fun gone' => kept (closed q p gone' child), left, Label.blendStates_unknown]

/-- A label that applies in the outlook of the first of two labels applies in one of their
combination, unless it mentions what is gone. -/
theorem applies_left (combines : ctx.Combines gone a b c) (nested : ctx.Nested g) (shows : c.Shows e)
    (applies : ctx.Applies (a.view (b.view e)) l)
    (kept : ∀ p, gone p → ctx.Sees e p → l.state p = none) : ctx.Applies e l := by
  intro p s sees stated
  have here : ¬ gone p := fun gone' => by
    rw [kept p gone' sees] at stated
    cases stated
  obtain ⟨sees', same⟩ := combines.sees_left nested shows here sees
  rw [← same]
  exact applies p s sees' stated

end Combines

end RuleContext

end TemporalNetwork
