import TemporalNetwork.Proofs.Conditional.Outlook

/-!
What the rules of the consistency check derive, by cases, and which values stay regular: if all values
of a network are representable and have closed labels, so are those that the rules derive.
-/

namespace TemporalNetwork

namespace RuleContext

variable {ctx : RuleContext} {g : LabeledNetwork} {d : Derivation} {x y w : NodeId}
  {α β case : CaseLabel} {a b c l o : Label} {u v t : Value} {p q : Proposition}

/-- The label without `p` and without what is only observed once `p` is. -/
def forget (ctx : RuleContext) (p : Proposition) (l : Label) : Label :=
  (l.erase p).eraseAll (ctx.children p)

/-- Whether `q` is `p` or is only observed once `p` is. -/
def Forgets (ctx : RuleContext) (p q : Proposition) : Prop :=
  q = p ∨ (ctx.children p).contains q = true

theorem state_forget_of_forgets (forgets : ctx.Forgets p q) (l : Label) :
    (ctx.forget p l).state q = none := by
  rw [forget, Label.state_eraseAll, Label.state_erase]
  rcases forgets with rfl | child
  · simp
  · rw [if_pos child]

theorem state_forget (kept : ¬ ctx.Forgets p q) (l : Label) :
    (ctx.forget p l).state q = l.state q := by
  rw [Forgets, not_or] at kept
  rw [forget, Label.state_eraseAll, Label.state_erase, if_neg kept.2, if_neg (Ne.symm kept.1)]

theorem subsumes_forget (ctx : RuleContext) (p : Proposition) (l : Label) :
    l.subsumes (ctx.forget p l) = true :=
  Label.subsumes_trans (l.subsumes_erase p) (Label.subsumes_eraseAll _ _)

theorem forget_subsumes_forget (ctx : RuleContext) (p : Proposition)
    (refines : a.subsumes b = true) : (ctx.forget p a).subsumes (ctx.forget p b) = true := by
  refine Label.subsumes_iff.mpr fun q s stated => ?_
  by_cases forgets : ctx.Forgets p q
  · rw [state_forget_of_forgets forgets] at stated
    cases stated
  · rw [state_forget forgets] at stated ⊢
    exact Label.subsumes_iff.mp refines q s stated

theorem withEndpoints?_subsumes (conjoined : ctx.withEndpoints? g x y l = some c) :
    c.subsumes l = true ∧ c.subsumes (ctx.nodeLabel g x) = true ∧
      c.subsumes (ctx.nodeLabel g y) = true := by
  obtain ⟨m, first, second⟩ := Option.bind_eq_some_iff.mp conjoined
  obtain ⟨left, source⟩ := Label.and?_subsumes first
  obtain ⟨before, target⟩ := Label.and?_subsumes second
  exact ⟨Label.subsumes_trans before left, Label.subsumes_trans before source, target⟩

theorem combine?_eq_some_iff {mayDiffer : Bool} : ctx.combine? mayDiffer a b = some c ↔
    (mayDiffer = true ∨
      a.hasUnknown = false ∧ b.hasUnknown = false ∧ a.and? b = some (a.blend b)) ∧
      c = ctx.dropChildrenOfUnknown (a.blend b) := by
  unfold combine?
  split
  · rename_i differ
    rw [Option.some_inj, eq_comm, and_iff_right (Or.inl differ)]
  · rename_i strict
    split
    · rename_i unknown
      simp only [reduceCtorEq, strict, false_iff]
      rintro ⟨differ | ⟨known, known', _⟩, _⟩
      · cases differ
      · rw [known, known'] at unknown
        simp at unknown
    · rename_i known
      rw [not_or, Bool.not_eq_true, Bool.not_eq_true] at known
      simp only [known.1, known.2, strict, true_and, Bool.false_eq_true, false_or]
      cases both : a.and? b with
      | none => simp
      | some m =>
        obtain rfl := (Label.and?_eq_some_iff.mp both).2
        rw [Option.map_some, Option.some_inj, eq_comm, and_iff_right rfl]

theorem closeLoop?_eq_some_iff {name : String} : closeLoop? name case l t = some d ↔
    t < 0 ∧ case.isEmpty = true ∧
      (l.hasUnknown = true ∧ d = .value .empty l Value.negInf ∨
        l.hasUnknown = false ∧ d = .negativeLoop ⟨name, l, t⟩) := by
  unfold closeLoop?
  split
  · rename_i off
    simp only [reduceCtorEq, false_iff]
    rintro ⟨negative, plain, _⟩
    rcases off with nonneg | lettered
    · exact absurd negative (not_lt.mpr nonneg)
    · rw [plain] at lettered
      cases lettered
  · rename_i on
    rw [not_or, not_le, Bool.not_eq_true, Bool.not_eq_false'] at on
    split
    · rename_i unknown
      simp [on, unknown, eq_comm]
    · rename_i known
      simp [on, Bool.eq_false_iff.mpr known, eq_comm]

theorem propagateValues?_eq_some_iff :
    ctx.propagateValues? g x w (α, a, u) (β, b, v) = some d ↔
      ¬ ((!α.isEmpty) = true ∧ 0 ≤ u ∨ α.intersects β = true) ∧
        (Value.sum? u v = none ∧ d = .sumOverflow u v ∨
          ∃ t c, Value.sum? u v = some t ∧
            ctx.combine? (w = ctx.z ∧ ctx.clamp t < 0 ∧ u < 0) a b = some c ∧
            (x = w ∧ closeLoop? (g.nodeName x) (α ∪ β) c (ctx.clamp t) = some d ∨
              x ≠ w ∧ d = .value (α ∪ β) c (ctx.clamp t))) := by
  unfold propagateValues?
  dsimp only
  split
  · rename_i off
    simp only [reduceCtorEq, off, not_true_eq_false, false_and]
  · rename_i on
    rw [and_iff_right on]
    cases sum : Value.sum? u v with
    | none => simp only [Option.some_inj, reduceCtorEq, true_and, false_and, exists_false, or_false,
        eq_comm]
    | some t =>
      simp only [reduceCtorEq, false_and, false_or, Option.some_inj, exists_and_left, exists_eq_left']
      cases ctx.combine? (w = ctx.z ∧ ctx.clamp t < 0 ∧ u < 0) a b with
      | none => simp only [reduceCtorEq, false_and, exists_false]
      | some c =>
        simp only [Option.some_inj, exists_eq_left']
        by_cases loop : x = w
        · simp only [loop, if_true, ne_eq, not_true_eq_false, true_and, false_and, or_false]
        · simp only [loop, if_false, ne_eq, not_false_eq_true, true_and, false_and, false_or,
            Option.some_inj, eq_comm]

theorem mem_labelPropagation : d ∈ ctx.labelPropagation g x y w ↔
    ctx.isEnabled .labelPropagation = true ∧ x ≠ y ∧ y ≠ w ∧
      ∃ e f, g.edgeBetween? x y = some e ∧ g.edgeBetween? y w = some f ∧
        ∃ first ∈ e.allValues, ∃ second ∈ f.allValues,
          ctx.propagateValues? g x w first second = some d := by
  unfold labelPropagation
  split
  · rename_i off
    simp only [List.not_mem_nil, false_iff]
    rintro ⟨enabled, apart, apart', _⟩
    simp [enabled, apart, apart'] at off
  · rename_i on
    rw [not_or, not_or, Bool.not_eq_true', Bool.not_eq_false] at on
    split
    · rename_i e f joined joined'
      simp only [List.mem_flatMap, List.mem_filterMap, on, ne_eq, not_false_eq_true, true_and, joined,
        joined', Option.some.injEq, exists_and_left, exists_eq_left']
    · rename_i unjoined
      simp only [List.not_mem_nil, false_iff]
      rintro ⟨_, _, _, e, f, joined, joined', _⟩
      exact unjoined e f joined joined'

theorem stripObserved?_eq_some_iff :
    ctx.stripObserved? g x w p (case, l, v) = some d ↔
      v ≤ 0 ∧ l.mentions p = true ∧ (w ≠ ctx.z → l.hasUnknown = false) ∧
        ∃ c, ctx.withEndpoints? g x w (ctx.forget p l) = some c ∧ c.mentions p = false ∧
          d = .value case c v := by
  unfold stripObserved?
  dsimp only
  rw [← forget]
  split
  · rename_i off
    simp only [reduceCtorEq, false_iff]
    rintro ⟨early, mentioned, known, _⟩
    rcases off with late | absent | ⟨away, unknown⟩
    · exact absurd early (not_le.mpr late)
    · simp [mentioned] at absent
    · simp [known away] at unknown
  · rename_i on
    simp only [not_or, not_lt, Bool.not_eq_true', Bool.not_eq_false, not_and,
      Bool.not_eq_true] at on
    simp only [on.1, on.2.1, true_and]
    cases conjoined : ctx.withEndpoints? g x w (ctx.forget p l) with
    | none => simp
    | some c =>
      -- A label that does not mention `p` is another one.
      by_cases mentioned : c.mentions p = true
      · simp [mentioned]
      · have other : c ≠ l := by
          rintro rfl
          exact mentioned on.2.1
        rw [and_iff_right on.2.2]
        simp only [mentioned, other, Bool.false_eq_true, or_self, if_false, Option.some_inj,
          exists_eq_left', true_and, eq_comm]

theorem mem_r0 : d ∈ ctx.r0 g x w ↔
    x ≠ w ∧ ctx.isEnabled (ctx.r0Name w) = true ∧
      ∃ p e, (g.nodeD x).observed = some p ∧ g.edgeBetween? x w = some e ∧
        ∃ value ∈ e.allValues, ctx.stripObserved? g x w p value = some d := by
  unfold r0
  split
  · rename_i off
    simp only [List.not_mem_nil, false_iff]
    rintro ⟨apart, enabled, _⟩
    simp [enabled, apart] at off
  · rename_i on
    rw [not_or, Bool.not_eq_true', Bool.not_eq_false] at on
    split
    · rename_i p e observes joined
      simp only [List.mem_filterMap, on, ne_eq, not_false_eq_true, true_and, observes, joined,
        Option.some.injEq, exists_and_left, exists_eq_left']
    · rename_i neither
      simp only [List.not_mem_nil, false_iff]
      rintro ⟨_, _, p, e, observes, joined, _⟩
      exact neither p e observes joined

theorem observeValue?_eq_some_iff :
    ctx.observeValue? g x w p (case, l, v) (o, t) = some d ↔
      t ≤ 0 ∧ o.mentions p = false ∧
        (w = ctx.z ∨ o.hasUnknown = false ∧ (l.erase p).and? o = some ((l.erase p).blend o)) ∧
        ∃ c, ctx.withEndpoints? g x w (ctx.dropChildrenOfUnknown
            (((l.erase p).blend o).eraseAll (ctx.children p))) = some c ∧
          c.mentions p = false ∧ d = .value case c (max v t) := by
  unfold observeValue?
  dsimp only
  split
  · rename_i off
    simp only [reduceCtorEq, false_iff]
    rintro ⟨early, absent, _⟩
    rcases off with late | mentioned
    · exact absurd early (not_le.mpr late)
    · simp [absent] at mentioned
  · rename_i on
    rw [not_or, not_lt, Bool.not_eq_true] at on
    rw [and_iff_right on.1, and_iff_right on.2]
    by_cases agree : w = ctx.z ∨
        o.hasUnknown = false ∧ (l.erase p).and? o = some ((l.erase p).blend o)
    -- Towards Z the labels may contradict each other, elsewhere they have to agree.
    · have combined : (if w = ctx.z then some ((l.erase p).blend o)
          else if o.hasUnknown then none else (l.erase p).and? o) = some ((l.erase p).blend o) := by
        split
        · rfl
        · rename_i away
          obtain ⟨known, both⟩ := agree.resolve_left away
          rw [known, if_neg Bool.false_ne_true, both]
      rw [combined, Option.bind_some, and_iff_right agree]
      cases ctx.withEndpoints? g x w (ctx.dropChildrenOfUnknown
          (((l.erase p).blend o).eraseAll (ctx.children p))) with
      | none => simp
      | some c =>
        by_cases mentioned : c.mentions p = true
        · simp [mentioned]
        · simp only [mentioned, Bool.false_eq_true, if_false, Option.some_inj, exists_eq_left',
            true_and, eq_comm]
    · have combined : (if w = ctx.z then some ((l.erase p).blend o)
          else if o.hasUnknown then none else (l.erase p).and? o) = none := by
        rw [not_or] at agree
        rw [if_neg agree.1]
        split
        · rfl
        · rename_i known
          cases both : (l.erase p).and? o with
          | none => rfl
          | some m =>
            obtain rfl := (Label.and?_eq_some_iff.mp both).2
            exact absurd ⟨Bool.eq_false_iff.mpr known, both⟩ agree.2
      rw [combined]
      simp [agree]

section Closed

variable {k : Label}

theorem Forgets.child {r : Proposition} (nested : ctx.Nested g) (forgets : ctx.Forgets p q)
    (child : (ctx.children q).contains r = true) : ctx.Forgets p r := by
  rcases forgets with rfl | before
  · exact Or.inr child
  · exact Or.inr (nested.trans before child)

/-- A closed label that does not mention `p` mentions nothing that is only observed once `p` is. -/
theorem Nested.mentions_of_forgets (nested : ctx.Nested g) (closed : ctx.ClosedLabel g l)
    (forgets : ctx.Forgets p q) (mentioned : l.mentions q = true) : l.mentions p = true := by
  rcases forgets with rfl | child
  · exact mentioned
  · exact nested.mentions_of_child closed child mentioned

theorem Nested.state_of_forgets (nested : ctx.Nested g) (closed : ctx.ClosedLabel g l)
    (absent : l.mentions p = false) (forgets : ctx.Forgets p q) : l.state q = none := by
  rw [← Option.isNone_iff_eq_none, ← Option.isSome_eq_false_iff, ← Label.mentions_eq,
    ← Bool.not_eq_true]
  intro mentioned
  rw [nested.mentions_of_forgets closed forgets mentioned] at absent
  cases absent

theorem forget_eq_self (nested : ctx.Nested g) (closed : ctx.ClosedLabel g l)
    (absent : l.mentions p = false) : ctx.forget p l = l := by
  refine Label.ext_state fun q => ?_
  by_cases forgets : ctx.Forgets p q
  · rw [state_forget_of_forgets forgets, nested.state_of_forgets closed absent forgets]
  · exact state_forget forgets l

/-- What the observer of a proposition needs does not mention what comes after it. -/
theorem Nested.kept_of_needed (nested : ctx.Nested g) {n : NodeId} {r : Proposition}
    (observes : (g.nodeD n).observed = some q) (kept : ¬ ctx.Forgets p q)
    (needed : (ctx.nodeLabel g n).mentions r = true) : ¬ ctx.Forgets p r := fun forgets =>
  kept (forgets.child nested ((nested.children r q).mpr ⟨n, observes, needed⟩))

theorem ClosedLabel.forget (closed : ctx.ClosedLabel g l) (nested : ctx.Nested g)
    (p : Proposition) : ctx.ClosedLabel g (ctx.forget p l) := by
  intro n q observes mentioned
  have kept : ¬ ctx.Forgets p q := fun forgets => by
    rw [Label.mentions_eq, state_forget_of_forgets forgets] at mentioned
    cases mentioned
  rw [Label.mentions_eq, state_forget kept, ← Label.mentions_eq] at mentioned
  refine Label.subsumes_iff.mpr fun r s needed => ?_
  have kept' := nested.kept_of_needed observes kept
    (by rw [Label.mentions_eq, needed]; rfl : (ctx.nodeLabel g n).mentions r = true)
  rw [state_forget kept']
  exact Label.subsumes_iff.mp (closed n q observes mentioned) r s needed

theorem ClosedLabel.and? (first : ctx.ClosedLabel g a) (second : ctx.ClosedLabel g b)
    (both : a.and? b = some c) : ctx.ClosedLabel g c := by
  intro n q observes mentioned
  obtain ⟨left, right⟩ := Label.and?_subsumes both
  rcases Label.mentions_and? both mentioned with here | there
  · exact Label.subsumes_trans left (first n q observes here)
  · exact Label.subsumes_trans right (second n q observes there)

theorem ClosedLabel.withEndpoints? (closed : ctx.ClosedLabel g l) (nested : ctx.Nested g)
    (conjoined : ctx.withEndpoints? g x y l = some c) : ctx.ClosedLabel g c := by
  obtain ⟨m, first, second⟩ := Option.bind_eq_some_iff.mp conjoined
  exact (closed.and? (nested.closed x) first).and? (nested.closed y) second

/-- Two closed labels combine to a closed one: where they contradict what the observer of a proposition
needs, the proposition is dropped. -/
theorem ClosedLabel.blend (first : ctx.ClosedLabel g a) (second : ctx.ClosedLabel g b)
    (nested : ctx.Nested g) : ctx.ClosedLabel g (ctx.dropChildrenOfUnknown (a.blend b)) := by
  intro n q observes mentioned
  have seen : ¬ ctx.IsHidden (a.blend b) q := fun hidden => by
    rw [Label.mentions_eq, state_dropChildrenOfUnknown_of_isHidden hidden] at mentioned
    cases mentioned
  rw [Label.mentions_eq, state_dropChildrenOfUnknown seen, ← Label.mentions_eq] at mentioned
  have either : a.subsumes (ctx.nodeLabel g n) = true ∨ b.subsumes (ctx.nodeLabel g n) = true := by
    rw [Label.mentions_eq, Label.state_blend] at mentioned
    cases left : a.state q with
    | some s => exact Or.inl (first n q observes (by rw [Label.mentions_eq, left]; rfl))
    | none =>
      rw [left] at mentioned
      exact Or.inr (second n q observes (by rwa [Label.mentions_eq]))
  refine Label.subsumes_iff.mpr fun r s needed => ?_
  have child : (ctx.children r).contains q = true := (nested.children r q).mpr
    ⟨n, observes, by rw [Label.mentions_eq, needed]; rfl⟩
  -- What the observer needs is seen, as it is observed before `q`; so the blend is not unknown there.
  have seen' : ¬ ctx.IsHidden (a.blend b) r := fun ⟨o, unknown, child'⟩ =>
    seen ⟨o, unknown, nested.trans child' child⟩
  have blended : (a.blend b).state r = some s ∨ (a.blend b).state r = some .unknown := by
    rw [Label.state_blend]
    rcases either with here | there
    · rw [Label.subsumes_iff.mp here r s needed]
      cases b.state r with
      | none => exact Or.inl rfl
      | some t => exact (em (s = t)).imp (fun same => if_pos same) fun apart => if_neg apart
    · rw [Label.subsumes_iff.mp there r s needed, Label.blendStates_comm]
      cases a.state r with
      | none => exact Or.inl rfl
      | some t => exact (em (s = t)).imp (fun same => if_pos same) fun apart => if_neg apart
  rw [state_dropChildrenOfUnknown seen']
  exact blended.resolve_right fun unknown => seen ⟨r, unknown, child⟩

theorem eraseAll_blend (nested : ctx.Nested g) (closed : ctx.ClosedLabel g o)
    (absent : o.mentions p = false) :
    ((l.erase p).blend o).eraseAll (ctx.children p) = (ctx.forget p l).blend o := by
  refine Label.ext_state fun q => ?_
  rw [Label.state_eraseAll, Label.state_blend, Label.state_blend, RuleContext.forget,
    Label.state_eraseAll]
  split
  · rename_i child
    rw [nested.state_of_forgets closed absent (Or.inr child)]
    rfl
  · rfl

theorem ClosedLabel.join {literal : Literal} (first : ctx.ClosedLabel g l)
    (flips : literal ∈ ValueMap.flippable l)
    (second : ctx.ClosedLabel g (l.replace literal.complement)) :
    ctx.ClosedLabel g (l.erase literal.proposition) := by
  intro n q observes mentioned
  have here := Label.mentions_of_subsumes (l.subsumes_erase literal.proposition) mentioned
  exact Label.erase_subsumes_of_twin flips (first n q observes here) (Label.subsumes_refl _)
    (second n q observes ((Label.mentions_replace flips q).trans here))

end Closed

/-- Whether the value is representable and its label closed. -/
def RegularValue (ctx : RuleContext) (g : LabeledNetwork) : ValueProperty := fun _ _ _ label value =>
  value.InRange ∧ ctx.ClosedLabel g label

theorem inRange_max (first : u.InRange) (second : v.InRange) : Value.InRange (max u v) :=
  ⟨le_max_of_le_left first.1, max_le first.2 second.2⟩

theorem joinsTwins_regularValue (ctx : RuleContext) (g : LabeledNetwork) (x y : NodeId) :
    JoinsTwins (ctx.RegularValue g x y) (ctx.RegularValue g x y) where
  stored _ _ _ := id
  joined _ _ _ _ _ new flips twin := ⟨inRange_max new.1 twin.1, new.2.join flips twin.2⟩

theorem inRange_of_sum? (sum : Value.sum? u v = some t) : t.InRange := by
  have small : (Value.negInf : Value) ≤ Value.posInf := by decide
  rcases Value.sum?_cases sum with ⟨_, rfl⟩ | ⟨_, _, _, rfl⟩ | ⟨_, inside, _⟩
  · exact ⟨small, le_rfl⟩
  · exact ⟨le_rfl, small⟩
  · exact ⟨inside.1.le, inside.2.le⟩

theorem clamp_inRange (sum : Value.sum? u v = some t) : (ctx.clamp t).InRange := by
  unfold clamp
  split
  · exact ⟨le_rfl, by decide⟩
  · exact inRange_of_sum? sum

section Regular

variable {h : LabeledNetwork}

theorem regularValue_congr (nodes : ∀ n, h.nodeD n = g.nodeD n) :
    ctx.RegularValue h = ctx.RegularValue g := by
  funext _ _ _ label value
  simp only [RegularValue, ClosedLabel, nodeLabel, nodes]

theorem Nested.congr (nested : ctx.Nested g) (nodes : ∀ n, h.nodeD n = g.nodeD n) :
    ctx.Nested h := by
  obtain ⟨known, closed, own, children⟩ := nested
  constructor <;> simpa only [ClosedLabel, nodeLabel, nodes]

/-- What is derived without links: from a value on the edge of an observer, from a value and an observation
into the same node, or from the two values of a path. -/
inductive Derives (ctx : RuleContext) (g : LabeledNetwork) : NodeId → NodeId → Derivation → Prop
  | strip {x w : NodeId} {e : LabeledEdge} {case : CaseLabel} {l : Label} {v : Value}
    {p : Proposition} {d : Derivation} (apart : x ≠ w) (observes : (g.nodeD x).observed = some p)
    (joined : g.edgeBetween? x w = some e) (stored : (case, l, v) ∈ e.allValues)
    (made : ctx.stripObserved? g x w p (case, l, v) = some d) : Derives ctx g x w d
  | observe {n x w : NodeId} {e f : LabeledEdge} {case : CaseLabel} {l o : Label} {v t : Value}
    {p : Proposition} {d : Derivation} (apart : x ≠ w) (other : n ≠ x) (other' : n ≠ w)
    (observes : (g.nodeD n).observed = some p)
    (joined : g.edgeBetween? x w = some e) (stored : (case, l, v) ∈ e.allValues)
    (joined' : g.edgeBetween? n w = some f) (stored' : (.empty, o, t) ∈ f.allValues)
    (observable : ctx.isObservable w p f.values l = true)
    (made : ctx.observeValue? g x w p (case, l, v) (o, t) = some d) : Derives ctx g x w d
  | path {x y w : NodeId} {e f : LabeledEdge} {α β : CaseLabel} {a b : Label} {u v : Value}
    {d : Derivation} (toZ : ctx.onlyToZ = true → w = ctx.z) (apart : x ≠ y) (apart' : y ≠ w)
    (joined : g.edgeBetween? x y = some e) (stored : (α, a, u) ∈ e.allValues)
    (joined' : g.edgeBetween? y w = some f) (stored' : (β, b, v) ∈ f.allValues)
    (made : ctx.propagateValues? g x w (α, a, u) (β, b, v) = some d) : Derives ctx g x w d

theorem derives_of_mem (unlinked : ctx.links = []) (wf : g.WellFormed) {a : Application}
    (possible : a.Possible ctx) (derived : d ∈ a.derivations ctx g) :
    ctx.Derives g a.source a.target d := by
  cases a with
  | r0 observer target =>
    obtain ⟨apart, _, p, e, observes, joined, ⟨case, l, v⟩, stored, made⟩ := mem_r0.mp derived
    exact .strip apart observes joined stored made
  | r3 source target =>
    obtain ⟨apart, _, e, joined, p, m, observations, ⟨case, l, v⟩, stored, _, observable, ⟨o, t⟩,
      stored', made⟩ := mem_r3.mp derived
    obtain ⟨observer, f, other, other', observes, joined', _, rfl⟩ :=
      (mem_observationsInto wf (wf.lt_of_edgeBetween? joined).2).mp observations
    exact .observe apart other other' observes joined stored joined'
      (LabeledEdge.mem_allValues.mpr (Or.inl ⟨rfl, stored'⟩)) observable made
  | labelPropagation x y w =>
    obtain ⟨_, apart, apart', e, f, joined, joined', ⟨α, a, u⟩, stored, ⟨β, b, v⟩, stored', made⟩ :=
      mem_labelPropagation.mp derived
    exact .path possible apart apart' joined stored joined' stored' made
  | crossLowerCase activation contingent w => exact absurd unlinked possible
  | letterRemoval x activation =>
    rw [Application.derivations, Propagation.letterRemoval_of_no_links unlinked] at derived
    cases derived

theorem Nested.regular_derivations (nested : ctx.Nested g)
    (regular : g.EveryValue (ctx.RegularValue g)) (derived : ctx.Derives g x w (.value case l t)) :
    ctx.RegularValue g x w case l t := by
  cases derived with
  | strip _ _ joined stored made =>
    obtain ⟨_, _, _, c, conjoined, _, same⟩ := stripObserved?_eq_some_iff.mp made
    cases same
    obtain ⟨range, closed⟩ := regular _ _ _ joined _ _ _ stored
    exact ⟨range, (closed.forget nested _).withEndpoints? nested conjoined⟩
  | observe _ _ _ _ joined stored joined' stored' _ made =>
    obtain ⟨_, absent, _, c, conjoined, _, same⟩ := observeValue?_eq_some_iff.mp made
    cases same
    obtain ⟨range, closed⟩ := regular _ _ _ joined _ _ _ stored
    obtain ⟨range', closed'⟩ := regular _ _ _ joined' _ _ _ stored'
    rw [eraseAll_blend nested closed' absent] at conjoined
    exact ⟨inRange_max range range',
      ((closed.forget nested _).blend closed' nested).withEndpoints? nested conjoined⟩
  | path _ _ _ joined stored joined' stored' made =>
    obtain ⟨_, ⟨_, overflow⟩ | ⟨t', c, sum, combined, ends⟩⟩ := propagateValues?_eq_some_iff.mp made
    · cases overflow
    -- Whatever is done with the sum, its label is the blend of two closed ones.
    · have closed := (regular _ _ _ joined _ _ _ stored).2.blend
        (regular _ _ _ joined' _ _ _ stored').2 nested
      rw [← (combine?_eq_some_iff.mp combined).2] at closed
      rcases ends with ⟨_, loop⟩ | ⟨_, same⟩
      · obtain ⟨_, _, ⟨_, same⟩ | ⟨_, same⟩⟩ := closeLoop?_eq_some_iff.mp loop
        · cases same
          exact ⟨by decide, closed⟩
        · cases same
      · cases same
        exact ⟨clamp_inRange sum, closed⟩

end Regular

end RuleContext

end TemporalNetwork
