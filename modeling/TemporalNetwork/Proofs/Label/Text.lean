import TemporalNetwork.Proofs.Label.Grammar

/-!
Reading and writing labels. The reader keeps the label of the tokens it has read and the modifier that
waits. Step by step it either goes on with them or stops at the first fault, so it reads the texts that
are written as tokens which agree, and no others. A label is written as one token for each of its
literals, so it is read back.
-/

namespace TemporalNetwork.Label

variable {a b : Label} {p : Proposition} {s : LiteralState}

/-- What the parser keeps of a modifier that waits. -/
def noted (pending : Option Modifier) : Option (Char × LiteralState) :=
  pending.map fun m => (m.char, m.state)

theorem parseFrom_nil (a : Label) (pending : Option Modifier) :
    parseFrom a (noted pending) [] = match pending with
      | some m => .error (.danglingModifier m.char)
      | none => .ok a := by
  cases pending <;> rfl

theorem parseFrom_modifier (a : Label) (pending : Option Modifier) (m : Modifier) (cs : List Char) :
    parseFrom a (noted pending) (m.char :: cs) = match pending with
      | some n => .error (.danglingModifier n.char)
      | none => parseFrom a (noted (some m)) cs := by
  rw [parseFrom, modifierState?_char]
  cases pending <;> rfl

theorem parseFrom_proposition (a : Label) (pending : Option Modifier) (p : Proposition)
    (cs : List Char) : parseFrom a (noted pending) (p.toChar :: cs) =
      match a.and? (ofLiteral ⟨p, Token.stateOf pending⟩) with
      | none => .error (.contradiction p)
      | some b => parseFrom b (noted none) cs := by
  have state : ((noted pending).map Prod.snd).getD .straight = Token.stateOf pending := by
    cases pending <;> rfl
  rw [parseFrom, modifierState?_toChar, Proposition.ofChar?_toChar, ← state]
  rfl

theorem parseFrom_foreign (a : Label) (pending : Option (Char × LiteralState)) {c : Char}
    (cs : List Char) (noModifier : ∀ m : Modifier, c ≠ m.char)
    (noProposition : ∀ p : Proposition, c ≠ p.toChar) :
    parseFrom a pending (c :: cs) = .error (.invalidProposition c) := by
  have unread : Proposition.ofChar? c = none := by
    rw [Option.eq_none_iff_forall_ne_some]
    intro p read
    exact noProposition p (Proposition.ofChar?_eq_some_iff.mp read)
  rw [parseFrom, modifierState?_eq_none noModifier, unread]

/-- Whether there is nothing wrong before the place where `before` ends. -/
def Clean (before after : List Char) : Prop :=
  ∀ i < before.length, ∀ e, ¬ OffenceAt (before ++ after) i e

theorem Clean.firstOffence {before after : List Char} {e : LabelParseError}
    (clean : Clean before after) (offence : Offence before after e) :
    FirstOffence (before ++ after) e :=
  ⟨before.length, (offenceAt_append before after e).mpr offence, clean⟩

theorem Clean.next {before after : List Char} {c : Char} (clean : Clean before (c :: after))
    (fine : ∀ e, ¬ Offence before (c :: after) e) : Clean (before ++ [c]) after := by
  intro i inside e
  rw [List.append_assoc, List.singleton_append]
  rw [List.length_append, List.length_singleton] at inside
  rcases Nat.lt_or_eq_of_le (Nat.lt_succ_iff.mp inside) with earlier | rfl
  · exact clean i earlier e
  · rw [offenceAt_append]
    exact fine e

theorem Clean.flawless {before : List Char} (clean : Clean before [])
    (fine : ∀ e, ¬ Offence before [] e) (e : LabelParseError) : ¬ FirstOffence before e := by
  rintro ⟨i, offence, _⟩
  rw [← List.append_nil before] at offence
  rcases Nat.lt_or_ge i before.length with inside | beyond
  · exact clean i inside e offence
  · rw [List.append_nil, OffenceAt, List.take_of_length_le beyond,
      List.drop_of_length_le beyond] at offence
    exact fine e offence

/-- Either the whole text has been read as tokens, and nothing is wrong with it, or the error is the
first offence. -/
theorem parseFrom_spec {before after : List Char} {ts : List Token} {pending : Option Modifier}
    (h : Reading before ts pending a) (clean : Clean before after) :
    (∃ l ts', parseFrom a (noted pending) after = .ok l ∧ Reading (before ++ after) ts' none l ∧
      ∀ e, ¬ FirstOffence (before ++ after) e) ∨
    ∃ e, parseFrom a (noted pending) after = .error e ∧ FirstOffence (before ++ after) e := by
  -- By induction on what is left to read; `h` and `clean` say what has been read so far.
  induction after generalizing before ts pending a with
  | nil =>
    rw [parseFrom_nil]
    cases pending with
    | none =>
      have flawless := clean.flawless h.not_offence_end
      rw [List.append_nil]
      exact Or.inl ⟨a, ts, rfl, h, flawless⟩
    | some m =>
      have last := h.getLast?_eq_some_iff.mpr rfl
      exact Or.inr ⟨_, rfl, clean.firstOffence ⟨⟨m, last, rfl⟩, Or.inl rfl⟩⟩
  | cons c after ih =>
    have moved : before ++ c :: after = before ++ [c] ++ after := by simp
    rcases exists_kind c with ⟨m, rfl⟩ | ⟨p, rfl⟩ | ⟨noModifier, noProposition⟩
    · rw [parseFrom_modifier]
      cases pending with
      | none =>
        rw [moved]
        exact ih (h.modifier m) (clean.next (h.not_offence_modifier m))
      | some n =>
        have last := h.getLast?_eq_some_iff.mpr rfl
        exact Or.inr ⟨_, rfl, clean.firstOffence ⟨⟨n, last, rfl⟩, Or.inr ⟨m, rfl⟩⟩⟩
    · rw [parseFrom_proposition]
      cases both : a.and? (ofLiteral ⟨p, Token.stateOf pending⟩) with
      | none =>
        obtain ⟨s, earlier, other⟩ := and?_ofLiteral_eq_none_iff.mp both
        rw [← h.occurs] at earlier
        rw [← h.stateAfter_eq] at other
        exact Or.inr ⟨_, rfl, clean.firstOffence ⟨rfl, s, earlier, other⟩⟩
      | some b =>
        rw [moved]
        exact ih (h.proposition both) (clean.next (h.not_offence_proposition both))
    · rw [parseFrom_foreign a _ after noModifier noProposition]
      exact Or.inr ⟨_, rfl, clean.firstOffence ⟨rfl, noModifier, noProposition⟩⟩

theorem parseFrom_token (a : Label) (t : Token) (cs : List Char) :
    parseFrom a (noted none) (t.chars ++ cs) = match a.and? (ofLiteral t.literal) with
      | none => .error (.contradiction t.proposition)
      | some b => parseFrom b (noted none) cs := by
  obtain ⟨modifier, p⟩ := t
  cases modifier with
  | none => exact parseFrom_proposition a none p cs
  | some m =>
    have first := parseFrom_modifier a none m (p.toChar :: cs)
    exact first.trans (parseFrom_proposition a (some m) p cs)

theorem parseFrom_tokens (a : Label) (ts : List Token) (agree : Agree ts)
    (fits : ∀ t ∈ ts, ∀ s, a.state t.proposition = some s → s = t.state) :
    ∃ l, parseFrom a (noted none) (ts.flatMap Token.chars) = .ok l ∧ ∀ x : Literal,
      l.state x.proposition = some x.state ↔
        a.state x.proposition = some x.state ∨ x ∈ ts.map Token.literal := by
  induction ts generalizing a with
  | nil => exact ⟨a, rfl, by simp⟩
  | cons t ts ih =>
    have others : Agree ts := fun x hx y hy =>
      agree x (List.mem_cons_of_mem t hx) y (List.mem_cons_of_mem t hy)
    rw [List.flatMap_cons, parseFrom_token]
    cases both : a.and? (ofLiteral t.literal) with
    | none =>
      obtain ⟨s, here, other⟩ := and?_ofLiteral_eq_none_iff.mp both
      exact absurd (fits t List.mem_cons_self s here) other
    | some b =>
      have literals : ∀ x : Literal, b.state x.proposition = some x.state ↔
          a.state x.proposition = some x.state ∨ x = t.literal := by
        intro x
        rw [state_and?_iff both, state_ofLiteral]
        obtain ⟨q, s⟩ := x
        simp [Token.literal, Token.state, eq_comm]
      have fits' : ∀ u ∈ ts, ∀ s, b.state u.proposition = some s → s = u.state := by
        intro u mem s stated
        rcases (literals ⟨u.proposition, s⟩).mp stated with before | new
        · exact fits u (List.mem_cons_of_mem t mem) s before
        · have same := agree u (List.mem_cons_of_mem t mem) t List.mem_cons_self
            (congrArg Literal.proposition new)
          exact (congrArg Literal.state new).trans same.symm
      obtain ⟨l, read, all⟩ := ih b others fits'
      refine ⟨l, read, fun x => ?_⟩
      rw [all, literals, List.map_cons, List.mem_cons, or_assoc]

theorem parse_spec (text : String) :
    (∃ l ts, parse text = .ok l ∧ Reading (visible text) ts none l ∧
      ∀ e, ¬ FirstOffence (visible text) e) ∨
    ∃ e, parse text = .error e ∧ FirstOffence (visible text) e := by
  have clean : Clean [] (visible text) := fun i inside => absurd inside (Nat.not_lt_zero i)
  exact parseFrom_spec reading_nil clean

theorem agree_of_label {ts : List Token}
    (stated : ∀ x ∈ ts.map Token.literal, a.state x.proposition = some x.state) : Agree ts := by
  intro x hx y hy same
  have first := stated x.literal (List.mem_map_of_mem hx)
  have second := stated y.literal (List.mem_map_of_mem hy)
  have states : some x.state = some y.state :=
    first.symm.trans ((congrArg a.state same).trans second)
  exact Option.some.inj states

/-- A text is read as a label if it consists of tokens that agree, and the label has their literals. -/
theorem parse_eq_ok_iff {text : String} {l : Label} : parse text = .ok l ↔
    ∃ ts, visible text = ts.flatMap Token.chars ∧ Agree ts ∧
      ∀ x, x ∈ l.literals ↔ x ∈ ts.map Token.literal := by
  constructor
  · intro read
    rcases parse_spec text with ⟨l', ts, read', reading, _⟩ | ⟨e, failed, _⟩
    · rw [read] at read'
      cases read'
      have agree := agree_of_label fun x mem => (reading.literals x).mpr mem
      refine ⟨ts, ?_, agree, fun x => ?_⟩
      · rw [reading.spelled]
        simp
      · rw [mem_literals]
        exact reading.literals x
    · rw [read] at failed
      cases failed
  · rintro ⟨ts, spelled, agree, literals⟩
    obtain ⟨l', read, literals'⟩ := parseFrom_tokens empty ts agree (by simp)
    have same : l' = l := by
      apply ext_state
      intro p
      apply Option.ext
      intro s
      rw [literals' ⟨p, s⟩, ← literals, mem_literals]
      simp
    rw [← spelled, same] at read
    exact read

theorem parse_eq_error_iff {text : String} {e : LabelParseError} :
    parse text = .error e ↔ FirstOffence (visible text) e := by
  rcases parse_spec text with ⟨l, ts, read, _, flawless⟩ | ⟨e', failed, first⟩
  · rw [read]
    exact ⟨nofun, fun offence => absurd offence (flawless e)⟩
  · rw [failed]
    constructor
    · rintro same
      cases same
      exact first
    · intro offence
      rw [first.unique offence]

theorem isSkipped_of_mem_chars {t : Token} {c : Char} (mem : c ∈ t.chars) : isSkipped c = false := by
  have modifier : ∀ m : Modifier, isSkipped m.char = false := by
    intro m
    cases m <;> decide
  have proposition : ∀ p : Proposition, isSkipped p.toChar = false := by decide
  obtain ⟨pending, p⟩ := t
  cases pending with
  | none =>
    rw [List.mem_singleton.mp mem]
    exact proposition p
  | some m =>
    rcases List.mem_cons.mp mem with rfl | last
    · exact modifier m
    · rw [List.mem_singleton.mp last]
      exact proposition p

theorem chars_ofLiteral (x : Literal) : (Token.ofLiteral x).chars = x.text.toList := by
  obtain ⟨p, s⟩ := x
  cases s <;> simp [Token.ofLiteral, Token.chars, Modifier.char, Literal.text, LiteralState.sign,
    Proposition.text]

theorem literal_ofLiteral (x : Literal) : (Token.ofLiteral x).literal = x := by
  obtain ⟨p, s⟩ := x
  cases s <;> rfl

theorem visible_text (l : Label) :
    visible l.text = (l.literals.map Token.ofLiteral).flatMap Token.chars := by
  rw [text]
  split
  · rename_i blank
    rw [isEmpty_iff.mp blank]
    decide
  · have unskipped : ∀ c ∈ (l.literals.map Token.ofLiteral).flatMap Token.chars,
        (!isSkipped c) = true := by
      intro c mem
      obtain ⟨t, _, here⟩ := List.mem_flatMap.mp mem
      rw [isSkipped_of_mem_chars here, Bool.not_false]
    have written : (String.join (l.literals.map Literal.text)).toList =
        (l.literals.map Token.ofLiteral).flatMap Token.chars := by
      simp only [String.toList_join, List.flatMap_map, chars_ofLiteral]
    rw [visible, written, List.filter_eq_self.mpr unskipped]

theorem parse_text (l : Label) : parse l.text = .ok l := by
  have written : (l.literals.map Token.ofLiteral).map Token.literal = l.literals := by
    rw [List.map_map]
    exact (List.map_congr_left fun x _ => literal_ofLiteral x).trans (List.map_id _)
  have agree : Agree (l.literals.map Token.ofLiteral) := by
    apply agree_of_label
    rw [written]
    exact fun x mem => mem_literals.mp mem
  exact parse_eq_ok_iff.mpr ⟨_, visible_text l, agree, fun x => by rw [written]⟩

/-- Reading a label is the inverse of writing one. -/
theorem text_read_exactly (text : String) :
    (∀ l, parse text = .ok l ↔ ∃ ts, visible text = ts.flatMap Token.chars ∧ Agree ts ∧
      ∀ x, x ∈ l.literals ↔ x ∈ ts.map Token.literal) ∧
    (∀ e, parse text = .error e ↔ FirstOffence (visible text) e) ∧
    (∀ l : Label, parse l.text = .ok l) ∧ ∀ l l' : Label, l.text = l'.text → l = l' := by
  refine ⟨fun _ => parse_eq_ok_iff, fun _ => parse_eq_error_iff, parse_text, fun l l' same => ?_⟩
  have read := parse_text l
  rw [same, parse_text l'] at read
  exact (Except.ok.inj read).symm

end TemporalNetwork.Label
