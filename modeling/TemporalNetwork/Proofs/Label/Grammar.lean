import TemporalNetwork.Label.Text
import TemporalNetwork.Proofs.Label.Algebra

/-!
The written form of labels. A label is written as tokens: propositions with at most one modifier before
each. What is wrong with a text is said of the places in it, each of which has characters before it and
after it: a character that means nothing, a modifier that no proposition follows, a proposition that
contradicts an earlier one.

A text that has been read up to some place without a fault consists of tokens there, perhaps with a
modifier that still waits for its proposition (`Reading`). Each further character either goes on with
them or is at fault.
-/

namespace TemporalNetwork

/-- Either state but the straight one can be written in two ways. -/
inductive Modifier where
  | notSign
  | exclamationMark
  | invertedQuestionMark
  | questionMark
  deriving DecidableEq, Repr

namespace Modifier

def char : Modifier → Char
  | notSign => '¬'
  | exclamationMark => '!'
  | invertedQuestionMark => '¿'
  | questionMark => '?'

def state : Modifier → LiteralState
  | notSign => .negated
  | exclamationMark => .negated
  | invertedQuestionMark => .unknown
  | questionMark => .unknown

theorem char_injective {m n : Modifier} (same : m.char = n.char) : m = n := by
  cases m <;> cases n <;> first | rfl | cases same

end Modifier

/-- A proposition with at most one modifier before it. -/
structure Token where
  modifier : Option Modifier
  proposition : Proposition
  deriving DecidableEq, Repr

namespace Token

def stateOf (modifier : Option Modifier) : LiteralState :=
  (modifier.map Modifier.state).getD .straight

def state (t : Token) : LiteralState := stateOf t.modifier

def literal (t : Token) : Literal := ⟨t.proposition, t.state⟩

def chars (t : Token) : List Char :=
  (t.modifier.map Modifier.char).toList ++ [t.proposition.toChar]

/-- The token that a literal is written as. -/
def ofLiteral (l : Literal) : Token where
  modifier := match l.state with
    | .straight => none
    | .negated => some .notSign
    | .unknown => some .invertedQuestionMark
  proposition := l.proposition

end Token

/-- Whether no proposition occurs with two different states. -/
def Agree (ts : List Token) : Prop :=
  ∀ x ∈ ts, ∀ y ∈ ts, x.proposition = y.proposition → x.state = y.state

namespace Proposition

theorem toChar_ne_modifier (p : Proposition) (m : Modifier) : p.toChar ≠ m.char := by
  cases m <;> revert p <;> decide

@[simp] theorem ofChar?_toChar (p : Proposition) : ofChar? p.toChar = some p := by
  revert p
  decide

theorem toChar_injective {p q : Proposition} (same : p.toChar = q.toChar) : p = q := by
  have read := ofChar?_toChar p
  rw [same, ofChar?_toChar] at read
  exact (Option.some.inj read).symm

theorem ofNat?_eq_some {n : Nat} {p : Proposition} (h : ofNat? n = some p) : p.val = n := by
  unfold ofNat? at h
  split at h
  · cases h
    rfl
  · cases h

theorem ofChar?_eq_some_iff {c : Char} {p : Proposition} : ofChar? c = some p ↔ c = p.toChar := by
  constructor
  · intro read
    unfold ofChar? at read
    have code : ∀ n, n = c.toNat → Char.ofNat n = c := by
      rintro n rfl
      exact Char.ofNat_toNat c
    split at read
    · rename_i lower
      have first : 97 ≤ c.toNat := lower.1
      have last : c.toNat ≤ 122 := lower.2
      have index := ofNat?_eq_some read
      rw [toChar, if_pos (by omega)]
      exact (code _ (by omega)).symm
    · split at read
      · rename_i upper
        have first : 65 ≤ c.toNat := upper.1
        have index := ofNat?_eq_some read
        rw [toChar, if_neg (by omega)]
        exact (code _ (by omega)).symm
      · cases read
  · rintro rfl
    exact ofChar?_toChar p

end Proposition

namespace Label

variable {a b : Label} {p : Proposition} {s : LiteralState}

theorem modifierState?_char (m : Modifier) : modifierState? m.char = some m.state := by
  cases m <;> rfl

theorem modifierState?_toChar (p : Proposition) : modifierState? p.toChar = none := by
  revert p
  decide

theorem modifierState?_eq_none {c : Char} (other : ∀ m : Modifier, c ≠ m.char) :
    modifierState? c = none := by
  unfold modifierState?
  split
  · exact absurd rfl (other .notSign)
  · exact absurd rfl (other .exclamationMark)
  · exact absurd rfl (other .invertedQuestionMark)
  · exact absurd rfl (other .questionMark)
  · rfl

/-- The characters of a text without the blanks and the signs of the empty label. -/
def visible (s : String) : List Char := s.toList.filter fun c => !isSkipped c

/-- The state of a proposition that comes after `before`. -/
def stateAfter (before : List Char) : LiteralState :=
  (before.getLast?.bind modifierState?).getD .straight

/-- Whether a text has the literal of `p` and `s`. -/
def Occurs (text : List Char) (p : Proposition) (s : LiteralState) : Prop :=
  ∃ before after, text = before ++ p.toChar :: after ∧ stateAfter before = s

/-- What is wrong at the place between `before` and `after`. A modifier is at fault where another one
or the end of the text follows it. -/
def Offence (before after : List Char) : LabelParseError → Prop
  | .invalidProposition c =>
    after.head? = some c ∧ (∀ m : Modifier, c ≠ m.char) ∧ ∀ p : Proposition, c ≠ p.toChar
  | .danglingModifier c =>
    (∃ m : Modifier, before.getLast? = some m.char ∧ c = m.char) ∧
      (after = [] ∨ ∃ m : Modifier, after.head? = some m.char)
  | .contradiction p =>
    after.head? = some p.toChar ∧ ∃ s, Occurs before p s ∧ s ≠ stateAfter before

def OffenceAt (text : List Char) (i : Nat) (e : LabelParseError) : Prop :=
  Offence (text.take i) (text.drop i) e

/-- Whether `e` is what is wrong at the leftmost place where something is wrong. -/
def FirstOffence (text : List Char) (e : LabelParseError) : Prop :=
  ∃ i, OffenceAt text i e ∧ ∀ j < i, ∀ e', ¬ OffenceAt text j e'

theorem offenceAt_append (before after : List Char) (e : LabelParseError) :
    OffenceAt (before ++ after) before.length e ↔ Offence before after e := by
  rw [OffenceAt, List.take_left, List.drop_left]

theorem Offence.unique {before after : List Char} {e e' : LabelParseError}
    (first : Offence before after e) (second : Offence before after e') : e = e' := by
  have apart := Proposition.toChar_ne_modifier
  cases e with
  | invalidProposition c =>
    obtain ⟨here, noModifier, noProposition⟩ := first
    cases e' <;> simp only [Offence] at second <;> grind
  | danglingModifier c =>
    obtain ⟨⟨m, last, rfl⟩, next⟩ := first
    cases e' <;> simp only [Offence] at second <;> grind
  | contradiction p =>
    obtain ⟨here, _⟩ := first
    have injective := @Proposition.toChar_injective p
    cases e' <;> simp only [Offence] at second <;> grind

theorem FirstOffence.unique {text : List Char} {e e' : LabelParseError} (first : FirstOffence text e)
    (second : FirstOffence text e') : e = e' := by
  obtain ⟨i, here, clean⟩ := first
  obtain ⟨j, there, clean'⟩ := second
  rcases Nat.lt_trichotomy i j with before | same | after
  · exact absurd here (clean' i before e)
  · subst same
    exact here.unique there
  · exact absurd there (clean j after e')

theorem occurs_concat {before : List Char} {c : Char} : Occurs (before ++ [c]) p s ↔
    Occurs before p s ∨ c = p.toChar ∧ stateAfter before = s := by
  constructor
  · rintro ⟨front, rest, split, state⟩
    rcases List.eq_nil_or_concat rest with rfl | ⟨rest, d, rfl⟩
    · obtain ⟨rfl, last⟩ := List.append_inj' split rfl
      exact Or.inr ⟨List.head_eq_of_cons_eq last, state⟩
    · rw [List.concat_eq_append, ← List.cons_append, ← List.append_assoc] at split
      obtain ⟨rfl, _⟩ := List.append_inj' split rfl
      exact Or.inl ⟨front, rest, rfl, state⟩
  · rintro (⟨front, rest, rfl, state⟩ | ⟨rfl, state⟩)
    · exact ⟨front, rest ++ [c], by simp, state⟩
    · exact ⟨before, [], rfl, state⟩

/-- The text `before` consists of tokens and perhaps a modifier, and `a` has exactly its literals. -/
structure Reading (before : List Char) (ts : List Token) (pending : Option Modifier) (a : Label) :
    Prop where
  spelled : before = ts.flatMap Token.chars ++ (pending.map Modifier.char).toList
  literals : ∀ l : Literal, a.state l.proposition = some l.state ↔ l ∈ ts.map Token.literal
  occurs : ∀ p s, Occurs before p s ↔ a.state p = some s

theorem reading_nil : Reading [] [] none empty where
  spelled := rfl
  literals := by simp
  occurs p s := by simp [Occurs]

namespace Reading

variable {before after : List Char} {ts : List Token} {pending : Option Modifier} {m : Modifier}

theorem getLast?_tokens (ts : List Token) (m : Modifier) :
    (ts.flatMap Token.chars).getLast? ≠ some m.char := by
  rcases List.eq_nil_or_concat ts with rfl | ⟨ts, t, rfl⟩
  · nofun
  · simp [Token.chars, List.getLast?_append, Proposition.toChar_ne_modifier]

theorem getLast?_eq_some_iff (h : Reading before ts pending a) :
    before.getLast? = some m.char ↔ pending = some m := by
  rw [h.spelled]
  cases pending with
  | none => simp [getLast?_tokens]
  | some n =>
    simp only [Option.map_some, Option.toList_some, List.getLast?_concat, Option.some.injEq]
    constructor
    · exact Modifier.char_injective
    · exact congrArg Modifier.char

theorem stateAfter_eq (h : Reading before ts pending a) :
    stateAfter before = Token.stateOf pending := by
  rw [stateAfter, h.spelled]
  cases pending with
  | none =>
    rcases List.eq_nil_or_concat ts with rfl | ⟨ts, t, rfl⟩
    · rfl
    · simp [Token.chars, List.getLast?_append, modifierState?_toChar, Token.stateOf]
  | some m => simp [Token.stateOf, modifierState?_char]

theorem modifier (h : Reading before ts none a) (m : Modifier) :
    Reading (before ++ [m.char]) ts (some m) a where
  spelled := by simp [h.spelled]
  literals := h.literals
  occurs p s := by
    rw [occurs_concat, h.occurs]
    simp [(p.toChar_ne_modifier m).symm]

theorem proposition (h : Reading before ts pending a)
    (both : a.and? (ofLiteral ⟨p, Token.stateOf pending⟩) = some b) :
    Reading (before ++ [p.toChar]) (ts ++ [⟨pending, p⟩]) none b where
  spelled := by simp [h.spelled, Token.chars]
  literals l := by
    obtain ⟨q, s⟩ := l
    rw [state_and?_iff both, h.literals, state_ofLiteral]
    simp [Token.literal, Token.state, eq_comm]
  occurs q s := by
    have same : p.toChar = q.toChar ↔ p = q :=
      ⟨Proposition.toChar_injective, congrArg Proposition.toChar⟩
    rw [occurs_concat, h.occurs, state_and?_iff both, h.stateAfter_eq, state_ofLiteral, same]
    simp

theorem not_offence_modifier (h : Reading before ts none a) (m : Modifier) (e : LabelParseError) :
    ¬ Offence before (m.char :: after) e := by
  cases e with
  | invalidProposition c =>
    rintro ⟨here, noModifier, _⟩
    exact noModifier m (Option.some.inj here).symm
  | danglingModifier c =>
    rintro ⟨⟨n, last, _⟩, _⟩
    cases h.getLast?_eq_some_iff.mp last
  | contradiction p =>
    rintro ⟨here, _⟩
    exact p.toChar_ne_modifier m (Option.some.inj here).symm

theorem not_offence_proposition (h : Reading before ts pending a)
    (both : a.and? (ofLiteral ⟨p, Token.stateOf pending⟩) = some b) (e : LabelParseError) :
    ¬ Offence before (p.toChar :: after) e := by
  cases e with
  | invalidProposition c =>
    rintro ⟨here, _, noProposition⟩
    exact noProposition p (Option.some.inj here).symm
  | danglingModifier c =>
    rintro ⟨_, nothing | ⟨n, next⟩⟩
    · cases nothing
    · exact p.toChar_ne_modifier n (Option.some.inj next)
  | contradiction q =>
    rintro ⟨here, s, earlier, other⟩
    cases Proposition.toChar_injective (Option.some.inj here)
    rw [h.occurs] at earlier
    rw [h.stateAfter_eq] at other
    have undefined := and?_ofLiteral_eq_none_iff.mpr ⟨s, earlier, other⟩
    rw [both] at undefined
    cases undefined

theorem not_offence_end (h : Reading before ts none a) (e : LabelParseError) :
    ¬ Offence before [] e := by
  cases e with
  | invalidProposition c => nofun
  | danglingModifier c =>
    rintro ⟨⟨n, last, _⟩, _⟩
    cases h.getLast?_eq_some_iff.mp last
  | contradiction p => nofun

end Reading

theorem exists_kind (c : Char) : (∃ m : Modifier, c = m.char) ∨ (∃ p : Proposition, c = p.toChar) ∨
    (∀ m : Modifier, c ≠ m.char) ∧ ∀ p : Proposition, c ≠ p.toChar := by
  by_cases modifier : ∃ m : Modifier, c = m.char
  · exact Or.inl modifier
  · by_cases proposition : ∃ p : Proposition, c = p.toChar
    · exact Or.inr (Or.inl proposition)
    · exact Or.inr (Or.inr ⟨not_exists.mp modifier, not_exists.mp proposition⟩)

end Label

end TemporalNetwork
