import TemporalNetwork.Label.Basic

/-!
The written form of labels: `a¬b¿c` has `a` straight, `b` negated and `c` unknown, and `⊡` is the
empty label. When reading, `!` and `?` stand for `¬` and `¿`.
-/

namespace TemporalNetwork

inductive LabelParseError where
  | invalidProposition (c : Char)
  | danglingModifier (c : Char)
  | contradiction (p : Proposition)
  deriving DecidableEq, Repr

namespace LabelParseError

def message : LabelParseError → String
  | invalidProposition c => "'" ++ String.singleton c ++ "' is not a proposition"
  | danglingModifier c => "the label ends with a dangling '" ++ String.singleton c ++ "'"
  | contradiction p => "proposition '" ++ p.text ++ "' occurs with two different states"

end LabelParseError

namespace Label

def text (a : Label) : String :=
  if a.isEmpty then "⊡" else String.join (a.literals.map Literal.text)

/-- The characters with the property `White_Space`. -/
def isBlank (c : Char) : Bool :=
  let n := c.toNat
  (9 ≤ n && n ≤ 13) || n == 0x20 || n == 0x85 || n == 0xA0 || n == 0x1680 ||
    (0x2000 ≤ n && n ≤ 0x200A) || n == 0x2028 || n == 0x2029 || n == 0x202F || n == 0x205F ||
    n == 0x3000

/-- Blanks and the sign of the empty label are skipped wherever they stand. -/
def isSkipped (c : Char) : Bool := isBlank c || c == '⊡'

/-- The state a modifier gives to the proposition after it. -/
def modifierState? : Char → Option LiteralState
  | '¬' => some .negated
  | '!' => some .negated
  | '¿' => some .unknown
  | '?' => some .unknown
  | _ => none

/-- Reads the characters after `a`, where `pending` is a modifier without its proposition. -/
def parseFrom (a : Label) (pending : Option (Char × LiteralState)) :
    List Char → Except LabelParseError Label
  | [] =>
    match pending with
    | some (m, _) => .error (.danglingModifier m)
    | none => .ok a
  | c :: cs =>
    match modifierState? c with
    | some s =>
      match pending with
      | some (m, _) => .error (.danglingModifier m)
      | none => parseFrom a (some (c, s)) cs
    | none =>
      match Proposition.ofChar? c with
      | none => .error (.invalidProposition c)
      | some p =>
        match a.and? (ofLiteral ⟨p, (pending.map Prod.snd).getD .straight⟩) with
        | none => .error (.contradiction p)
        | some b => parseFrom b none cs

def parse (s : String) : Except LabelParseError Label :=
  parseFrom empty none (s.toList.filter fun c => !isSkipped c)

end Label

end TemporalNetwork
