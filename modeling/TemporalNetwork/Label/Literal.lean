import TemporalNetwork.Label.Proposition

/-!
Literals: a proposition together with the state in which a label asserts it.
-/

namespace TemporalNetwork

/-- How a proposition occurs in a label. An unknown literal is both required true and required
false by the values a derivation combined. -/
inductive LiteralState where
  | straight
  | negated
  | unknown
  deriving DecidableEq, Repr

namespace LiteralState

/-- The sign written before the proposition. -/
def sign : LiteralState → String
  | straight => ""
  | negated => "¬"
  | unknown => "¿"

/-- The opposite state; an unknown literal is its own complement. -/
def complement : LiteralState → LiteralState
  | straight => negated
  | negated => straight
  | unknown => unknown

def name : LiteralState → String
  | straight => "Straight"
  | negated => "Negated"
  | unknown => "Unknown"

end LiteralState

structure Literal where
  proposition : Proposition
  state : LiteralState
  deriving DecidableEq, Repr

namespace Literal

def complement (l : Literal) : Literal := ⟨l.proposition, l.state.complement⟩

def text (l : Literal) : String := l.state.sign ++ l.proposition.text

end Literal

end TemporalNetwork
