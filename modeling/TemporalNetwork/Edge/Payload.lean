/-!
What the edges of a network carry: a kind, which tells where the constraint comes from, and the
values of the particular kind of network.
-/

namespace TemporalNetwork

/-- Nodes are numbered densely; removing a node gives its number to the last one. -/
abbrev NodeId := Nat

/-- The number of an edge, valid until the edge is removed. -/
abbrev EdgeId := Nat

inductive ConstraintKind where
  /-- Given with the network. -/
  | ordinary
  /-- One of the two edges of a contingent link. -/
  | contingent
  /-- Added by propagation. -/
  | derived
  /-- Added while a checker prepares the network. -/
  | internal
  deriving DecidableEq, Repr, Inhabited

def ConstraintKind.name : ConstraintKind → String
  | ordinary => "Ordinary"
  | contingent => "Contingent"
  | derived => "Derived"
  | internal => "Internal"

def ConstraintKind.ofName? : String → Option ConstraintKind
  | "Ordinary" => some .ordinary
  | "Contingent" => some .contingent
  | "Derived" => some .derived
  | "Internal" => some .internal
  | _ => none

class EdgePayload (E : Type) where
  kind : E → ConstraintKind
  withKind : ConstraintKind → E → E
  /-- Whether the edge constrains nothing. -/
  isVoid : E → Bool
  /-- Follows a node which has been renumbered. -/
  moveNode : NodeId → NodeId → E → E

end TemporalNetwork
