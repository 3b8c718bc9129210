import TemporalNetwork.Edge.Payload
import TemporalNetwork.Value

/-!
Edges of networks without propositions: one ordinary value, and a case value if the edge belongs to
a contingent link.
-/

namespace TemporalNetwork

inductive CaseKind where
  | lower
  | upper
  deriving DecidableEq, Repr

def CaseKind.name : CaseKind → String
  | lower => "Lower"
  | upper => "Upper"

/-- The case value of an edge of the contingent link that ends in `contingent`. -/
structure CaseValue where
  kind : CaseKind
  contingent : NodeId
  value : Value
  deriving DecidableEq, Repr

structure PlainEdge where
  kind : ConstraintKind
  /-- The ordinary value; `+∞` if there is none. -/
  weight : Value
  case : Option CaseValue
  deriving DecidableEq, Repr

namespace PlainEdge

def ofKind (kind : ConstraintKind) : PlainEdge := ⟨kind, Value.posInf, none⟩

instance : Inhabited PlainEdge := ⟨ofKind .ordinary⟩

def value? (e : PlainEdge) : Option Value := if e.weight = Value.posInf then none else some e.weight

/-- Lowers the ordinary value; the second component tells whether it changed. -/
def tighten (e : PlainEdge) (value : Value) : PlainEdge × Bool :=
  if value < e.weight then ({ e with weight := value }, true) else (e, false)

theorem weight_tighten (e : PlainEdge) (value : Value) :
    (e.tighten value).1.weight = min value e.weight := by
  unfold tighten
  split <;> simp only <;> lia

theorem tighten_changed_iff (e : PlainEdge) (value : Value) :
    (e.tighten value).2 = true ↔ value < e.weight := by
  unfold tighten
  split <;> simp_all

def lower? (e : PlainEdge) : Option CaseValue := e.case.filter fun c => c.kind == .lower

def upper? (e : PlainEdge) : Option CaseValue := e.case.filter fun c => c.kind == .upper

/-- The lesser of two values of which one or both may be absent. -/
def lesser : Option Value → Option Value → Option Value
  | some a, some b => some (min a b)
  | some a, none => some a
  | none, b => b

/-- The value of the edge when its lower-case value is read as an ordinary one. -/
def lowerOrOrdinary? (e : PlainEdge) : Option Value :=
  lesser e.value? (e.lower?.map CaseValue.value)

def isVoid (e : PlainEdge) : Bool := e.weight == Value.posInf && e.case.isNone

/-- Follows the node that was numbered `last` to the number `place`. -/
def moveNode (last place : NodeId) (e : PlainEdge) : PlainEdge :=
  { e with case := e.case.map fun c =>
      if c.contingent = last then { c with contingent := place } else c }

instance : EdgePayload PlainEdge where
  kind e := e.kind
  withKind kind e := { e with kind := kind }
  isVoid := isVoid
  moveNode := moveNode

def text (e : PlainEdge) : String :=
  e.kind.name ++ " " ++ Value.text e.weight ++
    match e.case with
    | some ⟨.lower, c, v⟩ => " lc(n" ++ toString c ++ "):" ++ toString v
    | some ⟨.upper, c, v⟩ => " UC(n" ++ toString c ++ "):" ++ toString v
    | none => ""

end PlainEdge

end TemporalNetwork
