import TemporalNetwork.Check.Error
import TemporalNetwork.Network.Edit

/-!
Preparing a network for a check. A preparation edits the network and notes the repairs it makes;
what it has done up to a failure stays done.
-/

namespace TemporalNetwork

structure Draft (E : Type) where
  network : Network E
  fixes : List String

abbrev Preparation (E : Type) := EStateM Failure (Draft E)

namespace Preparation

variable {E : Type}

def network : Preparation E (Network E) := do return (← get).network

def modifyNetwork (f : Network E → Network E) : Preparation E Unit :=
  modify fun d => { d with network := f d.network }

def noteFix (fix : String) : Preparation E Unit :=
  modify fun d => { d with fixes := d.fixes ++ [fix] }

/-- The name of a node; a fault if there is no such node. -/
def nodeName (n : NodeId) : Preparation E String := do
  match (← network).node? n with
  | some node => return node.name
  | none => throw (.fault .outOfRange)

/-- The reference node: the one that is set, else the node named `Z`, else a new node. -/
def ensureZ : Preparation E NodeId := do
  let g ← network
  match g.z <|> g.findNode? "Z" with
  | some z =>
    modifyNetwork (·.setZ z)
    return z
  | none =>
    noteFix "added the missing node Z"
    let z := g.nodeCount
    modifyNetwork fun g => ((g.addNode (Node.named "Z")).map Prod.fst).getD g
    modifyNetwork (·.setZ z)
    return z

/-- The negation of a bound. -/
def negate (v : Value) : Preparation E Value :=
  match Value.neg? v with
  | some w => return w
  | none => throw (.fault .overflow)

end Preparation

end TemporalNetwork
