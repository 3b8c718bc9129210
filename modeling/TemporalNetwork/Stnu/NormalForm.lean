import TemporalNetwork.Stnu.Link

/-!
The normal form of a network: every link has the lower bound zero. A link with another lower bound
starts at a new node, which is executed exactly that time after its activation node.
-/

namespace TemporalNetwork

namespace NormalForm

/-- A name that no node has: the given one with primes after it. -/
def freshName (g : PlainNetwork) (base : String) : String :=
  firstUnused (fun name => (g.findNode? name).isSome)
    (fun i => base ++ String.join (List.replicate (i + 1) "'")) (g.nodeCount + 1) 0

def clearCaseBetween (g : PlainNetwork) (source target : NodeId) : PlainNetwork :=
  match g.findEdge? source target with
  | none => g
  | some e => g.modifyEdge e fun edge => { edge with case := none }

/-- The network in which a link starts at a new node, and the link from there. -/
def shiftLink (g : PlainNetwork) (link : StnuLink) : PlainNetwork × StnuLink :=
  let ⟨activation, contingent, lower, upper⟩ := link
  match g.addNode (Node.named (freshName g (g.nodeName activation))) with
  | none => (g, link)
  | some (g, shifted) =>
    let g := (g.tighten activation shifted lower).1
    let g := (g.tighten shifted activation (-lower)).1
    let g := clearCaseBetween g activation contingent
    let g := clearCaseBetween g contingent activation
    let interval := upper - lower
    let g := g.storeCase shifted contingent interval ⟨.lower, contingent, 0⟩
    let g := g.storeCase contingent shifted 0 ⟨.upper, contingent, -interval⟩
    (g.setActivation contingent shifted, ⟨shifted, contingent, 0, interval⟩)

/-- The network in normal form, with its links and the number of new nodes. -/
def ofLinks (g : PlainNetwork) : List StnuLink → PlainNetwork × List StnuLink × Nat
  | [] => (g, [], 0)
  | link :: rest =>
    if 0 < link.lower then
      let (g, link) := shiftLink g link
      let (g, rest, added) := ofLinks g rest
      (g, link :: rest, added + 1)
    else
      let (g, rest, added) := ofLinks g rest
      (g, link :: rest, added)

end NormalForm

end TemporalNetwork
