import TemporalNetwork.Edge.Payload

/-!
The edges a propagation still has to look at, in the order in which they were first noted.
-/

namespace TemporalNetwork

structure Worklist where
  edges : Array EdgeId
  /-- For each edge number, whether the edge is noted. -/
  noted : Array Bool
  deriving Repr

namespace Worklist

def empty : Worklist := ⟨#[], #[]⟩

instance : Inhabited Worklist := ⟨empty⟩

def contains (w : Worklist) (e : EdgeId) : Bool := w.noted.getD e false

/-- Notes an edge unless it is noted already. -/
def insert (w : Worklist) (e : EdgeId) : Worklist :=
  if w.contains e then w
  else
    let noted := w.noted ++ Array.replicate (e + 1 - w.noted.size) false
    ⟨w.edges.push e, noted.setIfInBounds e true⟩

def ofList (es : List EdgeId) : Worklist := es.foldl insert empty

def toList (w : Worklist) : List EdgeId := w.edges.toList

@[simp] theorem toList_empty : empty.toList = [] := rfl

@[simp] theorem contains_empty (e : EdgeId) : empty.contains e = false := by
  simp [empty, contains]

/-- An edge that is noted already keeps its place, another one comes last. -/
theorem toList_insert (w : Worklist) (e : EdgeId) :
    (w.insert e).toList = if w.contains e then w.toList else w.toList ++ [e] := by
  unfold insert
  split <;> simp [toList]

theorem contains_insert (w : Worklist) (e f : EdgeId) :
    (w.insert e).contains f = (w.contains f || decide (e = f)) := by
  unfold insert
  split
  · rename_i present
    by_cases same : e = f
    · simp [← same, present]
    · simp [same]
  · simp only [contains, Array.getD_eq_getD_getElem?, Array.getElem?_setIfInBounds]
    by_cases same : e = f
    · have fits : f < (w.noted ++ Array.replicate (f + 1 - w.noted.size) false).size := by
        simp only [Array.size_append, Array.size_replicate]
        lia
      subst same
      simp only [if_true, fits, Option.getD_some, decide_true, Bool.or_true]
    · simp only [same, if_false, decide_false, Bool.or_false]
      by_cases old : f < w.noted.size
      · rw [Array.getElem?_append_left old]
      · rw [Array.getElem?_append_right (by lia), Array.getElem?_replicate,
          Array.getElem?_eq_none (by lia)]
        split <;> rfl

end Worklist

end TemporalNetwork
