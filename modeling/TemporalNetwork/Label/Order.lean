import TemporalNetwork.Label.Basic

/-!
The order of labels: fewer literals first, so that general labels come before their refinements;
among labels of one size the first proposition on which they differ decides. It is a total order in
which only equal labels are equivalent.
-/

namespace TemporalNetwork.Label

/-- An unknown literal comes first, then a straight one, a negated one, and an absent proposition.
-/
def rank : Option LiteralState → Nat
  | some .unknown => 0
  | some .straight => 1
  | some .negated => 2
  | none => 3

/-- Compares the states of `ps`, the first proposition being the most significant. -/
def compareStates (a b : Label) : List Proposition → Ordering
  | [] => .eq
  | p :: ps => (compare (rank (a.state p)) (rank (b.state p))).then (compareStates a b ps)

instance : Ord Label where
  compare a b := (compare a.size b.size).then (compareStates a b Proposition.all)

/-- The same order as one word, two bits per proposition and the first one the most significant. Among
labels of one size, the larger key comes first. -/
def orderKey (a : Label) : BitVec 64 :=
  Proposition.all.foldl (fun key p =>
    let straight := (a.straight >>> p.val &&& 1#32).setWidth 64
    let negated := (a.negated >>> p.val &&& 1#32).setWidth 64
    key <<< 2 ||| straight <<< 1 ||| negated) 0#64

/-- The ranks of the states of `ps`. -/
def ranks (a : Label) (ps : List Proposition) : List Nat := ps.map fun p => rank (a.state p)

theorem rank_injective {s t : Option LiteralState} (h : rank s = rank t) : s = t := by
  rcases s with _ | s <;> rcases t with _ | t
  · rfl
  · cases t <;> cases h
  · cases s <;> cases h
  · cases s <;> cases t <;> first | rfl | cases h

theorem compareStates_eq (a b : Label) (ps : List Proposition) :
    compareStates a b ps = compare (a.ranks ps) (b.ranks ps) := by
  induction ps with
  | nil => rfl
  | cons p ps ih =>
    simp only [compareStates, ranks, List.map_cons, List.compare_cons_cons, ih]

theorem compare_eq (a b : Label) : compare a b =
    compareLex (compareOn size) (compareOn fun c => ranks c Proposition.all) a b := by
  change (compare a.size b.size).then (compareStates a b Proposition.all) = _
  rw [compareStates_eq]
  rfl

theorem eq_of_ranks {a b : Label} (h : a.ranks Proposition.all = b.ranks Proposition.all) :
    a = b := by
  apply ext_state
  intro p
  exact rank_injective (List.map_inj_left.mp h p (List.mem_finRange p))

instance : Std.OrientedOrd Label where
  eq_swap {a b} := by
    rw [compare_eq a b, compare_eq b a]
    exact Std.OrientedCmp.eq_swap

instance : Std.TransOrd Label where
  isLE_trans {a b c} hab hbc := by
    rw [compare_eq] at hab hbc ⊢
    exact Std.TransCmp.isLE_trans hab hbc

instance : Std.LawfulEqOrd Label where
  compare_self {a} := Std.ReflCmp.compare_self
  eq_of_compare {a b} h := by
    rw [compare_eq, compareLex, Ordering.then_eq_eq] at h
    exact eq_of_ranks (Std.LawfulEqCmp.eq_of_compare h.2)

/-- The labels in increasing order; equal labels keep their places. -/
def sort (ls : List Label) : List Label := ls.mergeSort fun a b => (compare a b).isLE

end TemporalNetwork.Label
