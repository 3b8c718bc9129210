import Mathlib.Data.List.Nodup
import TemporalNetwork.Proofs.Values.Reduced

/-!
The order of labels. It is the order of a number that a label is packed into, two bits for each
proposition. The number is read here as a numeral in base four whose digits are the states: nothing is
lost when the next digit is pushed in, so the first digit that differs decides. A map of labelled values
keeps its entries in this order, which is why they can be listed in one way only.
-/

namespace TemporalNetwork

namespace Label

variable {a b c : Label} {p : Proposition}

/-- The states of a proposition in the order in which they come; the last one is its absence. -/
def statesInOrder : List (Option LiteralState) :=
  [some .unknown, some .straight, some .negated, none]

theorem rank_lt_rank_iff {s t : Option LiteralState} :
    rank s < rank t ↔ [s, t].Sublist statesInOrder := by
  rcases s with _ | s <;> rcases t with _ | t
  · decide
  · cases t <;> decide
  · cases s <;> decide
  · cases s <;> cases t <;> decide

def digit (s : Option LiteralState) : Nat := 3 - rank s

/-- The place value of a digit that the digits of `ps` follow. -/
def placeValue : List Proposition → Nat
  | [] => 1
  | _ :: ps => 4 * placeValue ps

def numeral (a : Label) : List Proposition → Nat
  | [] => 0
  | p :: ps => digit (a.state p) * placeValue ps + numeral a ps

theorem rank_le (s : Option LiteralState) : rank s ≤ 3 := by
  rcases s with _ | s
  · decide
  · cases s <;> decide

theorem placeValue_pos (ps : List Proposition) : 0 < placeValue ps := by
  induction ps with
  | nil => decide
  | cons p ps ih =>
    simp only [placeValue]
    omega

theorem numeral_lt (a : Label) (ps : List Proposition) : a.numeral ps < placeValue ps := by
  induction ps with
  | nil => exact Nat.one_pos
  | cons p ps ih =>
    have within : digit (a.state p) ≤ 3 := by
      unfold digit
      omega
    have scaled := Nat.mul_le_mul_right (placeValue ps) within
    simp only [numeral, placeValue]
    omega

theorem numeral_lt_numeral {q : Proposition} {ps : List Proposition}
    (before : rank (a.state q) < rank (b.state q)) :
    b.numeral (q :: ps) < a.numeral (q :: ps) := by
  have smaller : digit (b.state q) + 1 ≤ digit (a.state q) := by
    have := rank_le (b.state q)
    unfold digit
    omega
  have scaled := Nat.mul_le_mul_right (placeValue ps) smaller
  have rest := numeral_lt b ps
  simp only [Nat.add_mul, Nat.one_mul] at scaled
  simp only [numeral]
  omega

/-- The states are compared like the numerals, the other way round. -/
theorem compareStates_eq_compare_numeral (a b : Label) (ps : List Proposition) :
    compareStates a b ps = compare (b.numeral ps) (a.numeral ps) := by
  induction ps with
  | nil => rfl
  | cons p ps ih =>
    rcases Nat.lt_trichotomy (rank (a.state p)) (rank (b.state p)) with before | same | after
    · rw [compareStates, Nat.compare_eq_lt.mpr before,
        Nat.compare_eq_lt.mpr (numeral_lt_numeral before)]
      rfl
    · rw [compareStates, Nat.compare_eq_eq.mpr same, ih]
      have equal : digit (a.state p) = digit (b.state p) := congrArg (3 - ·) same
      simp [numeral, equal, Nat.compare_eq_ite_lt]
    · rw [compareStates, Nat.compare_eq_gt.mpr after,
        Nat.compare_eq_gt.mpr (numeral_lt_numeral after)]
      rfl

theorem setWidth_bit (x : BitVec 32) (i : Nat) :
    (x >>> i &&& 1#32).setWidth 64 = BitVec.ofNat 64 (x.getLsbD i).toNat := by
  rw [BitVec.and_one_eq_setWidth_ofBool_getLsbD, BitVec.getLsbD_ushiftRight, Nat.add_zero]
  cases x.getLsbD i <;> rfl

theorem toNat_push (key : BitVec 64) (x y : Bool)
    (room : 4 * key.toNat + 3 < 18446744073709551616) :
    (key <<< 2 ||| BitVec.ofNat 64 x.toNat <<< 1 ||| BitVec.ofNat 64 y.toNat).toNat =
      4 * key.toNat + (2 * x.toNat + y.toNat) := by
  have low : BitVec.ofNat 64 x.toNat <<< 1 ||| BitVec.ofNat 64 y.toNat =
      BitVec.ofNat 64 (2 * x.toNat + y.toNat) := by
    cases x <;> cases y <;> rfl
  have small : 2 * x.toNat + y.toNat < 4 := by
    cases x <;> cases y <;> decide
  rw [BitVec.or_assoc, low, BitVec.toNat_or, BitVec.toNat_shiftLeft, BitVec.toNat_ofNat,
    Nat.mod_eq_of_lt (by rw [Nat.shiftLeft_eq]; omega), Nat.mod_eq_of_lt (by omega),
    ← Nat.shiftLeft_add_eq_or_of_lt small, Nat.shiftLeft_eq]
  omega

theorem digit_state (a : Label) (p : Proposition) : digit (a.state p) =
    2 * (a.straight.getLsbD p.val).toNat + (a.negated.getLsbD p.val).toNat := by
  rw [state]
  cases a.straight.getLsbD p.val <;> cases a.negated.getLsbD p.val <;> rfl

def push (a : Label) (key : BitVec 64) (p : Proposition) : BitVec 64 :=
  key <<< 2 ||| (a.straight >>> p.val &&& 1#32).setWidth 64 <<< 1 |||
    (a.negated >>> p.val &&& 1#32).setWidth 64

theorem toNat_foldl_push (a : Label) (ps : List Proposition) (key : BitVec 64)
    (room : (key.toNat + 1) * placeValue ps ≤ 18446744073709551616) :
    (ps.foldl a.push key).toNat = key.toNat * placeValue ps + a.numeral ps := by
  -- The room is for the digits still to come, so each push leaves what it needs to the next one.
  induction ps generalizing key with
  | nil => simp [placeValue, numeral]
  | cons p ps ih =>
    have turned : (key.toNat + 1) * placeValue (p :: ps) =
        (4 * key.toNat + 4) * placeValue ps := by
      rw [placeValue, ← Nat.mul_assoc]
      congr 1
      omega
    rw [turned] at room
    have here : 4 * key.toNat + 4 ≤ (4 * key.toNat + 4) * placeValue ps :=
      Nat.le_mul_of_pos_right _ (placeValue_pos ps)
    have pushed : (a.push key p).toNat = 4 * key.toNat + digit (a.state p) := by
      rw [push, setWidth_bit, setWidth_bit, toNat_push _ _ _ (by omega), digit_state]
    have within : digit (a.state p) ≤ 3 := Nat.sub_le 3 _
    have enough : ((a.push key p).toNat + 1) * placeValue ps ≤ 18446744073709551616 := by
      refine le_trans (Nat.mul_le_mul_right _ ?_) room
      omega
    rw [List.foldl_cons, ih _ enough, pushed, numeral, placeValue, Nat.add_mul, Nat.mul_comm 4,
      Nat.mul_assoc, Nat.add_assoc]

theorem toNat_orderKey (a : Label) : a.orderKey.toNat = a.numeral Proposition.all := by
  have room : placeValue Proposition.all = 18446744073709551616 := by decide
  have packed := toNat_foldl_push a Proposition.all 0#64 (by simp [room])
  rw [BitVec.toNat_ofNat, Nat.zero_mod, Nat.zero_mul, Nat.zero_add] at packed
  exact packed

/-- Labels of one size are compared by their keys, the other way round. -/
theorem compare_eq_compare_orderKey (a b : Label) : compare a b =
    (compare a.size b.size).then (compare b.orderKey.toNat a.orderKey.toNat) := by
  rw [toNat_orderKey, toNat_orderKey, ← compareStates_eq_compare_numeral]
  rfl

theorem ne_of_compare_lt (before : compare a b = .lt) : a ≠ b := by
  rintro rfl
  rw [Std.ReflOrd.compare_self] at before
  cases before

theorem not_compare_lt_of_compare_lt (before : compare a b = .lt) : compare b a ≠ .lt := by
  rw [Std.OrientedOrd.eq_swap, before]
  nofun

theorem compare_gt_of_subsumes (refines : a.subsumes b = true) (other : a ≠ b) :
    compare a b = .gt := by
  have larger : b.size < a.size := size_lt_of_subsumes refines other.symm
  change (compare a.size b.size).then _ = .gt
  rw [Nat.compare_eq_gt.mpr larger]
  rfl

theorem compareStates_append {qs ps : List Proposition} (agree : ∀ q ∈ qs, a.state q = b.state q)
    (differ : a.state p ≠ b.state p) :
    compareStates a b (qs ++ p :: ps) = compare (rank (a.state p)) (rank (b.state p)) := by
  induction qs with
  | nil =>
    rw [List.nil_append, compareStates]
    cases decided : compare (rank (a.state p)) (rank (b.state p)) with
    | eq => exact absurd (rank_injective (Nat.compare_eq_eq.mp decided)) differ
    | lt => rfl
    | gt => rfl
  | cons q qs ih =>
    rw [List.cons_append, compareStates, agree q List.mem_cons_self, Nat.compare_eq_eq.mpr rfl]
    exact ih fun r mem => agree r (List.mem_cons_of_mem q mem)

theorem compareStates_of_first (agree : ∀ q < p, a.state q = b.state q)
    (differ : a.state p ≠ b.state p) :
    compareStates a b Proposition.all = compare (rank (a.state p)) (rank (b.state p)) := by
  obtain ⟨qs, ps, split⟩ := List.append_of_mem (List.mem_finRange p)
  have increasing := List.pairwise_lt_finRange 32
  rw [split, List.pairwise_append] at increasing
  rw [Proposition.all, split]
  exact compareStates_append (fun q mem => agree q (increasing.2.2 q mem p List.mem_cons_self)) differ

/-- Among labels of one size the first proposition on which they differ decides. -/
theorem compare_lt_iff_of_first (size : a.size = b.size) (agree : ∀ q < p, a.state q = b.state q)
    (differ : a.state p ≠ b.state p) :
    compare a b = .lt ↔ [a.state p, b.state p].Sublist statesInOrder := by
  change (compare a.size b.size).then (compareStates a b Proposition.all) = .lt ↔ _
  rw [size, Nat.compare_eq_eq.mpr rfl, compareStates_of_first agree differ, ← rank_lt_rank_iff,
    ← Nat.compare_eq_lt]
  rfl

end Label

namespace ValueMap

variable {m n : ValueMap}

/-- Whether the entries stand in increasing order of their labels, each label once. -/
def Ordered (m : ValueMap) : Prop := m.entries.Pairwise fun x y => compare x.1 y.1 = .lt

theorem Ordered.get?_eq_some_iff (ordered : m.Ordered) {label : Label} {value : Value} :
    m.get? label = some value ↔ (label, value) ∈ m.entries := by
  constructor
  · exact mem_of_get?
  · intro stored
    have keys : (m.entries.map Prod.fst).Nodup :=
      List.pairwise_map.mpr (ordered.imp Label.ne_of_compare_lt)
    have present : (m.entries.find? fun e => e.1 == label).isSome = true :=
      List.find?_isSome.mpr ⟨_, stored, beq_self_eq_true label⟩
    obtain ⟨e, found⟩ := Option.isSome_iff_exists.mp present
    have same := List.find?_some found
    rw [beq_iff_eq] at same
    have entry : e = (label, value) :=
      List.inj_on_of_nodup_map keys (List.mem_of_find?_eq_some found) stored same
    rw [get?, found, entry]
    rfl

theorem Ordered.nodup (ordered : m.Ordered) : m.entries.Nodup :=
  ordered.imp fun before same => Label.ne_of_compare_lt before (congrArg Prod.fst same)

theorem Ordered.entries_eq (first : m.Ordered) (second : n.Ordered)
    (same : ∀ label, m.get? label = n.get? label) : m.entries = n.entries := by
  have members : ∀ x, x ∈ m.entries ↔ x ∈ n.entries := by
    intro ⟨label, value⟩
    rw [← first.get?_eq_some_iff, same, second.get?_eq_some_iff]
  have permuted : m.entries.Perm n.entries :=
    (List.perm_ext_iff_of_nodup first.nodup second.nodup).mpr members
  refine permuted.eq_of_pairwise (fun x y _ _ before after => ?_) first second
  exact absurd after (Label.not_compare_lt_of_compare_lt before)

theorem Ordered.general_first (ordered : m.Ordered) :
    m.entries.Pairwise fun x y => x.1.subsumes y.1 = false := by
  refine ordered.imp fun {x y} before => ?_
  rw [← Bool.not_eq_true]
  intro refines
  rw [Label.compare_gt_of_subsumes refines (Label.ne_of_compare_lt before)] at before
  cases before

theorem ordered_edits (es : List Edit) : (edits es).Ordered := by
  have start : empty.Reduced := ⟨irredundant_empty, fun _ mem => nomatch mem⟩
  have reduced : (edits es).Reduced :=
    List.foldlRecOn es edit start fun m holds e _ => holds.edit e
  exact reduced.ordered

end ValueMap

/-- The order of labels is total, it tells different labels apart, and a label comes after what it
refines; so a map lists its entries in one way, whatever has been done to it, the general ones
first. -/
theorem label_order_total (a b c : Label) :
    (compare a b = (compare b a).swap ∧
      ((compare a b).isLE = true ∧ (compare b a).isLE = true → a = b) ∧
      ((compare a b).isLE = true ∧ (compare b c).isLE = true → (compare a c).isLE = true) ∧
      ((compare a b).isLE = true ∨ (compare b a).isLE = true)) ∧
    (compare a b = .eq ↔ a = b) ∧
    (a.subsumes b = true ∧ a ≠ b → compare a b = .gt) ∧
    (∀ p, a.size = b.size ∧ (∀ q < p, a.state q = b.state q) ∧ a.state p ≠ b.state p →
      (compare a b = .lt ↔
        [a.state p, b.state p].Sublist [some .unknown, some .straight, some .negated, none])) ∧
    compare a b = (compare a.size b.size).then (compare b.orderKey.toNat a.orderKey.toNat) ∧
    ∀ es fs : List ValueMap.Edit,
      ((∀ label, (ValueMap.edits es).get? label = (ValueMap.edits fs).get? label) →
        (ValueMap.edits es).entries = (ValueMap.edits fs).entries) ∧
      (ValueMap.edits es).entries.Pairwise fun x y => x.1.subsumes y.1 = false := by
  have total : (compare a b).isLE = true ∨ (compare b a).isLE = true := by
    rw [Std.OrientedOrd.eq_swap]
    cases compare b a <;> decide
  have lists := fun es fs : List ValueMap.Edit =>
    (ValueMap.ordered_edits es).entries_eq (ValueMap.ordered_edits fs)
  refine ⟨⟨Std.OrientedCmp.eq_swap, ?_, ?_, total⟩, Std.LawfulEqCmp.compare_eq_iff_eq, ?_, ?_,
    Label.compare_eq_compare_orderKey a b,
    fun es fs => ⟨lists es fs, (ValueMap.ordered_edits es).general_first⟩⟩
  · intro ⟨before, after⟩
    exact Std.LawfulEqCmp.eq_of_compare (Std.OrientedCmp.isLE_antisymm before after)
  · intro ⟨first, second⟩
    exact Std.TransCmp.isLE_trans first second
  · intro ⟨refines, other⟩
    exact Label.compare_gt_of_subsumes refines other
  · intro p ⟨size, agree, differ⟩
    exact Label.compare_lt_iff_of_first size agree differ

/-- The second proposition decides between the first two labels; the third one refines the first. -/
theorem label_order_total_second :
    let a : Label := (Label.ofLiteral ⟨0, .negated⟩).blend (.ofLiteral ⟨1, .unknown⟩)
    let b : Label := (Label.ofLiteral ⟨0, .negated⟩).blend (.ofLiteral ⟨30, .straight⟩)
    let c : Label := a.blend (.ofLiteral ⟨31, .straight⟩)
    compare a b = .lt ∧ compare c a = .gt := by
  intro a b c
  have decided := (label_order_total a b c).2.2.2.1 1 (by decide)
  have refines := (label_order_total c a b).2.2.1
  exact ⟨decided.mpr (by decide), refines (by decide)⟩

end TemporalNetwork
