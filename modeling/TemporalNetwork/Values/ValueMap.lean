import TemporalNetwork.Label.Order
import TemporalNetwork.Label.Text
import TemporalNetwork.Value

/-!
Labelled values: the values of an edge, each holding in the scenarios of its label. The entries are
kept in the order of their labels, without entries that a more general label makes redundant, and
two entries which differ in the state of one proposition only are joined into one without it.
-/

namespace TemporalNetwork

structure ValueMap where
  /-- One entry per label, in increasing order of the labels. -/
  entries : List (Label × Value)
  deriving DecidableEq, Repr, Inhabited

namespace ValueMap

def empty : ValueMap := ⟨[]⟩

def size (m : ValueMap) : Nat := m.entries.length

def isEmpty (m : ValueMap) : Bool := m.entries.isEmpty

def labels (m : ValueMap) : List Label := m.entries.map Prod.fst

def get? (m : ValueMap) (label : Label) : Option Value :=
  (m.entries.find? fun e => e.1 == label).map Prod.snd

def erase (m : ValueMap) (label : Label) : ValueMap :=
  ⟨m.entries.filter fun e => e.1 != label⟩

/-- Places an entry before the first one whose label is not smaller, replacing an equal label. -/
def insertEntry (label : Label) (value : Value) : List (Label × Value) → List (Label × Value)
  | [] => [(label, value)]
  | e :: rest =>
    match compare label e.1 with
    | .lt => (label, value) :: e :: rest
    | .eq => (label, value) :: rest
    | .gt => e :: insertEntry label value rest

def insert (m : ValueMap) (label : Label) (value : Value) : ValueMap :=
  ⟨insertEntry label value m.entries⟩

/-- Whether an entry with a more general label has a value which is not larger. -/
def dominates (m : ValueMap) (label : Label) (value : Value) : Bool :=
  m.entries.any fun e => label.subsumes e.1 && decide (e.2 ≤ value)

/-- Drops the entries which `(label, value)` makes redundant. -/
def dropDominated (m : ValueMap) (label : Label) (value : Value) : ValueMap :=
  ⟨m.entries.filter fun e => !(e.1.subsumes label && decide (value ≤ e.2))⟩

/-- The literals whose complement may be present in a twin entry. -/
def flippable (label : Label) : List Literal :=
  label.literals.filter fun l => l.state != .unknown

/-- Adds `(label, value)` unless it is dominated, drops what it dominates, and joins it with each
twin that differs in the state of one proposition. The joined entry has one literal less, so `depth`
need not exceed the number of literals of `label`. -/
def mergeWithin (depth : Nat) (m : ValueMap) (label : Label) (value : Value) : ValueMap × Bool :=
  if value = Value.posInf ∨ m.dominates label value then (m, false)
  else
    let kept := (m.dropDominated label value).insert label value
    match depth with
    | 0 => (kept, true)
    | depth + 1 =>
      let joined := (flippable label).foldl (fun m l =>
        match m.get? (label.replace l.complement) with
        | some twin => (mergeWithin depth m (label.erase l.proposition) (max value twin)).1
        | none => m) kept
      (joined, true)

/-- Merges an entry; the second component tells whether the map changed. -/
def merge (m : ValueMap) (label : Label) (value : Value) : ValueMap × Bool :=
  mergeWithin label.size m label value

def min? (m : ValueMap) : Option Value := (m.entries.map Prod.snd).min?

def max? (m : ValueMap) : Option Value := (m.entries.map Prod.snd).max?

/-- The least value whose label is consistent with `label`. -/
def minConsistent? (m : ValueMap) (label : Label) : Option Value :=
  ((m.entries.filter fun e => e.1.consistent label).map Prod.snd).min?

/-- The least value which holds whenever `label` does. -/
def minSubsumed? (m : ValueMap) (label : Label) : Option Value :=
  ((m.entries.filter fun e => label.subsumes e.1).map Prod.snd).min?

/-- The map without the entries whose label has an unknown literal. -/
def dropUnknown (m : ValueMap) : ValueMap := ⟨m.entries.filter fun e => !e.1.hasUnknown⟩

def text (m : ValueMap) : String :=
  "\x7b" ++ String.join (m.entries.map fun e =>
    "(" ++ e.1.text ++ ", " ++ Value.text e.2 ++ ") ") ++ "\x7d"

theorem dominates_iff {m : ValueMap} {label : Label} {value : Value} :
    m.dominates label value = true ↔
      ∃ e ∈ m.entries, label.subsumes e.1 = true ∧ e.2 ≤ value := by
  simp [dominates]

theorem mem_dropDominated {m : ValueMap} {label : Label} {value : Value} {e : Label × Value} :
    e ∈ (m.dropDominated label value).entries ↔
      e ∈ m.entries ∧ (e.1.subsumes label = true → e.2 < value) := by
  cases h : e.1.subsumes label <;> simp [dropDominated, h]

theorem mem_erase {m : ValueMap} {label : Label} {e : Label × Value} :
    e ∈ (m.erase label).entries ↔ e ∈ m.entries ∧ e.1 ≠ label := by
  simp [erase]

theorem mem_dropUnknown {m : ValueMap} {e : Label × Value} :
    e ∈ m.dropUnknown.entries ↔ e ∈ m.entries ∧ e.1.hasUnknown = false := by
  simp [dropUnknown]

theorem mem_insertEntry_self (label : Label) (value : Value) (es : List (Label × Value)) :
    (label, value) ∈ insertEntry label value es := by
  induction es with
  | nil => simp [insertEntry]
  | cons e rest ih =>
    simp only [insertEntry]
    split
    · exact List.mem_cons_self
    · exact List.mem_cons_self
    · exact List.mem_cons_of_mem e ih

/-- Entries with other labels stay as they are. -/
theorem mem_insertEntry_of_ne {label : Label} {value : Value} {x : Label × Value}
    (es : List (Label × Value)) (other : x.1 ≠ label) :
    x ∈ insertEntry label value es ↔ x ∈ es := by
  have apart : x ≠ (label, value) := fun same => other (congrArg Prod.fst same)
  induction es with
  | nil => simp [insertEntry, apart]
  | cons e rest ih =>
    simp only [insertEntry]
    split
    · simp [apart]
    · rename_i same
      have key : label = e.1 := Std.LawfulEqCmp.eq_of_compare same
      have distinct : x ≠ e := fun h => other (h ▸ key.symm)
      simp [apart, distinct]
    · simp [ih]

/-- An entry that is looked up is stored. -/
theorem mem_of_get? {m : ValueMap} {label : Label} {value : Value} (h : m.get? label = some value) :
    (label, value) ∈ m.entries := by
  obtain ⟨e, found, same⟩ := Option.map_eq_some_iff.mp h
  have key := List.find?_some found
  have stored := List.mem_of_find?_eq_some found
  rw [beq_iff_eq] at key
  obtain ⟨l, v⟩ := e
  cases key
  cases same
  exact stored

end ValueMap

end TemporalNetwork
