/-!
Cases of names: how the words of a name are capitalised and joined. Names are ASCII.
-/

namespace TemporalNetwork

/-- How words are capitalised. -/
inductive WordCase where
  | upper
  | lower
  | capitalised
  /-- All words but the first are capitalised. -/
  | camel
  /-- The first letter is lower case and the others upper case. -/
  | toggled
  /-- The letters of all words alternate, the first one being lower case. -/
  | alternating
  deriving DecidableEq, Repr

structure Casing where
  style : WordCase
  /-- What stands between two words. -/
  separator : String
  deriving DecidableEq, Repr

namespace Casing

def ofName? : String → Option Casing
  | "Upper" => some ⟨.upper, " "⟩
  | "UpperSnake" => some ⟨.upper, "_"⟩
  | "ScreamingSnake" => some ⟨.upper, "_"⟩
  | "Cobol" => some ⟨.upper, "-"⟩
  | "UpperKebab" => some ⟨.upper, "-"⟩
  | "UpperFlat" => some ⟨.upper, ""⟩
  | "Lower" => some ⟨.lower, " "⟩
  | "Snake" => some ⟨.lower, "_"⟩
  | "Kebab" => some ⟨.lower, "-"⟩
  | "Flat" => some ⟨.lower, ""⟩
  | "Title" => some ⟨.capitalised, " "⟩
  | "Pascal" => some ⟨.capitalised, ""⟩
  | "UpperCamel" => some ⟨.capitalised, ""⟩
  | "Train" => some ⟨.capitalised, "-"⟩
  | "Camel" => some ⟨.camel, ""⟩
  | "Toggle" => some ⟨.toggled, " "⟩
  | "Alternating" => some ⟨.alternating, " "⟩
  | _ => none

def isSeparator (c : Char) : Bool := c == '_' || c == '-' || c == ' '

/-- Whether a word ends between two neighbouring characters: where a capital follows a small letter,
where letters and digits meet, and before the last capital of a run that a small letter follows. -/
def isBoundary (a b : Char) (after : Option Char) : Bool :=
  (a.isLower && b.isUpper) || (a.isUpper && b.isDigit) || (a.isDigit && b.isUpper) ||
    (a.isDigit && b.isLower) || (a.isLower && b.isDigit) ||
    (a.isUpper && b.isUpper && after.any Char.isLower)

/-- Adds a character in front of the words of the rest. -/
def consChar (c : Char) : List (List Char) → List (List Char)
  | [] => [[c]]
  | w :: ws => (c :: w) :: ws

/-- The words of a name, empty ones included. -/
def split : List Char → List (List Char)
  | [] => [[]]
  | [c] => if isSeparator c then [[], []] else [[c]]
  | a :: b :: rest =>
    let later := split (b :: rest)
    if isSeparator a then [] :: later
    else if isBoundary a b rest.head? then [a] :: later
    else consChar a later

def words (name : String) : List (List Char) :=
  (split name.toList).filter fun w => !w.isEmpty

def upperWord (w : List Char) : List Char := w.map Char.toUpper

def lowerWord (w : List Char) : List Char := w.map Char.toLower

def capitalise : List Char → List Char
  | [] => []
  | c :: cs => c.toUpper :: lowerWord cs

def toggle : List Char → List Char
  | [] => []
  | c :: cs => c.toLower :: upperWord cs

/-- Lets letters alternate, the first one being upper case if `up`; returns what the next letter is
to be. -/
def alternate (up : Bool) : List Char → List Char × Bool
  | [] => ([], up)
  | c :: cs =>
    if c.isAlpha then
      let (rest, last) := alternate (!up) cs
      ((if up then c.toUpper else c.toLower) :: rest, last)
    else
      let (rest, last) := alternate up cs
      (c :: rest, last)

def alternateWords (up : Bool) : List (List Char) → List (List Char)
  | [] => []
  | w :: ws =>
    let (w, up) := alternate up w
    w :: alternateWords up ws

def WordCase.apply : WordCase → List (List Char) → List (List Char)
  | .upper, ws => ws.map upperWord
  | .lower, ws => ws.map lowerWord
  | .capitalised, ws => ws.map capitalise
  | .camel, [] => []
  | .camel, w :: ws => lowerWord w :: ws.map capitalise
  | .toggled, ws => ws.map toggle
  | .alternating, ws => alternateWords false ws

def apply (c : Casing) (name : String) : String :=
  c.separator.intercalate ((WordCase.apply c.style (words name)).map String.ofList)

end Casing

end TemporalNetwork
