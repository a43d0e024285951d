import MemoryAtlas.Text.Blank
import MemoryAtlas.Text.LowerCase.Cased
import MemoryAtlas.Text.LowerCase.Ignorable
import MemoryAtlas.Text.LowerCase.Table

/-!
# Lower case

The full lower-case mapping of Unicode. One capital has two letters in lower case, and the capital
sigma has a form of its own at the end of a word.
-/

namespace MemoryAtlas.Text

/-- Whether a character has case. -/
def isCased (c : Char) : Bool := inRanges casedRanges c.toNat

/-- Whether a character counts for nothing when the end of a word is looked for. -/
def isCaseIgnorable (c : Char) : Bool := inRanges caseIgnorableRanges c.toNat

/-- The lower case of a character, its neighbours apart. -/
def lowerChar (c : Char) : List Char :=
  if c.toNat = 0x130 then ['i', Char.ofNat 0x307]
  else
    match caseRanges.find? (·.contains c.toNat) with
    | some r => [Char.ofNat (c.toNat + r.distance).toNat]
    | none => [c]

/-- Whether the first character that is not case-ignorable has case. -/
def meetsCased (s : List Char) : Bool :=
  match s.dropWhile isCaseIgnorable with
  | [] => false
  | c :: _ => isCased c

/-- The lower case of a capital sigma: its final form after a letter and before none. -/
def lowerSigma (before rest : List Char) : Char :=
  if meetsCased before && !meetsCased rest then 'ς' else 'σ'

/-- The lower case of `s`, which follows the characters `before`, given last first. -/
def lowerFrom (before : List Char) : List Char → List Char
  | [] => []
  | c :: rest =>
    (if c = 'Σ' then [lowerSigma before rest] else lowerChar c) ++ lowerFrom (c :: before) rest

/-- The lower case of a text. -/
def lower (s : String) : String := .ofList (lowerFrom [] s.toList)

end MemoryAtlas.Text
