import MemoryAtlas.Settings.Basic
import MemoryAtlas.Text.Hex
import MemoryAtlas.Text.Numeral
import MemoryAtlas.Z80.RepeatCeilings

/-!
# Chosen repeat ceilings

Settings name opcode classes in hexadecimal, and a class may be named in several ways: `76`, `$76`,
`0x076`. The ceilings take effect in the order of the names, so of several names of one class the
greatest decides.
-/

namespace MemoryAtlas.Settings

open Text Z80

/-- The opcode class with a given name: a hexadecimal numeral, marked or not, between blanks. -/
def readClass? (name : String) : Option Nat :=
  let digits := trim name.toList
  readBelow? wordBound 16 ((afterHexMark? digits).getD digits)

/-- The shortest name of an opcode class. -/
def className (c : UInt32) : String := hexUpper 1 c.toNat

/-- The settings with the ceiling of a class chosen, under its shortest name. -/
def setCeiling (s : Settings) (c : UInt32) (ceiling : Int32) : Settings :=
  { s with ceilings := s.ceilings.insert (className c) ceiling }

/-- The chosen ceilings by class, in the order in which they take effect. -/
def overrides (s : Settings) : List (Nat × Int) :=
  s.ceilings.entries.filterMap fun e => (readClass? e.1).map fun c => (c, e.2.toInt)

/-- The usual ceilings, where none are chosen, and else the chosen ones. -/
def repeatCeilings (s : Settings) : RepeatCeilings := RepeatCeilings.usual.setAll s.overrides

end MemoryAtlas.Settings
