import MemoryAtlas.Image

/-!
# Tags and blocks

A tag says what a block of memory holds. A block is a range of addresses with its tag.
-/

namespace MemoryAtlas

/-- What a block of memory holds. -/
inductive Tag where
  /-- Instructions. -/
  | code
  /-- Data without further structure. -/
  | bytes
  /-- Characters. -/
  | text
  /-- Zeros. -/
  | zero
  /-- Nothing: the end of the classified range. -/
  | limit
  /-- Not classified yet. -/
  | unknown
  deriving DecidableEq, Repr, Inhabited

namespace Tag

/-- Every tag. -/
def all : List Tag := [code, bytes, text, zero, limit, unknown]

/-- The letter of a tag in maps and records. -/
def letter : Tag → Char
  | code => 'c'
  | bytes => 'b'
  | text => 't'
  | zero => 's'
  | limit => 'i'
  | unknown => 'U'

/-- The name of a tag: its letter. -/
def name (t : Tag) : String := t.letter.toString

/-- The tag with a given letter. -/
def ofLetter? (c : Char) : Option Tag := all.find? (·.letter == c)

/-- Plain data: bytes or zeros. -/
def isData : Tag → Bool
  | bytes | zero => true
  | code | text | limit | unknown => false

theorem ofLetter?_letter (t : Tag) : ofLetter? t.letter = some t := by
  cases t <;> rfl

end Tag

/-- A range of addresses and what it holds. -/
structure Block where
  /-- The first address. -/
  start : Nat
  /-- The first address after the block. -/
  stop : Nat
  /-- What the block holds. -/
  tag : Tag
  deriving DecidableEq, Repr, Inhabited

namespace Block

/-- The number of addresses. -/
def size (b : Block) : Nat := b.stop - b.start

/-- Whether an address lies in the block. -/
def contains (b : Block) (a : Nat) : Bool := b.start ≤ a && a < b.stop

end Block

end MemoryAtlas
