import MemoryAtlas.Z80.Operation
import MemoryAtlas.Image
import MemoryAtlas.Total

/-!
# Operation templates

A template is an operation whose operands are either fixed by the opcode or read from the bytes
that follow it. An operand read from memory is a *slot* of a known width, so the length of an
instruction depends on its template alone.

## Main definitions

* `Slot.width`, `Template.width`: the operand bytes that a template takes.
* `Template.fill`: the operation that a template and the operand bytes make.
* `Template.redirect`: what an index prefix makes of a template.
-/

namespace MemoryAtlas.Z80

/-- An operand of a template. -/
inductive Slot where
  /-- An operand that takes no bytes. -/
  | fixed (o : Operand)
  /-- A byte. -/
  | byte
  /-- A 16-bit number. -/
  | word
  /-- The number of an I/O port. -/
  | port
  /-- The address of a memory cell. -/
  | cell
  /-- A destination given by its distance from the next instruction. -/
  | relative
  /-- A destination given by its address. -/
  | absolute
  /-- A displacement from an index register. -/
  | indexed (x : Index)
  deriving DecidableEq, Repr

namespace Slot

/-- The bytes that a slot takes. -/
def width : Slot → Nat
  | fixed _ => 0
  | byte | port | relative | indexed _ => 1
  | word | cell | absolute => 2

/-- A byte read as a number from -128 to 127. -/
def signed (b : UInt8) : Int := if b < 128 then b.toNat else (b.toNat : Int) - 256

/-- The address at a distance from `next`, in the 16-bit address space. -/
def branch (next : Nat) (distance : UInt8) : Nat := ((next + signed distance) % 65536).toNat

/-- The operand in a slot whose bytes start at `a`, in an instruction that ends at `next`. -/
def fill (m : Image) (a next : Nat) : Slot → Operand
  | fixed o => o
  | byte => .byte (m.read a)
  | word => .word (m.word a)
  | port => .port (m.read a)
  | cell => .cell (m.word a)
  | relative => .target (branch next (m.read a))
  | absolute => .target (m.word a)
  | indexed x => .indexed x (signed (m.read a))

end Slot

/-- A mnemonic with its slots. -/
structure Template where
  mnemonic : Mnemonic
  slots : List Slot
  deriving DecidableEq, Repr

namespace Template

/-- The operand bytes that a template takes. -/
def width (t : Template) : Nat := total Slot.width t.slots

/-- The operands in slots whose bytes follow one another from `a`. -/
def fillSlots (m : Image) (next : Nat) : Nat → List Slot → List Operand
  | _, [] => []
  | a, s :: rest => s.fill m a next :: fillSlots m next (a + s.width) rest

/-- The operation whose operand bytes start at `a`, in an instruction that ends at `next`. -/
def fill (t : Template) (m : Image) (a next : Nat) : Operation :=
  ⟨t.mnemonic, fillSlots m next a t.slots⟩

/-- The memory that `hl` points to. -/
def viaHL : Slot := .fixed (.via .hl)

/-- The index register in place of `hl` and its halves. -/
def substitute (x : Index) : Slot → Slot
  | .fixed (.pair .hl) => .fixed (.pair (.index x))
  | .fixed (.via .hl) => .fixed (.via (.index x))
  | .fixed (.register .h) => .fixed (.register (.high x))
  | .fixed (.register .l) => .fixed (.register (.low x))
  | s => s

/-- The memory at a displacement from the index register in place of the memory at `hl`. -/
def displace (x : Index) (s : Slot) : Slot := if s = viaHL then .indexed x else s

/-- The template under an index prefix. An operand in the memory at `hl` gets a displacement, and
then `h` and `l` keep their meaning; a jump to `hl` takes its address from the index register
itself; anything else uses the index register in place of `hl`. -/
def redirect (x : Index) (t : Template) : Template :=
  if t.mnemonic ≠ .jp ∧ viaHL ∈ t.slots then ⟨t.mnemonic, t.slots.map (displace x)⟩
  else ⟨t.mnemonic, t.slots.map (substitute x)⟩

end Template

end MemoryAtlas.Z80
