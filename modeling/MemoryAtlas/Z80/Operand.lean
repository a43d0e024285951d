import MemoryAtlas.Text.Hex

/-!
# Operands

The operands of an instruction as assembly text shows them: registers, conditions, numbers,
addresses and memory cells. `Operand.text` is their written form.
-/

namespace MemoryAtlas.Z80

open Text

/-- An index register. Its prefix byte makes it stand in for `hl`. -/
inductive Index where
  | ix
  | iy
  deriving DecidableEq, Repr

/-- The byte that selects an index register. -/
def Index.prefixByte : Index → UInt8
  | .ix => 0xDD
  | .iy => 0xFD

/-- An 8-bit register, or a half of an index register. -/
inductive Register where
  | b | c | d | e | h | l | a | f | i | r
  | high (x : Index)
  | low (x : Index)
  deriving DecidableEq, Repr

/-- A 16-bit register. -/
inductive Pair where
  | bc | de | hl | sp | af
  | index (x : Index)
  deriving DecidableEq, Repr

/-- A condition on the flags. -/
inductive Condition where
  | nz | z | nc | c | po | pe | p | m
  deriving DecidableEq, Repr

/-- An operand of an instruction. -/
inductive Operand where
  /-- An 8-bit register. -/
  | register (name : Register)
  /-- A 16-bit register. -/
  | pair (p : Pair)
  /-- The shadow accumulator and flags. -/
  | shadow
  /-- A condition. -/
  | condition (test : Condition)
  /-- A small number that is part of the opcode: a bit, an interrupt mode. -/
  | digit (n : Nat)
  /-- The memory that a register pair points to. -/
  | via (p : Pair)
  /-- The I/O port that register `c` names. -/
  | portC
  /-- A byte. -/
  | byte (v : UInt8)
  /-- A 16-bit number. -/
  | word (v : Nat)
  /-- The I/O port of a given number. -/
  | port (v : UInt8)
  /-- The memory at a given address. -/
  | cell (v : Nat)
  /-- An address that control may go to. -/
  | target (a : Nat)
  /-- The restart address that control may go to. -/
  | restart (a : Nat)
  /-- The memory at a displacement from an index register. -/
  | indexed (x : Index) (displacement : Int)
  deriving DecidableEq, Repr

/-- The name of an index register. -/
def Index.text : Index → String
  | .ix => "ix"
  | .iy => "iy"

/-- The name of an 8-bit register. -/
def Register.text : Register → String
  | .b => "b"
  | .c => "c"
  | .d => "d"
  | .e => "e"
  | .h => "h"
  | .l => "l"
  | .a => "a"
  | .f => "f"
  | .i => "i"
  | .r => "r"
  | .high x => x.text ++ "h"
  | .low x => x.text ++ "l"

/-- The name of a 16-bit register. -/
def Pair.text : Pair → String
  | .bc => "bc"
  | .de => "de"
  | .hl => "hl"
  | .sp => "sp"
  | .af => "af"
  | .index x => x.text

/-- The name of a condition. -/
def Condition.text : Condition → String
  | .nz => "nz"
  | .z => "z"
  | .nc => "nc"
  | .c => "c"
  | .po => "po"
  | .pe => "pe"
  | .p => "p"
  | .m => "m"

/-- A displacement, always with its sign: `+5`, `+0`, `-128`. -/
def showSigned (d : Int) : String :=
  if d < 0 then "-" ++ toString d.natAbs else "+" ++ toString d.natAbs

/-- The written form of an operand. -/
def Operand.text : Operand → String
  | register name => name.text
  | pair p => p.text
  | shadow => "af'"
  | condition test => test.text
  | digit n => toString n
  | via p => "(" ++ p.text ++ ")"
  | portC => "(c)"
  | byte v => "$" ++ hexLower 2 v.toNat
  | word v => "$" ++ hexLower 4 v
  | port v => "($" ++ hexLower 2 v.toNat ++ ")"
  | cell v => "($" ++ hexLower 4 v ++ ")"
  | target a => "$" ++ hexLower 4 a
  | restart a => "$" ++ hexLower 2 a
  | indexed x d => "(" ++ x.text ++ showSigned d ++ ")"

/-- The address that an operand names as a destination of control. -/
def Operand.destination? : Operand → Option Nat
  | target a => some a
  | restart a => some a
  | _ => none

end MemoryAtlas.Z80
