import MemoryAtlas.Z80.Template

/-!
# Opcodes

An opcode is a page, chosen by prefix bytes, and a byte in it. It fixes the template of an
instruction and its class number; the operand bytes play no part in either.

The byte of an opcode is read as three fields: two high bits, then three bits that name a register,
condition or operation, then three bits that choose a family.

## Main definitions

* `Opcode.fetch`: the opcode at an address.
* `Opcode.classId`: the number that names an opcode in settings.
* `Opcode.template`, `Opcode.size`: its operation template and the length of its instructions.
-/

namespace MemoryAtlas.Z80

/-- An opcode: the page that the prefixes select and the byte that follows them. -/
inductive Opcode where
  /-- A byte without prefix. -/
  | plain (op : UInt8)
  /-- A byte after `CB`. -/
  | bits (op : UInt8)
  /-- A byte after `ED`. -/
  | extended (op : UInt8)
  /-- A byte after an index prefix. -/
  | indexed (x : Index) (op : UInt8)
  /-- The byte after an index prefix, `CB` and a displacement. -/
  | indexedBits (x : Index) (op : UInt8)
  /-- An index prefix that another prefix makes void. -/
  | void (x : Index)
  deriving DecidableEq, Repr

/-- Classes from here on name single bytes that are no instruction. -/
def rawClass : Nat := 0x1000000

namespace Opcode

/-- The number of an opcode: its prefix and opcode bytes, without operands. -/
def classId : Opcode → Nat
  | plain op => op.toNat
  | bits op => 0xCB00 + op.toNat
  | extended op => 0xED00 + op.toNat
  | indexed x op => x.prefixByte.toNat * 0x100 + op.toNat
  | indexedBits x op => x.prefixByte.toNat * 0x10000 + 0xCB00 + op.toNat
  | void x => rawClass + x.prefixByte.toNat

/-- The opcode after an index prefix at `a`. -/
def fetchIndexed (m : Image) (a : Nat) (x : Index) : Opcode :=
  match m.read (a + 1) with
  | 0xDD | 0xED | 0xFD => void x
  | 0xCB => indexedBits x (m.read (a + 3))
  | op => indexed x op

/-- The opcode at an address. -/
def fetch (m : Image) (a : Nat) : Opcode :=
  match m.read a with
  | 0xCB => bits (m.read (a + 1))
  | 0xED => extended (m.read (a + 1))
  | 0xDD => fetchIndexed m a .ix
  | 0xFD => fetchIndexed m a .iy
  | op => plain op

/-! ### The fields of an opcode byte -/

/-- The two high bits. -/
def group (op : UInt8) : Nat := op.toNat / 64

/-- The three middle bits. -/
def middle (op : UInt8) : Nat := op.toNat / 8 % 8

/-- The three low bits. -/
def family (op : UInt8) : Nat := op.toNat % 8

/-- An 8-bit register as a slot. -/
def reg (name : Register) : Slot := .fixed (.register name)

/-- A 16-bit register as a slot. -/
def reg16 (p : Pair) : Slot := .fixed (.pair p)

/-- The 8-bit operand that three bits name. -/
def reg8 : Nat → Slot
  | 0 => reg .b
  | 1 => reg .c
  | 2 => reg .d
  | 3 => reg .e
  | 4 => reg .h
  | 5 => reg .l
  | 6 => Template.viaHL
  | _ => reg .a

/-- The 16-bit operand of arithmetic and loads that two bits name. -/
def pair : Nat → Pair
  | 0 => .bc
  | 1 => .de
  | 2 => .hl
  | _ => .sp

/-- The 16-bit operand of a stack operation that two bits name. -/
def stackPair : Nat → Pair
  | 0 => .bc
  | 1 => .de
  | 2 => .hl
  | _ => .af

/-- The condition that three bits name. -/
def condition : Nat → Slot
  | 0 => .fixed (.condition .nz)
  | 1 => .fixed (.condition .z)
  | 2 => .fixed (.condition .nc)
  | 3 => .fixed (.condition .c)
  | 4 => .fixed (.condition .po)
  | 5 => .fixed (.condition .pe)
  | 6 => .fixed (.condition .p)
  | _ => .fixed (.condition .m)

/-- The arithmetic on the accumulator that three bits name, with its other operand. -/
def arithmetic (operand : Slot) : Nat → Template
  | 0 => ⟨.add, [reg .a, operand]⟩
  | 1 => ⟨.adc, [reg .a, operand]⟩
  | 2 => ⟨.sub, [operand]⟩
  | 3 => ⟨.sbc, [reg .a, operand]⟩
  | 4 => ⟨.conj, [operand]⟩
  | 5 => ⟨.xor, [operand]⟩
  | 6 => ⟨.disj, [operand]⟩
  | _ => ⟨.cp, [operand]⟩

/-- The operation on accumulator and flags that three bits name. -/
def adjustment : Nat → Mnemonic
  | 0 => .rlca
  | 1 => .rrca
  | 2 => .rla
  | 3 => .rra
  | 4 => .daa
  | 5 => .cpl
  | 6 => .scf
  | _ => .ccf

/-- The rotation or shift that three bits name. -/
def rotation : Nat → Mnemonic
  | 0 => .rlc
  | 1 => .rrc
  | 2 => .rl
  | 3 => .rr
  | 4 => .sla
  | 5 => .sra
  | 6 => .sll
  | _ => .srl

/-! ### Templates -/

/-- Relative jumps and the operations that share their family. -/
def branches : Nat → Template
  | 0 => ⟨.nop, []⟩
  | 1 => ⟨.ex, [reg16 .af, .fixed .shadow]⟩
  | 2 => ⟨.djnz, [.relative]⟩
  | 3 => ⟨.jr, [.relative]⟩
  | n => ⟨.jr, [condition (n - 4), .relative]⟩

/-- Loads of the accumulator and `hl` through memory. -/
def memoryLoads : Nat → Template
  | 0 => ⟨.ld, [.fixed (.via .bc), reg .a]⟩
  | 1 => ⟨.ld, [reg .a, .fixed (.via .bc)]⟩
  | 2 => ⟨.ld, [.fixed (.via .de), reg .a]⟩
  | 3 => ⟨.ld, [reg .a, .fixed (.via .de)]⟩
  | 4 => ⟨.ld, [.cell, reg16 .hl]⟩
  | 5 => ⟨.ld, [reg16 .hl, .cell]⟩
  | 6 => ⟨.ld, [.cell, reg .a]⟩
  | _ => ⟨.ld, [reg .a, .cell]⟩

/-- The opcodes below `40`. -/
def lowTemplate (y : Nat) : Nat → Template
  | 0 => branches y
  | 1 =>
    if y % 2 = 0 then ⟨.ld, [reg16 (pair (y / 2)), .word]⟩
    else ⟨.add, [reg16 .hl, reg16 (pair (y / 2))]⟩
  | 2 => memoryLoads y
  | 3 => ⟨if y % 2 = 0 then .inc else .dec, [reg16 (pair (y / 2))]⟩
  | 4 => ⟨.inc, [reg8 y]⟩
  | 5 => ⟨.dec, [reg8 y]⟩
  | 6 => ⟨.ld, [reg8 y, .byte]⟩
  | _ => ⟨adjustment y, []⟩

/-- Returns, stack loads and the operations that share their family. -/
def returns (y : Nat) : Template :=
  if y % 2 = 0 then ⟨.pop, [reg16 (stackPair (y / 2))]⟩
  else match y / 2 with
    | 0 => ⟨.ret, []⟩
    | 1 => ⟨.exx, []⟩
    | 2 => ⟨.jp, [Template.viaHL]⟩
    | _ => ⟨.ld, [reg16 .sp, reg16 .hl]⟩

/-- Jumps, input and output, exchanges and interrupts. The byte `CB` is a prefix and has no
operation. -/
def exchanges : Nat → Template
  | 0 => ⟨.jp, [.absolute]⟩
  | 2 => ⟨.output, [.port, reg .a]⟩
  | 3 => ⟨.input, [reg .a, .port]⟩
  | 4 => ⟨.ex, [.fixed (.via .sp), reg16 .hl]⟩
  | 5 => ⟨.ex, [reg16 .de, reg16 .hl]⟩
  | 6 => ⟨.di, []⟩
  | 7 => ⟨.ei, []⟩
  | _ => ⟨.defb, [.fixed (.byte 0xCB)]⟩

/-- Stack stores and the call. The bytes `DD`, `ED` and `FD` are prefixes and have no operation. -/
def calls (y : Nat) : Template :=
  if y % 2 = 0 then ⟨.push, [reg16 (stackPair (y / 2))]⟩
  else match y / 2 with
    | 0 => ⟨.call, [.absolute]⟩
    | 1 => ⟨.defb, [.fixed (.byte 0xDD)]⟩
    | 2 => ⟨.defb, [.fixed (.byte 0xED)]⟩
    | _ => ⟨.defb, [.fixed (.byte 0xFD)]⟩

/-- The opcodes from `C0` on. -/
def highTemplate (y : Nat) : Nat → Template
  | 0 => ⟨.ret, [condition y]⟩
  | 1 => returns y
  | 2 => ⟨.jp, [condition y, .absolute]⟩
  | 3 => exchanges y
  | 4 => ⟨.call, [condition y, .absolute]⟩
  | 5 => calls y
  | 6 => arithmetic .byte y
  | _ => ⟨.rst, [.fixed (.restart (8 * y))]⟩

/-- The template of an opcode without prefix. -/
def plainTemplate (op : UInt8) : Template :=
  let y := middle op
  let z := family op
  match group op with
  | 0 => lowTemplate y z
  | 1 => if y = 6 ∧ z = 6 then ⟨.halt, []⟩ else ⟨.ld, [reg8 y, reg8 z]⟩
  | 2 => arithmetic (reg8 z) y
  | _ => highTemplate y z

/-- The template of an opcode after an index prefix. The exchange of `de` and `hl` has no indexed
form. -/
def indexedTemplate (x : Index) (op : UInt8) : Template :=
  if op = 0xEB then plainTemplate op else (plainTemplate op).redirect x

/-- The template of an opcode after `CB`: a rotation, or a test, reset or set of one bit. -/
def bitsTemplate (op : UInt8) : Template :=
  let y := middle op
  let operand := reg8 (family op)
  match group op with
  | 0 => ⟨rotation y, [operand]⟩
  | 1 => ⟨.bit, [.fixed (.digit y), operand]⟩
  | 2 => ⟨.res, [.fixed (.digit y), operand]⟩
  | _ => ⟨.set, [.fixed (.digit y), operand]⟩

/-- The template of an opcode after an index prefix and `CB`. All operate on memory; a register
named beside it gets a copy of the result, except from a test. -/
def indexedBitsTemplate (x : Index) (op : UInt8) : Template :=
  let y := middle op
  let copy := if family op = 6 then [] else [reg8 (family op)]
  match group op with
  | 0 => ⟨rotation y, .indexed x :: copy⟩
  | 1 => ⟨.bit, [.fixed (.digit y), .indexed x]⟩
  | 2 => ⟨.res, .fixed (.digit y) :: .indexed x :: copy⟩
  | _ => ⟨.set, .fixed (.digit y) :: .indexed x :: copy⟩

/-- The block operation at a step direction (up, down, up repeated, down repeated) and a family. -/
def blockOperation : Nat → Nat → Mnemonic
  | 0, 0 => .ldi
  | 0, 1 => .cpi
  | 0, 2 => .ini
  | 0, _ => .outi
  | 1, 0 => .ldd
  | 1, 1 => .cpd
  | 1, 2 => .ind
  | 1, _ => .outd
  | 2, 0 => .ldir
  | 2, 1 => .cpir
  | 2, 2 => .inir
  | 2, _ => .otir
  | _, 0 => .lddr
  | _, 1 => .cpdr
  | _, 2 => .indr
  | _, _ => .otdr

/-- The interrupt mode that three bits name. -/
def interruptMode : Nat → Nat
  | 2 | 6 => 1
  | 3 | 7 => 2
  | _ => 0

/-- Loads of the interrupt and refresh registers and the decimal rotations. -/
def specialLoads : Nat → Template
  | 0 => ⟨.ld, [reg .i, reg .a]⟩
  | 1 => ⟨.ld, [reg .r, reg .a]⟩
  | 2 => ⟨.ld, [reg .a, reg .i]⟩
  | 3 => ⟨.ld, [reg .a, reg .r]⟩
  | 4 => ⟨.rrd, []⟩
  | 5 => ⟨.rld, []⟩
  | _ => ⟨.nop, []⟩

/-- The opcodes from `40` to `7F` after `ED`. -/
def extendedMiddle (y : Nat) : Nat → Template
  | 0 => ⟨.input, [if y = 6 then reg .f else reg8 y, .fixed .portC]⟩
  | 1 => ⟨.output, [.fixed .portC, if y = 6 then .fixed (.digit 0) else reg8 y]⟩
  | 2 => ⟨if y % 2 = 0 then .sbc else .adc, [reg16 .hl, reg16 (pair (y / 2))]⟩
  | 3 =>
    if y % 2 = 0 then ⟨.ld, [.cell, reg16 (pair (y / 2))]⟩
    else ⟨.ld, [reg16 (pair (y / 2)), .cell]⟩
  | 4 => ⟨.neg, []⟩
  | 5 => ⟨if y = 1 then .reti else .retn, []⟩
  | 6 => ⟨.im, [.fixed (.digit (interruptMode y))]⟩
  | _ => specialLoads y

/-- The template of an opcode after `ED`; an undefined one stands for its two bytes. -/
def extendedTemplate (op : UInt8) : Template :=
  let y := middle op
  let z := family op
  if group op = 1 then extendedMiddle y z
  else if group op = 2 ∧ 4 ≤ y ∧ z ≤ 3 then ⟨blockOperation (y - 4) z, []⟩
  else ⟨.defb, [.fixed (.byte 0xED), .fixed (.byte op)]⟩

/-- The template of an opcode. -/
def template : Opcode → Template
  | plain op => plainTemplate op
  | bits op => bitsTemplate op
  | extended op => extendedTemplate op
  | indexed x op => indexedTemplate x op
  | indexedBits x op => indexedBitsTemplate x op
  | void x => ⟨.defb, [.fixed (.byte x.prefixByte)]⟩

/-- The prefix and opcode bytes of an instruction. -/
def fixedBytes : Opcode → Nat
  | plain _ | void _ => 1
  | bits _ | extended _ | indexed _ _ => 2
  | indexedBits _ _ => 3

/-- How far the operand bytes are from the start of the instruction. They follow the opcode,
except that the displacement stands before it after an index prefix and `CB`. -/
def operandOffset : Opcode → Nat
  | indexedBits _ _ => 2
  | o => o.fixedBytes

/-- The length of an instruction. -/
def size (o : Opcode) : Nat := o.fixedBytes + o.template.width

theorem one_le_size (o : Opcode) : 1 ≤ o.size := by
  have : 1 ≤ o.fixedBytes := by cases o <;> simp [fixedBytes]
  exact Nat.le_trans this (Nat.le_add_right ..)

end Opcode

end MemoryAtlas.Z80
