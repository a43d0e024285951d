import MemoryAtlas.Z80.Operand

/-!
# Operations

An operation is a mnemonic and its operands. Where control goes next, which address it names and
how it is written are functions of the operation.

## Main definitions

* `Operation.flow`: whether control falls through, may branch, jumps or returns.
* `Operation.target?`: the address that the operation branches to or calls.
* `Operation.jumpTarget?`: the same for the jumps `jp` and `jr` alone.
* `Operation.text`: the written form.
-/

namespace MemoryAtlas.Z80

/-- The mnemonics. `defb` stands for bytes that are no instruction. -/
inductive Mnemonic where
  | nop | ex | djnz | jr | ld | add | inc | dec | rlca | rrca | rla | rra | daa | cpl | scf | ccf
  | halt | adc | sub | sbc | conj | xor | disj | cp | ret | pop | exx | jp | output | input | di
  | ei | call | push | rst | rlc | rrc | rl | rr | sla | sra | sll | srl | bit | res | set | neg
  | reti | retn | im | rrd | rld | ldi | cpi | ini | outi | ldd | cpd | ind | outd | ldir | cpir
  | inir | otir | lddr | cpdr | indr | otdr | defb
  deriving DecidableEq, Repr

/-- The written form of a mnemonic. -/
def Mnemonic.text : Mnemonic → String
  | nop => "nop"
  | ex => "ex"
  | djnz => "djnz"
  | jr => "jr"
  | ld => "ld"
  | add => "add"
  | inc => "inc"
  | dec => "dec"
  | rlca => "rlca"
  | rrca => "rrca"
  | rla => "rla"
  | rra => "rra"
  | daa => "daa"
  | cpl => "cpl"
  | scf => "scf"
  | ccf => "ccf"
  | halt => "halt"
  | adc => "adc"
  | sub => "sub"
  | sbc => "sbc"
  | conj => "and"
  | xor => "xor"
  | disj => "or"
  | cp => "cp"
  | ret => "ret"
  | pop => "pop"
  | exx => "exx"
  | jp => "jp"
  | output => "out"
  | input => "in"
  | di => "di"
  | ei => "ei"
  | call => "call"
  | push => "push"
  | rst => "rst"
  | rlc => "rlc"
  | rrc => "rrc"
  | rl => "rl"
  | rr => "rr"
  | sla => "sla"
  | sra => "sra"
  | sll => "sll"
  | srl => "srl"
  | bit => "bit"
  | res => "res"
  | set => "set"
  | neg => "neg"
  | reti => "reti"
  | retn => "retn"
  | im => "im"
  | rrd => "rrd"
  | rld => "rld"
  | ldi => "ldi"
  | cpi => "cpi"
  | ini => "ini"
  | outi => "outi"
  | ldd => "ldd"
  | cpd => "cpd"
  | ind => "ind"
  | outd => "outd"
  | ldir => "ldir"
  | cpir => "cpir"
  | inir => "inir"
  | otir => "otir"
  | lddr => "lddr"
  | cpdr => "cpdr"
  | indr => "indr"
  | otdr => "otdr"
  | defb => "defb"

/-- Where control goes after an instruction. -/
inductive Flow where
  /-- To the next instruction, at once or after a call. -/
  | sequential
  /-- To the next instruction or elsewhere, as a condition decides. -/
  | conditional
  /-- Elsewhere. -/
  | jump
  /-- Back to a caller. -/
  | leave
  deriving DecidableEq, Repr

/-- Control never reaches the next instruction. -/
def Flow.isTerminal : Flow → Bool
  | .jump | .leave => true
  | .sequential | .conditional => false

/-- What a reference to an address makes of it. -/
inductive ReferenceKind where
  /-- A place that is branched to. -/
  | location
  /-- A routine that is called. -/
  | routine
  deriving DecidableEq, Repr

/-- The word for a kind of reference in records. -/
def ReferenceKind.text : ReferenceKind → String
  | location => "LOC"
  | routine => "FUN"

/-- The kind of reference that an instruction of this flow makes. -/
def Flow.referenceKind : Flow → ReferenceKind
  | .conditional | .jump => .location
  | .sequential | .leave => .routine

/-- A mnemonic with its operands. -/
structure Operation where
  mnemonic : Mnemonic
  operands : List Operand
  deriving DecidableEq, Repr

namespace Operation

/-- Where control goes after the operation. A jump or return with a condition may fall through;
calls and restarts come back. -/
def flow (o : Operation) : Flow :=
  match o.mnemonic, o.operands with
  | .jp, [_, _] | .jr, [_, _] => .conditional
  | .jp, _ | .jr, _ => .jump
  | .djnz, _ => .conditional
  | .ret, [] => .leave
  | .ret, _ => .conditional
  | .reti, _ | .retn, _ => .leave
  | _, _ => .sequential

/-- The address that the operation branches to or calls. -/
def target? (o : Operation) : Option Nat := o.operands.findSome? Operand.destination?

/-- The address that the operation jumps to, if it is a `jp` or `jr` to a fixed address. -/
def jumpTarget? (o : Operation) : Option Nat :=
  match o.mnemonic with
  | .jp | .jr => o.target?
  | _ => none

/-- The written form: the mnemonic, then the operands divided by commas. -/
def text (o : Operation) : String :=
  match o.operands with
  | [] => o.mnemonic.text
  | operands => o.mnemonic.text ++ " " ++ String.intercalate "," (operands.map Operand.text)

end Operation

end MemoryAtlas.Z80
