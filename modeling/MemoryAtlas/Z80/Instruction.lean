import MemoryAtlas.Z80.RepeatCeilings

/-!
# Instructions

Decoding never fails and never reaches past its limit: where an instruction would, the byte at the
address stands for itself. So a walk from any address to any limit is a list of instructions that
tile the range.

## Main definitions

* `decode`: the instruction at an address, below a limit.
* `instructions`: the instructions from an address up to a limit.
* `instructionsUntil`: the same, as far as the first instruction with a given property.

## Main results

* `lt_stop_decode`, `stop_decode_le`: decoding advances, and does not pass the limit.
* `instructions_of_lt`, `instructions_of_le`: the walk, one instruction at a time.
* `walk_induction`: induction along a walk.
* `bounds_of_mem_instructionsUntil`: a walk stays in its range.
-/

namespace MemoryAtlas.Z80

/-- A decoded instruction. -/
structure Instruction where
  /-- The address of the first byte. -/
  address : Nat
  /-- The bytes. -/
  bytes : List UInt8
  /-- The class of its opcode. -/
  classId : Nat
  /-- The repeat ceiling of its class; zero for a byte that stands for itself. -/
  ceiling : Int
  /-- What it does. -/
  operation : Operation
  deriving DecidableEq, Repr

namespace Instruction

/-- The number of bytes. -/
def size (i : Instruction) : Nat := i.bytes.length

/-- The address after the last byte. -/
def stop (i : Instruction) : Nat := i.address + i.size

/-- Where control goes next. -/
def flow (i : Instruction) : Flow := i.operation.flow

/-- Control never reaches the next instruction. -/
def isTerminal (i : Instruction) : Bool := i.flow.isTerminal

/-- The address that it branches to or calls. -/
def target? (i : Instruction) : Option Nat := i.operation.target?

/-- The address that it jumps to by `jp` or `jr`. -/
def jumpTarget? (i : Instruction) : Option Nat := i.operation.jumpTarget?

/-- The kind of reference that it makes to its target. -/
def referenceKind (i : Instruction) : ReferenceKind := i.flow.referenceKind

/-- The written form. -/
def text (i : Instruction) : String := i.operation.text

end Instruction

/-- The byte at an address, standing for itself. -/
def rawByte (m : Image) (a : Nat) : Instruction where
  address := a
  bytes := [m.read a]
  classId := rawClass + (m.read a).toNat
  ceiling := 0
  operation := ⟨.defb, [.byte (m.read a)]⟩

/-- The instruction of an opcode at an address. -/
def Opcode.instruction (t : RepeatCeilings) (m : Image) (a : Nat) (o : Opcode) : Instruction where
  address := a
  bytes := m.slice a (a + o.size)
  classId := o.classId
  ceiling := t.ceiling o.classId
  operation := o.template.fill m (a + o.operandOffset) (a + o.size)

/-- The instruction at `a`, if it ends at or below `limit` and the top of the memory; otherwise the
byte at `a`. -/
def decode (t : RepeatCeilings) (m : Image) (a limit : Nat) : Instruction :=
  let o := Opcode.fetch m a
  if a + o.size ≤ min limit addressSpace then o.instruction t m a else rawByte m a

/-! ### One instruction -/

section Decode

variable {t : RepeatCeilings} {m : Image} {a limit : Nat} {o : Opcode}

theorem Opcode.size_instruction (fits : a + o.size ≤ addressSpace) :
    (o.instruction t m a).size = o.size := by
  rw [Instruction.size, instruction, Image.length_slice]
  omega

theorem Opcode.stop_instruction (fits : a + o.size ≤ addressSpace) :
    (o.instruction t m a).stop = a + o.size :=
  congrArg (a + ·) (size_instruction fits)

theorem decode_of_le (fits : a + (Opcode.fetch m a).size ≤ min limit addressSpace) :
    decode t m a limit = (Opcode.fetch m a).instruction t m a :=
  if_pos fits

theorem decode_of_lt (past : min limit addressSpace < a + (Opcode.fetch m a).size) :
    decode t m a limit = rawByte m a :=
  if_neg (Nat.not_le_of_lt past)

variable (t m a limit)

/-- There are two ways to decode. -/
theorem decode_cases :
    a + (Opcode.fetch m a).size ≤ min limit addressSpace ∧
        decode t m a limit = (Opcode.fetch m a).instruction t m a ∨
      min limit addressSpace < a + (Opcode.fetch m a).size ∧ decode t m a limit = rawByte m a := by
  rcases Nat.lt_or_ge (min limit addressSpace) (a + (Opcode.fetch m a).size) with past | fits
  · exact .inr ⟨past, decode_of_lt past⟩
  · exact .inl ⟨fits, decode_of_le fits⟩

@[simp]
theorem address_decode : (decode t m a limit).address = a := by
  rcases decode_cases t m a limit with ⟨-, eq⟩ | ⟨-, eq⟩ <;> rw [eq] <;> rfl

/-- An instruction has at least one byte. -/
theorem one_le_size_decode : 1 ≤ (decode t m a limit).size := by
  rcases decode_cases t m a limit with ⟨fits, eq⟩ | ⟨-, eq⟩
  · rw [eq, Opcode.size_instruction (by omega)]
    exact Opcode.one_le_size _
  · rw [eq]
    exact Nat.le_refl 1

/-- An instruction that does not fit stands for its first byte, so none has more bytes than its
opcode asks for. -/
theorem size_decode_le : (decode t m a limit).size ≤ (Opcode.fetch m a).size := by
  rcases decode_cases t m a limit with ⟨fits, eq⟩ | ⟨-, eq⟩
  · rw [eq]
    exact Nat.le_of_eq (Opcode.size_instruction (by omega))
  · rw [eq]
    exact Opcode.one_le_size _

/-- Decoding advances. -/
theorem lt_stop_decode : a < (decode t m a limit).stop := by
  have := one_le_size_decode t m a limit
  rw [Instruction.stop, address_decode]
  omega

variable {a limit}

/-- An instruction does not pass the limit. -/
theorem stop_decode_le (lt : a < limit) : (decode t m a limit).stop ≤ limit := by
  rcases decode_cases t m a limit with ⟨fits, eq⟩ | ⟨-, eq⟩
  · rw [eq, Opcode.stop_instruction (by omega)]
    omega
  · rw [eq]
    exact lt

end Decode

/-- The instructions from `a` up to `limit` or the first on which `halt` holds, after those already
found, which are kept last first. -/
def walk (halt : Instruction → Bool) (t : RepeatCeilings) (m : Image) (limit : Nat)
    (found : List Instruction) (a : Nat) : List Instruction :=
  if a < limit then
    let i := decode t m a limit
    if halt i then (i :: found).reverse else walk halt t m limit (i :: found) i.stop
  else found.reverse
termination_by limit - a
decreasing_by
  have := lt_stop_decode t m a limit
  omega

/-- The instructions from `a` up to `limit`, as far as the first on which `halt` holds. -/
def instructionsUntil (halt : Instruction → Bool) (t : RepeatCeilings) (m : Image)
    (a limit : Nat) : List Instruction :=
  walk halt t m limit [] a

/-- The instructions from `a` up to `limit`. -/
def instructions (t : RepeatCeilings) (m : Image) (a limit : Nat) : List Instruction :=
  instructionsUntil (fun _ => false) t m a limit

/-! ### One instruction at a time -/

section Walk

variable (halt : Instruction → Bool) (t : RepeatCeilings) (m : Image)

/-- Induction along a walk: a property of all addresses at or above the limit that each instruction
hands back from its end to its start. -/
@[elab_as_elim]
theorem walk_induction {motive : Nat → Prop} (limit : Nat) (done : ∀ a, limit ≤ a → motive a)
    (step : ∀ a, a < limit → motive (decode t m a limit).stop → motive a) (a : Nat) : motive a := by
  induction hn : limit - a using Nat.strongRecOn generalizing a with
  | ind n ih =>
    by_cases lt : a < limit
    · have := lt_stop_decode t m a limit
      exact step a lt (ih _ (by omega) _ rfl)
    · exact done a (Nat.le_of_not_lt lt)

theorem walk_eq (limit : Nat) (found : List Instruction) (a : Nat) :
    walk halt t m limit found a = found.reverse ++ instructionsUntil halt t m a limit := by
  unfold instructionsUntil
  induction a using walk_induction t m limit generalizing found with
  | done a ge =>
    rw [walk, walk, if_neg (Nat.not_lt_of_le ge), if_neg (Nat.not_lt_of_le ge)]
    simp
  | step a lt ih =>
    rw [walk, walk, if_pos lt, if_pos lt]
    dsimp only
    split
    · simp
    · rw [ih, ih [_]]
      simp

/-- At or above the limit there is no instruction. -/
theorem instructionsUntil_of_le {a limit : Nat} (h : limit ≤ a) :
    instructionsUntil halt t m a limit = [] := by
  rw [instructionsUntil, walk, if_neg (by omega)]
  rfl

/-- Below the limit the instruction at the address comes first, and the last if it halts. -/
theorem instructionsUntil_of_lt {a limit : Nat} (h : a < limit) :
    instructionsUntil halt t m a limit =
      decode t m a limit ::
        if halt (decode t m a limit) then []
        else instructionsUntil halt t m (decode t m a limit).stop limit := by
  rw [instructionsUntil, walk, if_pos h]
  dsimp only
  split
  · rfl
  · rw [walk_eq]
    rfl

/-- At or above the limit there is no instruction. -/
theorem instructions_of_le {a limit : Nat} (h : limit ≤ a) : instructions t m a limit = [] :=
  instructionsUntil_of_le _ t m h

/-- Below the limit the instruction at the address comes first. -/
theorem instructions_of_lt {a limit : Nat} (h : a < limit) :
    instructions t m a limit =
      decode t m a limit :: instructions t m (decode t m a limit).stop limit := by
  rw [instructions, instructionsUntil_of_lt _ t m h]
  rfl

/-- The instructions of a walk lie in its range. -/
theorem bounds_of_mem_instructionsUntil {a limit : Nat} {i : Instruction}
    (h : i ∈ instructionsUntil halt t m a limit) :
    a ≤ i.address ∧ i.address < i.stop ∧ i.stop ≤ limit := by
  induction a using walk_induction t m limit with
  | done a ge =>
    rw [instructionsUntil_of_le halt t m ge] at h
    cases h
  | step a lt ih =>
    have advance := lt_stop_decode t m a limit
    rw [instructionsUntil_of_lt halt t m lt] at h
    rcases List.mem_cons.1 h with rfl | h
    · rw [address_decode]
      exact ⟨Nat.le_refl a, advance, stop_decode_le t m lt⟩
    · split at h
      · cases h
      · have := ih h
        omega

end Walk

end MemoryAtlas.Z80
