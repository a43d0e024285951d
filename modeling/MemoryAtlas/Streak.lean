import MemoryAtlas.Record

/-!
# Streaks

A streak is a run of instructions of one opcode class. One that reaches the ceiling of its class is
taken for data in disguise.
-/

namespace MemoryAtlas

/-- Instructions of one class in a row. -/
structure Streak where
  /-- The bytes of the first one. -/
  bytes : List UInt8
  /-- Its ceiling. -/
  ceiling : Int
  /-- How many there are. -/
  count : Nat
  deriving DecidableEq, Repr

namespace Streak

/-- The opcodes of the loads of `h` and `l` from the memory at `hl`, of which programs use two in a
row. -/
def pointerLoads : List UInt8 := [0x66, 0x6E]

/-- Whether the streak starts with a load of half of the pointer from where it points. -/
def isPointerLoad (s : Streak) : Bool :=
  match s.bytes with
  | [] => false
  | op :: _ => pointerLoads.contains op

/-- Whether the streak is data in disguise: its ceiling is positive and reached, and it is not a
pair of pointer loads. -/
def isDisguised (s : Streak) : Bool :=
  0 < s.ceiling && s.ceiling ≤ s.count && !(s.count == 2 && s.isPointerLoad)

/-- What an ended streak makes of a pending block: the boundary to enter, if any, the start of the
next pending block, and the report. Data in disguise turns all that is pending into data, in a block
of its own unless the last block is data already. -/
def resolve (s : Streak) (pending stop : Nat) (last : Option Tag) :
    Logged (Option (Nat × Tag) × Nat) :=
  if s.isDisguised then
    let boundary := if last = some .bytes then none else some (pending, .bytes)
    ⟨(boundary, stop), [.disguised s.count s.bytes pending]⟩
  else pure (none, pending)

end Streak

end MemoryAtlas
