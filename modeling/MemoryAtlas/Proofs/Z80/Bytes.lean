import Mathlib.Data.List.Chain
import MemoryAtlas.Proofs.Z80.Jumps

/-!
# The bytes of a walk

A walk takes every byte of its range once, in order. No byte is lost where an instruction is cut
short at the limit, since the first byte of it then stands for itself and the walk goes on with the
second; and none is taken twice, since an instruction starts where the one before it ends.

## Main results

* `Image.slice_append`: the bytes of two adjacent ranges.
* `Z80.bytes_decode`, `Z80.size_decode_le_four`: the bytes of an instruction.
* `Z80.flatMap_bytes_instructions`: the bytes of a walk.
* `Z80.instructions_partition`: a walk through a range of the memory.
-/

namespace MemoryAtlas

theorem Image.slice_of_le (m : Image) {a b : Nat} (le : b ≤ a) : m.slice a b = [] := by
  rw [slice, show min b addressSpace - a = 0 by omega]
  rfl

theorem Image.slice_succ (m : Image) {a : Nat} (lt : a < addressSpace) :
    m.slice a (a + 1) = [m.read a] := by
  rw [slice, show min (a + 1) addressSpace - a = 1 by omega]
  rfl

/-- The bytes of two adjacent ranges are those of both together. -/
theorem Image.slice_append (m : Image) {a b c : Nat} (lower : a ≤ b) (upper : b ≤ c) :
    m.slice a b ++ m.slice b c = m.slice a c := by
  rw [slice, slice, slice, ← List.map_append]
  refine congrArg (List.map m.read) ?_
  by_cases top : b ≤ addressSpace
  · obtain ⟨n, rfl⟩ := Nat.exists_eq_add_of_le lower
    rw [show min (a + n) addressSpace - a = n by omega, List.range'_append_1,
      show n + (min c addressSpace - (a + n)) = min c addressSpace - a by omega]
  · -- Above the top of the memory there is nothing to add.
    rw [show min c addressSpace - b = 0 by omega,
      show min c addressSpace - a = min b addressSpace - a by omega, List.range'_zero,
      List.append_nil]

namespace Z80

variable {t : RepeatCeilings} {m : Image} {a b limit : Nat} {l : List Instruction}

/-! ### Tiles -/

namespace Tiles

theorem head?_address (h : Tiles a l b) (ne : l ≠ []) :
    l.head?.map Instruction.address = some a := by
  cases l with
  | nil => exact absurd rfl ne
  | cons i rest => exact congrArg some h.1

/-- Each instruction starts where the one before it ends. -/
theorem isChain (h : Tiles a l b) : l.IsChain fun i j => j.address = i.stop := by
  induction l generalizing a with
  | nil => exact .nil
  | cons i rest ih =>
    obtain ⟨-, -, h⟩ := h
    cases rest with
    | nil => exact .singleton i
    | cons j rest => exact .cons_cons h.1 (ih h)

/-- There are no more instructions than addresses. -/
theorem length_le (h : Tiles a l b) : l.length ≤ b - a := by
  induction l generalizing a with
  | nil => exact Nat.zero_le _
  | cons i rest ih =>
    obtain ⟨-, lt, h⟩ := h
    have := ih h
    have := h.le
    rw [List.length_cons]
    omega

end Tiles

/-! ### Bytes -/

/-- The bytes of an instruction are those of the memory from its start to its end. -/
theorem bytes_decode (t : RepeatCeilings) (m : Image) (lt : a < addressSpace) (limit : Nat) :
    (decode t m a limit).bytes = m.slice a (decode t m a limit).stop := by
  rcases decode_cases t m a limit with ⟨fits, eq⟩ | ⟨-, eq⟩
  · -- What fits below the limit fits into the memory, so nothing of it is missing.
    rw [eq, Opcode.stop_instruction (by omega)]
    rfl
  · rw [eq]
    exact (m.slice_succ lt).symm

/-- No instruction has more than four bytes. -/
theorem size_decode_le_four (t : RepeatCeilings) (m : Image) (a limit : Nat) :
    (decode t m a limit).size ≤ 4 :=
  Nat.le_trans (size_decode_le t m a limit) (Opcode.size_le_four _)

/-- The bytes of a walk are those of its range. -/
theorem flatMap_bytes_instructions (le : limit ≤ addressSpace) :
    (instructions t m a limit).flatMap Instruction.bytes = m.slice a limit := by
  induction a using walk_induction t m limit with
  | done a ge => rw [instructions_of_le t m ge, m.slice_of_le ge, List.flatMap_nil]
  | step a lt ih =>
    have advance := lt_stop_decode t m a limit
    rw [instructions_of_lt t m lt, List.flatMap_cons, ih,
      bytes_decode t m (Nat.lt_of_lt_of_le lt le) limit]
    exact m.slice_append (Nat.le_of_lt advance) (stop_decode_le t m lt)

/-- A walk through a range of the memory takes finitely many instructions, each of them what its
address decodes to. The first starts where the range does, each other one where the one before it
ends, and the last ends where the range does; each has one to four bytes; and their bytes, one after
the other, are those of the range. -/
theorem instructions_partition (t : RepeatCeilings) (m : Image) {start limit : Nat}
    (lt : start < limit) (le : limit ≤ addressSpace) :
    (instructions t m start limit).length ≤ limit - start ∧
    (∀ i ∈ instructions t m start limit, i = decode t m i.address limit) ∧
    (instructions t m start limit).head?.map Instruction.address = some start ∧
    (instructions t m start limit).IsChain (fun i j => j.address = i.stop) ∧
    (instructions t m start limit).getLast?.map Instruction.stop = some limit ∧
    (∀ i ∈ instructions t m start limit, 1 ≤ i.size ∧ i.size ≤ 4) ∧
    (instructions t m start limit).flatMap Instruction.bytes = m.slice start limit := by
  have tiles := tiles_instructions t m (Nat.le_of_lt lt)
  have ne := instructions_ne_nil t m lt
  refine ⟨tiles.length_le, fun i mem => eq_decode_of_mem_instructions t m mem,
    tiles.head?_address ne, tiles.isChain, ?_, ?_, flatMap_bytes_instructions le⟩
  · rw [List.getLast?_eq_some_getLast ne, Option.map_some,
      tiles.stop_getLast? (List.getLast?_eq_some_getLast ne)]
  · intro i mem
    rw [eq_decode_of_mem_instructions t m mem]
    exact ⟨one_le_size_decode t m _ limit, size_decode_le_four t m _ limit⟩

/-- An instruction of each page with a prefix, a void prefix, and a jump that is cut short. -/
def prefixes : Image :=
  ⟨0, #[0xDD, 0xCB, 0x05, 0xC6, 0xED, 0x43, 0x00, 0x80, 0xFD, 0xFD, 0x21, 0x34, 0x12, 0xCB, 0x40,
    0xC3, 0x00], by decide⟩

theorem instructions_partition_prefixes :
    (instructions .usual prefixes 0 17).map Instruction.size = [4, 4, 1, 4, 2, 1, 1] ∧
      (instructions .usual prefixes 0 17).getLast?.map Instruction.stop = some 17 ∧
      (instructions .usual prefixes 0 17).flatMap Instruction.bytes = prefixes.data.toList := by
  obtain ⟨-, -, -, -, last, -, bytes⟩ := instructions_partition .usual prefixes
    (show 0 < 17 by decide) (by decide)
  exact ⟨by decide +kernel, last, bytes.trans (by decide +kernel)⟩

end Z80

end MemoryAtlas
