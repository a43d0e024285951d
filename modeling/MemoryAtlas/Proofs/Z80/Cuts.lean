import MemoryAtlas.Proofs.Z80.Tiling

/-!
# Walks cut short

A lower limit may make an instruction stand for its first byte only, and then the walk from there on
is another one. Where the lower limit is the end of an instruction of the walk, nothing of the kind
happens: every instruction up to there fits, and one that did not fit below the higher limit does
not fit below the lower one either. So the walk to the lower limit is the first part of the walk.

## Main results

* `Z80.decode_of_stop_le`: an instruction that ends below a lower limit is the same there.
* `Z80.instructions_append_stop`: a walk is the walk to the end of one of its instructions, followed
  by the walk from there.
* `Z80.instructions_append_iff`: a walk falls into two walks at the addresses of its instructions,
  and nowhere else.
* `Z80.instructionsUntil_eq_append`, `Z80.instructionsUntil_eq_instructions`: a halting walk is the
  part of the walk up to the first instruction that halts; `Z80.instructionsUntil_append`: the walk
  goes on from there.
-/

namespace MemoryAtlas.Z80

variable {t : RepeatCeilings} {m : Image} {a k limit : Nat} {i : Instruction}
  {halt : Instruction → Bool}

/-- An instruction that ends at or below a lower limit is the same below that limit. -/
theorem decode_of_stop_le (le : k ≤ limit) (fits : (decode t m a limit).stop ≤ k) :
    decode t m a k = decode t m a limit := by
  rcases decode_cases t m a limit with ⟨whole, eq⟩ | ⟨past, eq⟩
  · rw [eq, Opcode.stop_instruction (by omega)] at fits
    rw [eq, decode_of_le (by omega)]
  · rw [eq, decode_of_lt (by omega)]

/-- A walk is the walk to the end of one of its instructions, followed by the walk from there. -/
theorem instructions_append_stop (h : i ∈ instructions t m a limit) :
    instructions t m a limit = instructions t m a i.stop ++ instructions t m i.stop limit := by
  induction a using walk_induction t m limit with
  | done a ge =>
    rw [instructions_of_le t m ge] at h
    cases h
  | step a lt ih =>
    have advance := lt_stop_decode t m a limit
    rw [instructions_of_lt t m lt] at h ⊢
    rcases List.mem_cons.1 h with rfl | h
    · rw [instructions_of_lt t m advance, decode_of_stop_le (stop_decode_le t m lt) (Nat.le_refl _),
        instructions_of_le t m (Nat.le_refl _)]
      rfl
    · -- The first instruction ends before this one does, so it is the same below both limits.
      have bounds := bounds_of_mem_instructionsUntil _ t m h
      rw [instructions_of_lt t m (show a < i.stop by omega),
        decode_of_stop_le bounds.2.2 (by omega), List.cons_append, ← ih h]

/-- A walk is the walk to one of its instructions, followed by the walk from there. -/
theorem instructions_append_address (h : i ∈ instructions t m a limit) :
    instructions t m a limit =
      instructions t m a i.address ++ instructions t m i.address limit := by
  have bounds := bounds_of_mem_instructionsUntil _ t m h
  have tiles := tiles_instructions t m (show a ≤ limit by omega)
  obtain ⟨before, eq⟩ := instructions_eq_append t m h
  rw [eq] at tiles
  obtain ⟨k, tiles, address, -⟩ := Tiles.append_iff.1 tiles
  rcases List.eq_nil_or_concat before with rfl | ⟨init, previous, rfl⟩
  · -- The walk starts with the instruction, so there is nothing before it.
    have start : a = k := tiles
    rw [address, ← start, instructions_of_le t m (Nat.le_refl a), List.nil_append]
  · -- It starts where the one before it ends.
    have stop : previous.stop = k := tiles.stop_getLast? (by simp)
    have mem : previous ∈ instructions t m a limit := by simp [eq]
    rw [address, ← stop]
    exact instructions_append_stop mem

/-- A walk falls into two walks exactly at the addresses of its instructions. The instructions are
the same in every respect, their ceilings and what they do included: one that the limit cuts short
is cut short after the division as before it, and no other is. -/
theorem instructions_append_iff (t : RepeatCeilings) (m : Image) (start mid limit : Nat) :
    (mid < limit ∧ instructions t m start limit =
      instructions t m start mid ++ instructions t m mid limit) ↔
      ∃ i ∈ instructions t m start limit, i.address = mid := by
  constructor
  · -- The second walk starts with an instruction at its start.
    rintro ⟨lt, divided⟩
    refine ⟨decode t m mid limit, ?_, address_decode t m mid limit⟩
    rw [divided, instructions_of_lt t m lt]
    exact List.mem_append_right _ List.mem_cons_self
  · rintro ⟨i, mem, rfl⟩
    have bounds := bounds_of_mem_instructionsUntil _ t m mem
    exact ⟨by omega, instructions_append_address mem⟩

/-- A prefix that the next one makes void, an instruction of four bytes, and a jump without its last
byte. -/
def broken : Image := ⟨0, #[0xFD, 0xFD, 0x21, 0x34, 0x12, 0xC3, 0x00], by decide⟩

/-- The walk falls into two behind the void prefix and behind the first byte of the jump, both of
which stand for themselves, but not inside of the instruction between them. -/
theorem instructions_append_iff_broken :
    instructions .usual broken 0 7 =
        instructions .usual broken 0 1 ++ instructions .usual broken 1 7 ∧
      instructions .usual broken 0 7 =
        instructions .usual broken 0 6 ++ instructions .usual broken 6 7 ∧
      instructions .usual broken 0 7 ≠
        instructions .usual broken 0 3 ++ instructions .usual broken 3 7 := by
  refine ⟨((instructions_append_iff .usual broken 0 1 7).2 (by decide +kernel)).2,
    ((instructions_append_iff .usual broken 0 6 7).2 (by decide +kernel)).2, fun divided => ?_⟩
  have := (instructions_append_iff .usual broken 0 3 7).1 ⟨by decide, divided⟩
  revert this
  decide +kernel

/-! ### Halting walks -/

/-- A halting walk is the walk up to the first instruction that halts. -/
theorem instructionsUntil_eq_append {before after : List Instruction}
    (walked : instructions t m a limit = before ++ i :: after)
    (quiet : ∀ j ∈ before, halt j = false) (halts : halt i = true) :
    instructionsUntil halt t m a limit = before ++ [i] := by
  induction a using walk_induction t m limit generalizing before with
  | done a ge =>
    rw [instructions_of_le t m ge] at walked
    simp at walked
  | step a lt ih =>
    rw [instructions_of_lt t m lt] at walked
    rw [instructionsUntil_of_lt halt t m lt]
    cases before with
    | nil =>
      obtain ⟨rfl, -⟩ := List.cons.inj walked
      rw [if_pos halts]
      rfl
    | cons first before =>
      obtain ⟨rfl, rest⟩ := List.cons.inj walked
      rw [quiet _ List.mem_cons_self,
        ih rest fun j mem => quiet j (List.mem_cons_of_mem _ mem)]
      rfl

/-- A walk on which no instruction halts goes on to the limit. -/
theorem instructionsUntil_eq_instructions
    (quiet : ∀ i ∈ instructions t m a limit, halt i = false) :
    instructionsUntil halt t m a limit = instructions t m a limit := by
  induction a using walk_induction t m limit with
  | done a ge => rw [instructionsUntil_of_le halt t m ge, instructions_of_le t m ge]
  | step a lt ih =>
    rw [instructions_of_lt t m lt] at quiet ⊢
    rw [instructionsUntil_of_lt halt t m lt, quiet _ List.mem_cons_self,
      ih fun i mem => quiet i (List.mem_cons_of_mem _ mem)]
    rfl

/-- Where a halting walk ends, the walk goes on as a walk from there. -/
theorem instructionsUntil_append {last : Instruction}
    (found : (instructionsUntil halt t m a limit).getLast? = some last) :
    instructionsUntil halt t m a limit ++ instructions t m last.stop limit =
      instructions t m a limit := by
  induction a using walk_induction t m limit with
  | done a ge =>
    rw [instructionsUntil_of_le halt t m ge] at found
    cases found
  | step a lt ih =>
    rw [instructionsUntil_of_lt halt t m lt] at found ⊢
    rw [instructions_of_lt t m lt]
    by_cases halts : halt (decode t m a limit)
    · rw [if_pos halts] at found ⊢
      cases found
      rfl
    rw [if_neg halts] at found ⊢
    rcases Nat.eq_or_lt_of_le (stop_decode_le t m lt) with ends | below
    · -- The first instruction reaches the limit, so it is the only one.
      rw [instructionsUntil_of_le halt t m (Nat.le_of_eq ends.symm)] at found ⊢
      cases found
      rfl
    · have ne : instructionsUntil halt t m (decode t m a limit).stop limit ≠ [] := by
        rw [instructionsUntil_of_lt halt t m below]
        exact List.cons_ne_nil _ _
      rw [List.getLast?_cons_of_ne_nil ne] at found
      rw [List.cons_append, ih found]

end MemoryAtlas.Z80
