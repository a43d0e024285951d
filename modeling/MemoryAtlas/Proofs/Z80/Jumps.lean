import MemoryAtlas.Proofs.Z80.Cuts

/-!
# Walks through a jump

A walk depends on its limit only where an instruction would go over it. So a walk to a limit and the
walk on from there need not be the walk through both ranges: an instruction that the limit cuts
short may reach past it. Where the last instruction before the limit is a jump to a fixed address
this cannot happen, because no instruction is long enough to reach past the limit from before the
jump.

## Main definitions

* `Z80.Template.jumps`: the templates of jumps to fixed addresses.

## Main results

* `Z80.Opcode.size_le_four`, `Z80.Opcode.size_of_jumps`: how long instructions and jumps are.
* `Z80.stop_le_of_jump`: no instruction before a jump goes over its end.
* `Z80.instructions_append_of_jump`: a walk through a jump goes on after it as a walk from there.
-/

namespace MemoryAtlas.Z80

variable {t : RepeatCeilings} {m : Image} {a k limit next : Nat} {i : Instruction}

/-! ### Jumps to fixed addresses -/

/-- The operand in a slot names a destination. -/
def Slot.namesTarget : Slot → Bool
  | .relative | .absolute => true
  | .fixed o => o.destination?.isSome
  | .byte | .word | .port | .cell | .indexed _ => false

/-- The template makes jumps by `jp` or `jr` to a fixed address. -/
def Template.jumps (p : Template) : Bool :=
  (p.mnemonic == .jp || p.mnemonic == .jr) && p.slots.any Slot.namesTarget

theorem Template.any_namesTarget {slots : List Slot} {x : Nat}
    (h : (fillSlots m next a slots).findSome? Operand.destination? = some x) :
    slots.any Slot.namesTarget = true := by
  induction slots generalizing a with
  | nil => cases h
  | cons s rest ih =>
    rw [List.any_cons, Bool.or_eq_true]
    by_cases names : s.namesTarget
    · exact .inl names
    · have none : (s.fill m a next).destination? = .none := by
        cases s <;> simp_all [Slot.namesTarget, Slot.fill, Operand.destination?]
      rw [fillSlots, List.findSome?_cons_of_isNone (by rw [none]; rfl)] at h
      exact .inr (ih h)

theorem Template.jumps_of_jumpTarget? {p : Template} {x : Nat}
    (h : (p.fill m a next).jumpTarget? = some x) : p.jumps = true := by
  rw [Operation.jumpTarget?] at h
  rw [jumps, Bool.and_eq_true]
  split at h
  · next jp => exact ⟨by simp [show p.mnemonic = .jp from jp], any_namesTarget h⟩
  · next jr => exact ⟨by simp [show p.mnemonic = .jr from jr], any_namesTarget h⟩
  · cases h

/-! ### How long instructions are -/

namespace Opcode

/-- What holds of the bytes of a table holds of every byte. -/
theorem forall_byte {P : UInt8 → Prop} (h : ∀ n : Fin 256, P (.ofNat n)) (op : UInt8) : P op := by
  have := h ⟨op.toNat, op.toNat_lt⟩
  rwa [UInt8.ofNat_toNat] at this

/-- What holds of the opcodes of every table holds of every opcode. -/
theorem forall_opcode {P : Opcode → Prop}
    (tables : ∀ n : Fin 256, P (plain (.ofNat n)) ∧ P (bits (.ofNat n)) ∧ P (extended (.ofNat n)) ∧
      P (indexed .ix (.ofNat n)) ∧ P (indexed .iy (.ofNat n)) ∧ P (indexedBits .ix (.ofNat n)) ∧
        P (indexedBits .iy (.ofNat n)))
    (voids : P (void .ix) ∧ P (void .iy)) (o : Opcode) : P o := by
  have table : ∀ op, P (plain op) ∧ P (bits op) ∧ P (extended op) ∧ P (indexed .ix op) ∧
      P (indexed .iy op) ∧ P (indexedBits .ix op) ∧ P (indexedBits .iy op) := forall_byte tables
  cases o with
  | plain op => exact (table op).1
  | bits op => exact (table op).2.1
  | extended op => exact (table op).2.2.1
  | indexed x op =>
    obtain ⟨-, -, -, ix, iy, -⟩ := table op
    cases x with
    | ix => exact ix
    | iy => exact iy
  | indexedBits x op =>
    obtain ⟨-, -, -, -, -, ix, iy⟩ := table op
    cases x with
    | ix => exact ix
    | iy => exact iy
  | void x =>
    cases x with
    | ix => exact voids.1
    | iy => exact voids.2

theorem size_le_four (o : Opcode) : o.size ≤ 4 :=
  forall_opcode (P := fun o => o.size ≤ 4) (by decide +kernel) (by decide) o

/-- A jump to a fixed address has three bytes or more, unless it is a `jr` without prefix. -/
theorem size_of_jumps {o : Opcode} (jumps : o.template.jumps = true) :
    3 ≤ o.size ∨ o.size = 2 ∧ o.fixedBytes = 1 ∧ o.template.mnemonic = .jr :=
  forall_opcode (P := fun o => o.template.jumps = true →
      3 ≤ o.size ∨ o.size = 2 ∧ o.fixedBytes = 1 ∧ o.template.mnemonic = .jr)
    (by decide +kernel) (by decide) o jumps

/-- After any byte, the opcode of a `jr` makes up an instruction of at most three bytes. -/
theorem size_le_three_of_jr : ∀ op, (plainTemplate op).mnemonic = .jr → op ≠ 0xCB ∧
    (extended op).size ≤ 3 ∧ (indexed .ix op).size ≤ 3 ∧ (indexed .iy op).size ≤ 3 :=
  forall_byte (by decide +kernel)

theorem size_plain_le_three : ∀ op, (plain op).size ≤ 3 :=
  forall_byte (by decide +kernel)

theorem size_bits_le_three : ∀ op, (bits op).size ≤ 3 :=
  forall_byte (by decide +kernel)

theorem read_eq_of_fetch {op : UInt8} (h : fetch m a = plain op) : m.read a = op := by
  unfold fetch fetchIndexed at h
  split at h
  all_goals try (split at h; all_goals cases h)
  all_goals cases h
  rfl

/-- The opcode of a `jr` without prefix is the byte at its address. -/
theorem jr_read_of_fetch (one : (fetch m a).fixedBytes = 1)
    (jr : (fetch m a).template.mnemonic = .jr) : (plainTemplate (m.read a)).mnemonic = .jr := by
  cases fetched : fetch m a with
  | plain op =>
    rw [read_eq_of_fetch fetched]
    rwa [fetched] at jr
  | void x =>
    rw [fetched] at jr
    cases jr
  | _ =>
    rw [fetched] at one
    cases one

/-- Before the opcode of a `jr` no instruction of four bytes starts. -/
theorem size_fetch_le_three (jr : (plainTemplate (m.read (a + 1))).mnemonic = .jr) :
    (fetch m a).size ≤ 3 := by
  obtain ⟨ne, extended, ix, iy⟩ := size_le_three_of_jr _ jr
  have indexed : ∀ x, (fetchIndexed m a x).size ≤ 3 := by
    intro x
    unfold fetchIndexed
    split
    · cases x <;> decide
    · cases x <;> decide
    · cases x <;> decide
    · next cb => exact absurd cb ne
    · cases x with
      | ix => exact ix
      | iy => exact iy
  unfold fetch
  split
  · exact size_bits_le_three _
  · exact extended
  · exact indexed .ix
  · exact indexed .iy
  · exact size_plain_le_three _

end Opcode

/-! ### Walks -/

/-- What names a destination to jump to is no byte that stands for itself. -/
theorem decode_of_jump {x : Nat} (jump : (decode t m a limit).jumpTarget? = some x) :
    a + (Opcode.fetch m a).size ≤ min limit addressSpace ∧
      (decode t m a limit).stop = a + (Opcode.fetch m a).size ∧
        (Opcode.fetch m a).template.jumps = true := by
  rcases decode_cases t m a limit with ⟨fits, eq⟩ | ⟨-, eq⟩
  · rw [eq] at jump ⊢
    exact ⟨fits, Opcode.stop_instruction (by omega), Template.jumps_of_jumpTarget? jump⟩
  · rw [eq] at jump
    cases jump

/-- No instruction that starts before a jump to a fixed address goes over its end. -/
theorem stop_le_of_jump {x : Nat} (before : a < i.address) (jump : i.jumpTarget? = some x)
    (decoded : i = decode t m i.address limit) : a + (Opcode.fetch m a).size ≤ i.stop := by
  have size := Opcode.size_le_four (Opcode.fetch m a)
  rw [decoded] at jump
  obtain ⟨-, stop, jumps⟩ := decode_of_jump jump
  rw [← decoded] at stop
  rcases Opcode.size_of_jumps jumps with long | ⟨two, plain, jr⟩
  · omega
  · -- Only from the byte before a `jr` could four bytes go over its end.
    have jr := Opcode.jr_read_of_fetch plain jr
    by_cases adjacent : i.address = a + 1
    · rw [adjacent] at jr
      have := Opcode.size_fetch_le_three jr
      omega
    · omega

/-- A walk through a jump to a fixed address goes on after it as a walk from there. -/
theorem instructions_append_of_jump {x : Nat} (le : k ≤ limit)
    (found : (instructions t m a k).getLast? = some i) (jump : i.jumpTarget? = some x) :
    instructions t m a limit = instructions t m a k ++ instructions t m k limit := by
  induction a using walk_induction t m k with
  | done a ge =>
    rw [instructions_of_le t m ge] at found
    cases found
  | step a lt ih =>
    have mem := List.mem_of_getLast? found
    have last : i.stop = k := (tiles_instructions t m (Nat.le_of_lt lt)).stop_getLast? found
    have decoded := eq_decode_of_mem_instructions t m mem
    have bounds := (tiles_instructions t m (Nat.le_of_lt lt)).bounds mem
    -- The jump itself fits below its end, and so does whatever starts before it.
    have fits : a + (Opcode.fetch m a).size ≤ k := by
      rcases Nat.eq_or_lt_of_le bounds.1 with eq | later
      · rw [decoded, ← eq] at jump
        have := (decode_of_jump jump).1
        omega
      · rw [← last]
        exact stop_le_of_jump later jump decoded
    have same : decode t m a k = decode t m a limit := by
      refine decode_of_stop_le le (Nat.le_trans ?_ fits)
      rw [Instruction.stop, address_decode]
      exact Nat.add_le_add_left (size_decode_le t m a limit) a
    rw [instructions_of_lt t m (Nat.lt_of_lt_of_le lt le), instructions_of_lt t m lt, ← same,
      List.cons_append]
    rcases Nat.eq_or_lt_of_le (stop_decode_le t m lt) with ends | below
    · rw [ends, instructions_of_le t m (Nat.le_refl k)]
      rfl
    · rw [ih]
      rw [instructions_of_lt t m lt, List.getLast?_cons_of_ne_nil] at found
      · exact found
      · exact instructions_ne_nil t m below

end MemoryAtlas.Z80
