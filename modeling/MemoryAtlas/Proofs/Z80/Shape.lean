import MemoryAtlas.Proofs.Z80.Encoding
import MemoryAtlas.Proofs.Z80.Written

/-!
# The shape of instructions

The class of an instruction is made of its prefix and opcode bytes. It fixes everything about the
instruction except its operands: the length, where control goes, the ceiling, and whether there is a
destination. The destination itself comes from the operand bytes or from the opcode, and nowhere
else.

## Main definitions

* `Z80.TerminalCode`, `Z80.JumpCode`: the prefix and opcode bytes of some kinds of instructions.
* `Z80.Instruction.Destined`: the ways to have a destination, and not to have one.
* `Z80.Instruction.SameShape`: what instructions of one class share.
* `Z80.Instruction.FollowsOpcode`: what the bytes of an instruction tell about where control goes.

## Main results

* `Z80.Opcode.destined_instruction`: the operation of an instruction, by its destination.
* `Z80.shape_of_classId`: the class of an instruction determines its shape.
-/

namespace MemoryAtlas

theorem Image.last_suffix_slice (m : Image) {a k : Nat} (lower : a ≤ k) (top : k < addressSpace) :
    [m.read k] <:+ m.slice a (k + 1) := by
  rw [← m.slice_succ top]
  exact ⟨m.slice a k, m.slice_append lower (Nat.le_succ k)⟩

theorem Image.lastTwo_suffix_slice (m : Image) {a k : Nat} (lower : a ≤ k)
    (top : k + 1 < addressSpace) : [m.read k, m.read (k + 1)] <:+ m.slice a (k + 2) := by
  rw [← m.slice_succ top, ← m.slice_eq_cons (by omega) (by omega)]
  exact ⟨m.slice a k, m.slice_append lower (Nat.le_add_right k 2)⟩

namespace Z80

variable {t : RepeatCeilings} {m m' : Image} {a a' next : Nat} {o : Opcode} {i : Instruction}

/-! ### Filled slots -/

namespace Template

/-- Operands that the opcode fixes are taken over and move nothing. -/
theorem fillSlots_fixed_append (g : List Operand) (slots : List Slot) :
    fillSlots m next a (g.map .fixed ++ slots) = g ++ fillSlots m next a slots := by
  induction g with
  | nil => rfl
  | cons o g ih => exact congrArg (o :: ·) ih

theorem width_fixed_append (name : Mnemonic) (g : List Operand) (s : Slot) :
    width ⟨name, g.map .fixed ++ [s]⟩ = s.width := by
  induction g with
  | nil => rfl
  | cons o g ih => exact (Nat.zero_add _).trans ih

theorem isSome_destination?_fill (m : Image) (a next : Nat) (s : Slot) :
    (s.fill m a next).destination?.isSome = s.namesTarget := by
  cases s <;> rfl

/-- Whether an operation has a destination is told by its template. -/
theorem isSome_target?_fill (m : Image) (a next : Nat) (p : Template) :
    (p.fill m a next).target?.isSome = p.slots.any Slot.namesTarget := by
  obtain ⟨name, slots⟩ := p
  induction slots generalizing a with
  | nil => rfl
  | cons s rest ih =>
    rw [List.any_cons, ← ih (a + s.width), ← isSome_destination?_fill m a next s]
    change (((s.fill m a next) :: fillSlots m next _ rest).findSome? _).isSome = _
    rw [List.findSome?_cons]
    cases (s.fill m a next).destination? <;> rfl

theorem target?_fill_eq_none {p : Template} (h : p.slots.any Slot.namesTarget = false) :
    (p.fill m a next).target? = none := by
  rw [← Option.isNone_iff_eq_none, ← Option.isSome_eq_false_iff, isSome_target?_fill, h]

/-- So is whether it jumps to a fixed address. -/
theorem isSome_jumpTarget?_fill (m : Image) (a next : Nat) (p : Template) :
    (p.fill m a next).jumpTarget?.isSome = p.jumps := by
  have mnemonic : (p.fill m a next).mnemonic = p.mnemonic := rfl
  rw [jumps, ← isSome_target?_fill m a next p, Operation.jumpTarget?, mnemonic]
  cases p.mnemonic <;> rfl

end Template

/-! ### Destinations -/

/-- What may stand before a destination: nothing, or a condition. -/
def guards : List (List Operand) :=
  [] :: [Condition.nz, .z, .nc, .c, .po, .pe, .p, .m].map fun test => [.condition test]

theorem guard_cases {g : List Operand} (guard : g ∈ guards) :
    g = [] ∨ ∃ test, g = [.condition test] := by
  rcases List.mem_cons.1 guard with rfl | mem
  · exact .inl rfl
  · obtain ⟨test, -, rfl⟩ := List.mem_map.1 mem
    exact .inr ⟨test, rfl⟩

theorem Instruction.target?_eq_of_guard {name : Mnemonic} {g : List Operand} {x : Nat}
    (guard : g ∈ guards) (eq : i.operation = ⟨name, g ++ [.target x]⟩) : i.target? = some x := by
  rw [target?, eq]
  rcases guard_cases guard with rfl | ⟨test, rfl⟩ <;> rfl

/-- The opcode among prefix and opcode bytes of the main page, after an index prefix or without. -/
def mainPage? : List UInt8 → Option UInt8
  | [op] => some op
  | [first, op] => if first = 0xDD ∨ first = 0xFD then some op else none
  | _ => none

/-- The opcode among prefix and opcode bytes of the page of `ED`. -/
def extendedPage? : List UInt8 → Option UInt8
  | [first, op] => if first = 0xED then some op else none
  | _ => none

/-- The codes of unconditional jumps and returns. -/
def TerminalCode (code : List UInt8) : Prop :=
  (∃ op ∈ mainPage? code, op ∈ [0x18, 0xC3, 0xC9, 0xE9]) ∨
    ∃ op ∈ extendedPage? code, op ∈ [0x45, 0x4D, 0x55, 0x5D, 0x65, 0x6D, 0x75, 0x7D]

/-- The codes of the jumps `jr` and `jp` to a fixed address, with a condition or without. -/
def JumpCode (code : List UInt8) : Prop :=
  ∃ op ∈ mainPage? code, op ∈ [0x18, 0x20, 0x28, 0x30, 0x38, 0xC3] ∨ op &&& 0xC7 = 0xC2

instance (code : List UInt8) : Decidable (TerminalCode code) :=
  inferInstanceAs (Decidable (_ ∨ _))

instance (code : List UInt8) : Decidable (JumpCode code) :=
  inferInstanceAs (Decidable (∃ op ∈ mainPage? code, _))

/-- The ways in which an instruction has a destination, and the case that it has none. Each fixes the
whole operation, so what depends on the destination is read off it. -/
inductive Instruction.Destined (i : Instruction) : Option Nat → Prop
  /-- No operand is a destination. Of the operations that may have one, only `jp` may have none: it
  then goes where a register points to. -/
  | none (other : i.operation.mnemonic ∉ [.jr, .djnz, .call, .rst])
    (pointer : i.operation.mnemonic = .jp → ∃ p, i.operation.operands = [.via p]) : Destined i none
  /-- A distance from the end, in the last byte. -/
  | relative {name : Mnemonic} {g : List Operand} {d : UInt8} (jump : name ∈ [.jr, .djnz])
    (guard : g ∈ guards) (last : [d] <:+ i.bytes)
    (eq : i.operation = ⟨name, g ++ [.target (Slot.branch i.stop d)]⟩) :
    Destined i (some (Slot.branch i.stop d))
  /-- An address, in the last two bytes. -/
  | absolute {name : Mnemonic} {g : List Operand} {low high : UInt8} (jump : name ∈ [.jp, .call])
    (guard : g ∈ guards) (last : [low, high] <:+ i.bytes)
    (eq : i.operation = ⟨name, g ++ [.target (low.toNat + 256 * high.toNat)]⟩) :
    Destined i (some (low.toNat + 256 * high.toNat))
  /-- A restart address, in the opcode. -/
  | restart {op : UInt8} (main : op ∈ mainPage? i.opcodeBytes)
    (eq : i.operation = ⟨.rst, [.restart (op &&& 0x38).toNat]⟩) :
    Destined i (some (op &&& 0x38).toNat)

namespace Opcode

/-- The template has no slot for a destination. -/
def Continues (o : Opcode) : Prop :=
  o.template.slots.any Slot.namesTarget = false ∧
    o.template.mnemonic ∉ [.jr, .djnz, .call, .rst] ∧
      (o.template.mnemonic = .jp →
        ∃ p ∈ [.hl, .index .ix, .index .iy], o.template.slots = [.fixed (.via p)])

/-- The template ends in a slot for a destination. -/
def Branches (o : Opcode) (names : List Mnemonic) (s : Slot) : Prop :=
  o.operandOffset = o.fixedBytes ∧
    ∃ name ∈ names, ∃ g ∈ guards, o.template = ⟨name, g.map .fixed ++ [s]⟩

/-- The template is that of a restart. -/
def Restarts (o : Opcode) : Prop :=
  ∃ op ∈ mainPage? o.code, o.template = ⟨.rst, [.fixed (.restart (op &&& 0x38).toNat)]⟩

instance (o : Opcode) : Decidable o.Continues :=
  inferInstanceAs (Decidable (_ ∧ _))

instance (o : Opcode) (names : List Mnemonic) (s : Slot) : Decidable (o.Branches names s) :=
  inferInstanceAs (Decidable (_ ∧ _))

instance (o : Opcode) : Decidable o.Restarts :=
  inferInstanceAs (Decidable (∃ op ∈ mainPage? o.code, _))

/-- The table of opcodes, as far as destinations are concerned. -/
theorem continues_or_branches (o : Opcode) :
    o.Continues ∨ o.Branches [.jr, .djnz] .relative ∨ o.Branches [.jp, .call] .absolute ∨
      o.Restarts :=
  forall_opcode (P := fun o => o.Continues ∨ o.Branches [.jr, .djnz] .relative ∨
      o.Branches [.jp, .call] .absolute ∨ o.Restarts)
    (by decide +kernel) (by decide +kernel) o

/-- The slot at the end of a template is filled from the last bytes of the instruction. -/
theorem Branches.operation_eq {names : List Mnemonic} {s : Slot} (h : o.Branches names s) (a : Nat) :
    ∃ k, a ≤ k ∧ k + s.width = a + o.size ∧ ∃ name ∈ names, ∃ g ∈ guards,
      (o.instruction t m a).operation = ⟨name, g ++ [s.fill m k (a + o.size)]⟩ := by
  obtain ⟨offset, name, mem, g, guard, template⟩ := h
  have width : o.template.width = s.width := by rw [template, Template.width_fixed_append]
  refine ⟨a + o.fixedBytes, Nat.le_add_right .., ?_, name, mem, g, guard, ?_⟩
  · rw [size, width, Nat.add_assoc]
  · change o.template.fill m (a + o.operandOffset) (a + o.size) = _
    rw [offset, template, Template.fill, Template.fillSlots_fixed_append]
    rfl

/-- The operation of an instruction, by its destination. -/
theorem destined_instruction (stands : o.StandsAt m a) (fits : a + o.size ≤ addressSpace) :
    (o.instruction t m a).Destined (o.instruction t m a).target? := by
  have stop := stop_instruction (t := t) (m := m) fits
  have operation : (o.instruction t m a).operation =
      o.template.fill m (a + o.operandOffset) (a + o.size) := rfl
  rcases o.continues_or_branches with
    ⟨absent, other, pointer⟩ | relative | absolute | ⟨op, main, template⟩
  · have none : (o.instruction t m a).target? = none := Template.target?_fill_eq_none absent
    rw [none]
    refine .none other fun jp => ?_
    obtain ⟨p, -, slots⟩ := pointer jp
    exact ⟨p, by rw [operation, Template.fill, slots]; rfl⟩
  · obtain ⟨k, lower, upper, name, jump, g, guard, eq⟩ := relative.operation_eq (t := t) (m := m) a
    simp only [Slot.width] at upper
    have last : [m.read k] <:+ m.slice a (a + o.size) :=
      upper ▸ m.last_suffix_slice lower (by omega)
    -- A relative destination is counted from the end of the instruction.
    rw [← stop] at eq
    rw [Instruction.target?_eq_of_guard guard eq]
    exact .relative jump guard last eq
  · obtain ⟨k, lower, upper, name, jump, g, guard, eq⟩ := absolute.operation_eq (t := t) (m := m) a
    simp only [Slot.width] at upper
    have last : [m.read k, m.read (k + 1)] <:+ m.slice a (a + o.size) :=
      upper ▸ m.lastTwo_suffix_slice lower (by omega)
    rw [Instruction.target?_eq_of_guard guard eq]
    exact .absolute jump guard last eq
  · have main : op ∈ mainPage? (o.instruction t m a).opcodeBytes := by
      rwa [stands.opcodeBytes fits]
    have eq : (o.instruction t m a).operation = ⟨.rst, [.restart (op &&& 0x38).toNat]⟩ := by
      rw [operation, template]
      rfl
    have found : (o.instruction t m a).target? = some (op &&& 0x38).toNat := by
      rw [Instruction.target?, eq]
      rfl
    rw [found]
    exact .restart main eq

/-- Which operations are terminal, by the opcode. -/
theorem isTerminal_iff (o : Opcode) :
    (o.template.fill m a next).flow.isTerminal = true ↔ TerminalCode o.code := by
  -- The operand bytes do not matter for the flow, so a table with one filling is enough.
  rw [Template.flow_fill o.template m .blank a 0 next 0]
  exact forall_opcode
    (P := fun o => (o.template.fill .blank 0 0).flow.isTerminal = true ↔ TerminalCode o.code)
    (by decide +kernel) (by decide +kernel) o

theorem jumps_iff (o : Opcode) : o.template.jumps = true ↔ JumpCode o.code :=
  forall_opcode (P := fun o => o.template.jumps = true ↔ JumpCode o.code)
    (by decide +kernel) (by decide +kernel) o

end Opcode

/-! ### Classes -/

/-- What two instructions of one class share. -/
structure Instruction.SameShape (i j : Instruction) : Prop where
  opcodeBytes : i.opcodeBytes = j.opcodeBytes
  size : i.size = j.size
  flow : i.flow = j.flow
  ceiling : i.ceiling = j.ceiling
  target : i.target?.isSome = j.target?.isSome

/-- What the bytes of an instruction tell about where control goes. -/
structure Instruction.FollowsOpcode (i : Instruction) : Prop where
  /-- The unconditional jumps and returns are terminal. -/
  terminal_iff : i.isTerminal = true ↔ TerminalCode i.opcodeBytes
  /-- Jumps, calls and restarts have a destination, except where it is in a register. -/
  target_iff : i.target?.isSome = true ↔ i.operation.mnemonic ∈ [.jr, .djnz, .call, .rst] ∨
    i.operation.mnemonic = .jp ∧ ∀ p, i.operation.operands ≠ [.via p]
  target_lt : ∀ x ∈ i.target?, x < addressSpace
  /-- A relative jump goes as far from its end as its last byte tells. -/
  relative : i.operation.mnemonic ∈ [.jr, .djnz] → ∀ x ∈ i.target?,
    ∃ d, [d] <:+ i.bytes ∧ (x : Int) = (i.stop + Slot.signed d) % 65536
  /-- Other jumps and calls go to the address in the last two bytes, the low byte first. -/
  absolute : i.operation.mnemonic ∈ [.jp, .call] → ∀ x ∈ i.target?,
    ∃ low high : UInt8, [low, high] <:+ i.bytes ∧ x = low.toNat + 256 * high.toNat
  /-- A restart goes to the address in the middle bits of its opcode. -/
  restart : i.operation.mnemonic = .rst → ∀ x ∈ i.target?,
    ∃ op ∈ mainPage? i.opcodeBytes, x = (op &&& 0x38).toNat
  /-- The destination of a jump is that of `jp` or `jr`, with a condition or without. -/
  jump_iff : ∀ x, i.jumpTarget? = some x ↔ ∃ name ∈ [.jp, .jr],
    i.operation = ⟨name, [.target x]⟩ ∨ ∃ test, i.operation = ⟨name, [.condition test, .target x]⟩
  /-- These are the jumps, by their opcodes. -/
  jump_opcode : i.jumpTarget?.isSome = true ↔ JumpCode i.opcodeBytes
  /-- And these are the jumps, by their written forms. -/
  jump_text : ∀ x, i.jumpTarget? = some x ↔
    ("jp ".toList <+: i.text.toList ∨ "jr ".toList <+: i.text.toList) ∧ i.target? = some x

namespace Instruction.Destined

variable {x : Nat} {found : Option Nat}

theorem target_iff (h : i.Destined found) :
    found.isSome = true ↔ i.operation.mnemonic ∈ [.jr, .djnz, .call, .rst] ∨
      i.operation.mnemonic = .jp ∧ ∀ p, i.operation.operands ≠ [.via p] := by
  cases h with
  | none other pointer =>
    refine iff_of_false (by simp) ?_
    rintro (named | ⟨jp, fixed⟩)
    · exact other named
    · obtain ⟨p, eq⟩ := pointer jp
      exact fixed p eq
  | relative jump guard last eq =>
    refine iff_of_true rfl (.inl ?_)
    rcases List.mem_pair.1 jump with rfl | rfl <;> simp [eq]
  | absolute jump guard last eq =>
    refine iff_of_true rfl ?_
    rcases List.mem_pair.1 jump with rfl | rfl
    · -- The last operand is a destination, not a register.
      refine .inr ⟨by rw [eq], fun p operands => ?_⟩
      rw [eq] at operands
      have last := congrArg List.getLast? operands
      simp at last
    · exact .inl (by simp [eq])
  | restart main eq => exact iff_of_true rfl (.inl (by simp [eq]))

theorem target_lt (h : i.Destined (some x)) : x < addressSpace := by
  unfold addressSpace
  cases h with
  | relative =>
    unfold Slot.branch
    omega
  | @absolute _ _ low high =>
    have := low.toNat_lt
    have := high.toNat_lt
    omega
  | @restart op =>
    have := (op &&& 0x38).toNat_lt
    omega

theorem relative_of_mnemonic (h : i.Destined (some x)) (jump : i.operation.mnemonic ∈ [.jr, .djnz]) :
    ∃ d, [d] <:+ i.bytes ∧ (x : Int) = (i.stop + Slot.signed d) % 65536 := by
  cases h with
  | @relative _ _ d _ _ last =>
    refine ⟨d, last, ?_⟩
    unfold Slot.branch
    omega
  | absolute other _ _ eq => rcases List.mem_pair.1 other with rfl | rfl <;> simp [eq] at jump
  | restart _ eq => simp [eq] at jump

theorem absolute_of_mnemonic (h : i.Destined (some x)) (jump : i.operation.mnemonic ∈ [.jp, .call]) :
    ∃ low high : UInt8, [low, high] <:+ i.bytes ∧ x = low.toNat + 256 * high.toNat := by
  cases h with
  | relative other _ _ eq => rcases List.mem_pair.1 other with rfl | rfl <;> simp [eq] at jump
  | @absolute _ _ low high _ _ last => exact ⟨low, high, last, rfl⟩
  | restart _ eq => simp [eq] at jump

theorem restart_of_mnemonic (h : i.Destined (some x)) (rst : i.operation.mnemonic = .rst) :
    ∃ op ∈ mainPage? i.opcodeBytes, x = (op &&& 0x38).toNat := by
  cases h with
  | relative other _ _ eq => rcases List.mem_pair.1 other with rfl | rfl <;> simp [eq] at rst
  | absolute other _ _ eq => rcases List.mem_pair.1 other with rfl | rfl <;> simp [eq] at rst
  | @restart op main => exact ⟨op, main, rfl⟩

theorem jump_iff (h : i.Destined i.target?) :
    i.jumpTarget? = some x ↔ ∃ name ∈ [.jp, .jr], i.operation = ⟨name, [.target x]⟩ ∨
      ∃ test, i.operation = ⟨name, [.condition test, .target x]⟩ := by
  rw [jumpTarget?, Operation.jumpTarget?_eq_some_iff, ← List.mem_pair]
  constructor
  · rintro ⟨jump, found⟩
    -- What stands before the destination is a condition or nothing.
    have form : ∀ {name : Mnemonic} {g : List Operand}, g ∈ guards →
        i.operation = ⟨name, g ++ [.target x]⟩ → i.operation = ⟨name, [.target x]⟩ ∨
          ∃ test, i.operation = ⟨name, [.condition test, .target x]⟩ := by
      rintro name g guard eq
      rcases guard_cases guard with rfl | ⟨test, rfl⟩
      · exact .inl eq
      · exact .inr ⟨test, eq⟩
    rw [target?, found] at h
    cases h with
    | relative _ guard _ eq | absolute _ guard _ eq =>
      rw [eq] at jump
      exact ⟨_, jump, form guard eq⟩
    | restart _ eq => simp [eq] at jump
  · rintro ⟨name, jump, eq | ⟨test, eq⟩⟩ <;> rw [eq] <;> exact ⟨jump, rfl⟩

end Instruction.Destined

theorem Opcode.followsOpcode_instruction (stands : o.StandsAt m a)
    (fits : a + o.size ≤ addressSpace) : (o.instruction t m a).FollowsOpcode := by
  have destined := destined_instruction (t := t) stands fits
  have code := stands.opcodeBytes (t := t) fits
  have found : ∀ x ∈ (o.instruction t m a).target?, (o.instruction t m a).Destined (some x) :=
    fun x mem => mem ▸ destined
  exact
    { terminal_iff := by rw [code]; exact o.isTerminal_iff
      target_iff := destined.target_iff
      target_lt := fun x mem => (found x mem).target_lt
      relative := fun jump x mem => (found x mem).relative_of_mnemonic jump
      absolute := fun jump x mem => (found x mem).absolute_of_mnemonic jump
      restart := fun rst x mem => (found x mem).restart_of_mnemonic rst
      jump_iff := fun x => destined.jump_iff
      jump_opcode := by
        rw [code, ← o.jumps_iff]
        exact Bool.eq_iff_iff.1 (Template.isSome_jumpTarget?_fill ..)
      jump_text := fun x => Operation.jumpTarget?_eq_some_iff_prefix_text }

/-- Instructions of one opcode have the same shape, wherever they stand. -/
theorem Opcode.sameShape_instruction (stands : o.StandsAt m a) (fits : a + o.size ≤ addressSpace)
    (stands' : o.StandsAt m' a') (fits' : a' + o.size ≤ addressSpace) :
    (o.instruction t m a).SameShape (o.instruction t m' a') where
  opcodeBytes := (stands.opcodeBytes fits).trans (stands'.opcodeBytes fits').symm
  size := (size_instruction fits).trans (size_instruction fits').symm
  flow := Template.flow_fill ..
  ceiling := rfl
  target := (Template.isSome_target?_fill ..).trans (Template.isSome_target?_fill ..).symm

/-- The class of an instruction determines its shape: two instructions of one class, in any two
places, have the same prefix and opcode bytes, length, flow and ceiling, and both or neither have a
destination; and for each instruction the opcode tells whether it is terminal, and its bytes where
it goes to. Classes of raw bytes are excepted. -/
theorem shape_of_classId (t : RepeatCeilings) :
    (∀ m a limit m' a' limit', (decode t m a limit).classId < rawClass →
      (decode t m a limit).classId = (decode t m' a' limit').classId →
        (decode t m a limit).SameShape (decode t m' a' limit')) ∧
    ∀ m a limit, (decode t m a limit).classId < rawClass →
      (decode t m a limit).FollowsOpcode := by
  constructor
  · intro m a limit m' a' limit' lt same
    obtain ⟨fits, -, eq⟩ := decode_of_classId_lt lt
    obtain ⟨fits', -, eq'⟩ := decode_of_classId_lt (same ▸ lt)
    rw [eq, eq'] at same ⊢
    -- A class is that of one opcode, so the same one stands in both places.
    have fetched : Opcode.fetch m a = Opcode.fetch m' a' := Opcode.classId_injective same
    have stands := Opcode.standsAt_fetch m a
    rw [fetched] at stands fits ⊢
    exact Opcode.sameShape_instruction stands (by omega) (Opcode.standsAt_fetch m' a') (by omega)
  · intro m a limit lt
    obtain ⟨fits, -, eq⟩ := decode_of_classId_lt lt
    rw [eq]
    exact Opcode.followsOpcode_instruction (Opcode.standsAt_fetch m a) (by omega)

/-- A conditional jump under an index prefix, from the bottom of the memory to its top. -/
def wrapping : Image := ⟨0, #[0xDD, 0x20, 0xFB], by decide⟩

/-- The same jump in another place, to another one. -/
def onward : Image := ⟨0x8000, #[0xDD, 0x20, 0x10], by decide⟩

theorem shape_of_classId_wrapping :
    (decode .usual wrapping 0 3).SameShape (decode .usual onward 0x8000 0x8003) ∧
      (decode .usual wrapping 0 3).isTerminal = false ∧
        (decode .usual wrapping 0 3).jumpTarget?.isSome = true ∧
          (decode .usual wrapping 0 3).target? = some 65534 := by
  obtain ⟨same, follows⟩ := shape_of_classId .usual
  have shape := same wrapping 0 3 onward 0x8000 0x8003 (by decide +kernel) (by decide +kernel)
  have first := follows wrapping 0 3 (by decide +kernel)
  refine ⟨shape, ?_, first.jump_opcode.2 (by decide +kernel), by decide +kernel⟩
  rw [Bool.eq_false_iff, Ne, first.terminal_iff]
  decide +kernel

end Z80

end MemoryAtlas
