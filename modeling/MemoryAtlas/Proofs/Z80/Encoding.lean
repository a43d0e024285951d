import MemoryAtlas.Proofs.Relocation.Decoding

/-!
# Opcodes in memory

Which opcode stands at an address is told by its prefix and opcode bytes, and these lie inside of the
instruction, a void prefix apart. So an instruction says by itself where it ends and what it is, and
nothing that follows it plays a part.

## Main definitions

* `Z80.Opcode.StandsAt`: the prefix and opcode bytes of an opcode stand at an address.
* `Z80.Instruction.opcodeBytes`: the bytes of an instruction without its operands.

## Main results

* `Z80.Opcode.fetch_eq_iff`: the opcode at an address is the one whose bytes stand there.
* `Z80.Opcode.classId_injective`: no two opcodes have the same class.
* `Z80.Opcode.StandsAt.opcodeBytes`: the prefix and opcode bytes among those of an instruction.
* `Z80.decode_self_delimiting`: an instruction depends on its own bytes only.
-/

namespace MemoryAtlas

theorem Image.slice_eq_cons (m : Image) {a b : Nat} (lt : a < b) (top : a < addressSpace) :
    m.slice a b = m.read a :: m.slice (a + 1) b := by
  rw [← m.slice_append (Nat.le_succ a) lt, m.slice_succ top]
  rfl

namespace Z80

variable {t : RepeatCeilings} {m m' : Image} {a limit : Nat} {o : Opcode}

namespace Opcode

/-! ### Bytes at an address -/

/-- The prefix and opcode bytes of an opcode stand at an address. A void prefix is one that another
prefix follows. -/
def StandsAt (m : Image) (a : Nat) : Opcode → Prop
  | plain op => m.read a = op ∧ selectsPage op = false
  | bits op => m.read a = 0xCB ∧ m.read (a + 1) = op
  | extended op => m.read a = 0xED ∧ m.read (a + 1) = op
  | indexed x op => m.read a = x.prefixByte ∧ m.read (a + 1) = op ∧ selectsPage op = false
  | indexedBits x op =>
    m.read a = x.prefixByte ∧ m.read (a + 1) = 0xCB ∧ m.read (a + 3) = op
  | void x => m.read a = x.prefixByte ∧ m.read (a + 1) ∈ [0xDD, 0xED, 0xFD]

theorem standsAt_fetchIndexed {x : Index} (first : m.read a = x.prefixByte) :
    (fetchIndexed m a x).StandsAt m a := by
  unfold fetchIndexed
  split
  · next second => exact ⟨first, by simp [second]⟩
  · next second => exact ⟨first, by simp [second]⟩
  · next second => exact ⟨first, by simp [second]⟩
  · next second => exact ⟨first, second, rfl⟩
  · exact ⟨first, rfl, by simp_all [selectsPage]⟩

theorem standsAt_fetch (m : Image) (a : Nat) : (fetch m a).StandsAt m a := by
  unfold fetch
  split
  · next first => exact ⟨first, rfl⟩
  · next first => exact ⟨first, rfl⟩
  · next first => exact standsAt_fetchIndexed first
  · next first => exact standsAt_fetchIndexed first
  · exact ⟨rfl, by simp_all [selectsPage]⟩

theorem fetch_of_prefixByte {x : Index} (first : m.read a = x.prefixByte) :
    fetch m a = fetchIndexed m a x := by
  unfold fetch
  rw [first]
  cases x <;> rfl

theorem fetchIndexed_of_not_selectsPage {x : Index} (h : selectsPage (m.read (a + 1)) = false) :
    fetchIndexed m a x = indexed x (m.read (a + 1)) := by
  unfold fetchIndexed
  split
  all_goals simp_all [selectsPage]

/-- The opcode at an address is the one whose bytes stand there. -/
theorem fetch_eq_iff : fetch m a = o ↔ o.StandsAt m a := by
  constructor
  · rintro rfl
    exact standsAt_fetch m a
  intro h
  cases o with
  | plain op =>
    obtain ⟨rfl, single⟩ := h
    exact fetch_of_not_selectsPage single
  | bits op =>
    obtain ⟨first, rfl⟩ := h
    unfold fetch
    rw [first]
    rfl
  | extended op =>
    obtain ⟨first, rfl⟩ := h
    unfold fetch
    rw [first]
    rfl
  | indexed x op =>
    obtain ⟨first, rfl, single⟩ := h
    rw [fetch_of_prefixByte first, fetchIndexed_of_not_selectsPage single]
  | indexedBits x op =>
    obtain ⟨first, second, rfl⟩ := h
    rw [fetch_of_prefixByte first, fetchIndexed, second]
    rfl
  | void x =>
    obtain ⟨first, second⟩ := h
    rw [fetch_of_prefixByte first, fetchIndexed]
    simp only [List.mem_cons, List.not_mem_nil, or_false] at second
    rcases second with second | second | second <;> rw [second] <;> rfl

/-- The bytes of an opcode that is no void prefix lie in its instruction. -/
theorem StandsAt.congr (h : o.StandsAt m a) (lt : o.classId < rawClass)
    (same : ∀ x, a ≤ x → x < a + o.size → m'.read x = m.read x) : o.StandsAt m' a := by
  have size : o.fixedBytes ≤ o.size := Nat.le_add_right ..
  have first := same a (Nat.le_refl a) (Nat.lt_add_of_pos_right o.one_le_size)
  cases o with
  | plain op => exact ⟨first.trans h.1, h.2⟩
  | bits op | extended op =>
    simp only [fixedBytes] at size
    exact ⟨first.trans h.1, (same (a + 1) (by omega) (by omega)).trans h.2⟩
  | indexed x op =>
    simp only [fixedBytes] at size
    exact ⟨first.trans h.1, (same (a + 1) (by omega) (by omega)).trans h.2.1, h.2.2⟩
  | indexedBits x op =>
    have four := size_indexedBits x op
    exact ⟨first.trans h.1, (same (a + 1) (by omega) (by omega)).trans h.2.1,
      (same (a + 3) (by omega) (by omega)).trans h.2.2⟩
  | void x => exact absurd lt (Nat.not_lt_of_le (Nat.le_add_right ..))

/-! ### Classes -/

/-- The opcode of a class. -/
def ofClassId (c : Nat) : Opcode :=
  let op := UInt8.ofNat (c % 0x100)
  match c / 0x100 with
  | 0 => plain op
  | 0xCB => bits op
  | 0xED => extended op
  | 0xDD => indexed .ix op
  | 0xFD => indexed .iy op
  | 0xDDCB => indexedBits .ix op
  | 0xFDCB => indexedBits .iy op
  | _ => void (if op = 0xDD then .ix else .iy)

theorem ofClassId_classId (o : Opcode) : ofClassId o.classId = o :=
  forall_opcode (P := fun o => ofClassId o.classId = o) (by decide +kernel) (by decide +kernel) o

/-- No two opcodes have the same class. -/
theorem classId_injective : Function.Injective classId :=
  Function.LeftInverse.injective ofClassId_classId

/-- The prefix and opcode bytes. -/
def code : Opcode → List UInt8
  | plain op => [op]
  | bits op => [0xCB, op]
  | extended op => [0xED, op]
  | indexed x op => [x.prefixByte, op]
  | indexedBits x op => [x.prefixByte, 0xCB, op]
  | void x => [x.prefixByte]

end Opcode

/-! ### Bytes of an instruction -/

/-- The prefix and opcode bytes among the bytes of an instruction. Operands follow them, except that
the displacement stands before the opcode after an index prefix and `CB`. -/
def withoutOperands : List UInt8 → List UInt8
  | first :: second :: rest =>
    if (first = 0xDD ∨ first = 0xFD) ∧ second = 0xCB then first :: second :: rest.drop 1
    else if Opcode.selectsPage first then [first, second]
    else [first]
  | bytes => bytes

/-- The prefix and opcode bytes of an instruction. -/
def Instruction.opcodeBytes (i : Instruction) : List UInt8 := withoutOperands i.bytes

theorem withoutOperands_of_not_selectsPage {op : UInt8} (single : Opcode.selectsPage op = false)
    (rest : List UInt8) : withoutOperands (op :: rest) = [op] := by
  cases rest with
  | nil => rfl
  | cons next rest =>
    have notIndex : ¬((op = 0xDD ∨ op = 0xFD) ∧ next = 0xCB) := by
      rintro ⟨rfl | rfl, -⟩ <;> cases single
    rw [withoutOperands, if_neg notIndex, single]
    rfl

theorem withoutOperands_of_index (x : Index) {op : UInt8} (single : Opcode.selectsPage op = false)
    (rest : List UInt8) : withoutOperands (x.prefixByte :: op :: rest) = [x.prefixByte, op] := by
  have notBits : ¬((x.prefixByte = 0xDD ∨ x.prefixByte = 0xFD) ∧ op = 0xCB) := by
    rintro ⟨-, rfl⟩
    cases single
  rw [withoutOperands, if_neg notBits]
  cases x <;> rfl

theorem Opcode.StandsAt.opcodeBytes (h : o.StandsAt m a) (fits : a + o.size ≤ addressSpace) :
    (o.instruction t m a).opcodeBytes = o.code := by
  have size : o.fixedBytes ≤ o.size := Nat.le_add_right ..
  have pos := o.one_le_size
  change withoutOperands (m.slice a (a + o.size)) = _
  rw [m.slice_eq_cons (by omega) (by omega)]
  -- A second byte there is after every prefix that is not void.
  have second : 2 ≤ o.size →
      m.slice (a + 1) (a + o.size) = m.read (a + 1) :: m.slice (a + 2) (a + o.size) := fun two =>
    m.slice_eq_cons (by omega) (by omega)
  cases o with
  | plain op =>
    obtain ⟨rfl, single⟩ := h
    exact withoutOperands_of_not_selectsPage single _
  | bits op | extended op =>
    obtain ⟨prefixed, rfl⟩ := h
    rw [second size, prefixed]
    rfl
  | indexed x op =>
    obtain ⟨prefixed, rfl, single⟩ := h
    rw [second size, prefixed]
    exact withoutOperands_of_index x single _
  | indexedBits x op =>
    obtain ⟨prefixed, cb, rfl⟩ := h
    have four := size_indexedBits x (m.read (a + 3))
    rw [second (by omega), prefixed, cb, m.slice_eq_cons (by omega) (by omega),
      m.slice_eq_cons (by omega) (by omega), m.slice_of_le (by omega)]
    cases x <;> rfl
  | void x =>
    obtain ⟨prefixed, -⟩ := h
    have one : (void x).size = 1 := rfl
    rw [m.slice_of_le (by omega), prefixed]
    rfl

/-- The same bytes make the same instruction of an opcode. -/
theorem Opcode.instruction_congr (fits : a + o.size ≤ addressSpace)
    (same : ∀ x, a ≤ x → x < a + o.size → m'.read x = m.read x) :
    o.instruction t m' a = o.instruction t m a := by
  have alike : (o.instruction t m a).Resembles 0 0 (o.instruction t m' a) :=
    o.resembles_instruction ⟨fits, same⟩
  exact congrArg₂ (Instruction.mk a · o.classId (t.ceiling o.classId) ·) alike.bytes
    (alike.operation rfl)

/-- An instruction whose class is that of no raw byte fits, and is the one of the opcode at its
address. -/
theorem decode_of_classId_lt (lt : (decode t m a limit).classId < rawClass) :
    a + (Opcode.fetch m a).size ≤ min limit addressSpace ∧
      (Opcode.fetch m a).classId < rawClass ∧
        decode t m a limit = (Opcode.fetch m a).instruction t m a := by
  rcases decode_cases t m a limit with ⟨fits, eq⟩ | ⟨-, eq⟩
  · rw [eq] at lt ⊢
    exact ⟨fits, lt, rfl⟩
  · rw [eq] at lt
    exact absurd lt (Nat.not_lt_of_le (Nat.le_add_right ..))

/-- An instruction depends on its own bytes only: another memory with the same bytes from its start to
its end holds the same instruction there. Raw bytes are excepted, since a byte stands for itself only
if those behind it do not make up an instruction with it. -/
theorem decode_self_delimiting (t : RepeatCeilings) (m m' : Image) (a limit : Nat)
    (lt : (decode t m a limit).classId < rawClass)
    (same : ∀ x, a ≤ x → x < (decode t m a limit).stop → m'.read x = m.read x) :
    decode t m' a limit = decode t m a limit := by
  obtain ⟨fits, classId, eq⟩ := decode_of_classId_lt lt
  rw [eq, Opcode.stop_instruction (by omega)] at same
  -- No opcode byte lies behind the end, so the same opcode is found.
  have fetched : Opcode.fetch m' a = Opcode.fetch m a :=
    Opcode.fetch_eq_iff.2 ((Opcode.standsAt_fetch m a).congr classId same)
  rw [eq, decode_of_le (by rwa [fetched]), fetched]
  exact Opcode.instruction_congr (by omega) same

/-- A load from a half of an index register, which has no displacement. -/
def halfLoad (next : UInt8) : Image := ⟨0, #[0xDD, 0x44, next], show 3 ≤ 65536 by decide⟩

theorem decode_self_delimiting_halfLoad :
    (decode .usual (halfLoad 0x7F) 0 3).bytes = [0xDD, 0x44] ∧
      decode .usual (halfLoad 0x80) 0 3 = decode .usual (halfLoad 0x7F) 0 3 := by
  have stop : (decode .usual (halfLoad 0x7F) 0 3).stop = 2 := by decide +kernel
  refine ⟨by decide +kernel, decode_self_delimiting _ _ _ _ _ (by decide +kernel) ?_⟩
  rw [stop]
  intro x _ below
  match x, below with
  | 0, _ => rfl
  | 1, _ => rfl

/-- A void prefix is told from the byte behind it. -/
example : decode .usual ⟨0, #[0xDD, 0xDD], by decide⟩ 0 2 ≠
    decode .usual ⟨0, #[0xDD, 0x00], by decide⟩ 0 2 := by
  decide +kernel

end Z80

end MemoryAtlas
