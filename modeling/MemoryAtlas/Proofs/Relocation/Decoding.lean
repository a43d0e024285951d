import Mathlib.Data.List.Forall2
import MemoryAtlas.Proofs.Z80.Bytes

/-!
# Decoding in another place

The same bytes may stand elsewhere in another memory. The instruction that they decode to is then
the same but for its address, the destination of a relative jump and, in one case, its ceiling. To
tell whether an instruction fits below the limit, decoding looks at bytes past it. What it finds
there makes no difference, except after an index prefix in the last byte: the prefix is void if
another one follows, and has the ceiling of its class, and else it is a byte that does not fit, and
has none.

## Main definitions

* `Image.Relocated`: the bytes of a range stand in another memory, higher up.
* `Z80.Instruction.Resembles`: what two instructions of the same bytes share.

## Main results

* `Z80.resembles_decode`: the same bytes make instructions that resemble each other.
* `Z80.resemble_instructionsUntil`: so they do along a walk.
* `Z80.uncapped_instructionsUntil`: in the same place, two walks differ in ceilings only.
* `Z80.view_instructionsUntil`: what does not depend on ceilings is the same of both.
-/

namespace MemoryAtlas

variable {m m' : Image} {d lo hi a b : Nat}

/-- The bytes of `m` from `start` up to `stop` stand in `m'` too, `d` addresses higher. -/
structure Image.Relocated (m m' : Image) (d start stop : Nat) : Prop where
  fits : stop + d ≤ addressSpace
  read : ∀ x, start ≤ x → x < stop → m'.read (x + d) = m.read x

theorem Image.relocated_of_forall_lt {n : Nat} (fits : a + d + n ≤ addressSpace)
    (same : ∀ i < n, m.read (a + i) = m'.read (a + d + i)) : m.Relocated m' d a (a + n) where
  fits := by omega
  read x above below := by
    obtain ⟨i, rfl⟩ := Nat.exists_eq_add_of_le above
    rw [Nat.add_right_comm, same i (by omega)]

namespace Image.Relocated

theorem mono (h : m.Relocated m' d lo hi) (lower : lo ≤ a) (upper : b ≤ hi) :
    m.Relocated m' d a b where
  fits := Nat.le_trans (Nat.add_le_add_right upper d) h.fits
  read x above below := h.read x (Nat.le_trans lower above) (Nat.lt_of_lt_of_le below upper)

theorem slice (h : m.Relocated m' d a b) : m'.slice (a + d) (b + d) = m.slice a b := by
  have fits := h.fits
  have length : min (b + d) addressSpace - (a + d) = min b addressSpace - a := by omega
  rw [Image.slice, Image.slice, length, Nat.add_comm a d, ← List.map_add_range', List.map_map]
  refine List.map_congr_left fun x mem => ?_
  obtain ⟨above, below⟩ := List.mem_range'_1.1 mem
  rw [Function.comp_apply, Nat.add_comm d x]
  exact h.read x above (by omega)

end Image.Relocated

namespace Z80

/-! ### Operations -/

namespace Template

variable {slots : List Slot} {next : Nat}

theorem length_fillSlots (m : Image) (next a : Nat) (slots : List Slot) :
    (fillSlots m next a slots).length = slots.length := by
  induction slots generalizing a with
  | nil => rfl
  | cons s rest ih => rw [fillSlots, List.length_cons, ih, List.length_cons]

/-- The operands in slots depend on the bytes of the slots only. -/
theorem fillSlots_congr
    (same : ∀ x, a ≤ x → x < a + total Slot.width slots → m'.read x = m.read x) :
    fillSlots m' next a slots = fillSlots m next a slots := by
  induction slots generalizing a with
  | nil => rfl
  | cons s rest ih =>
    rw [total_cons] at same
    have first : s.fill m' a next = s.fill m a next := by
      cases s with
      | fixed o => rfl
      | byte | port | relative | indexed x =>
        simp only [Slot.fill, same a (Nat.le_refl a) (by simp only [Slot.width]; omega)]
      | word | cell | absolute =>
        simp only [Slot.fill, Image.word, same a (Nat.le_refl a) (by simp only [Slot.width]; omega),
          same (a + 1) (Nat.le_succ a) (by simp only [Slot.width]; omega)]
    rw [fillSlots, fillSlots, first, ih fun x above below => same x (by omega) (by omega)]

end Template

/-- Where control goes depends on the mnemonic and the number of operands. -/
theorem Operation.flow_eq_flow {o o' : Operation} (mnemonic : o.mnemonic = o'.mnemonic)
    (operands : o.operands.length = o'.operands.length) : o.flow = o'.flow := by
  obtain ⟨name, l⟩ := o
  obtain ⟨name', l'⟩ := o'
  cases mnemonic
  match l, l', operands with
  | [], [], _ => rfl
  | [_], [_], _ => cases name <;> rfl
  | [_, _], [_, _], _ => cases name <;> rfl
  | _ :: _ :: _ :: _, _ :: _ :: _ :: _, _ => cases name <;> rfl

theorem Template.flow_fill (p : Template) (m m' : Image) (a a' next next' : Nat) :
    (p.fill m a next).flow = (p.fill m' a' next').flow :=
  Operation.flow_eq_flow rfl ((length_fillSlots ..).trans (length_fillSlots ..).symm)

/-! ### Opcodes -/

namespace Opcode

/-- The byte does not stand for an operation by itself: it selects the page of the next one. -/
def selectsPage (op : UInt8) : Bool := op == 0xCB || op == 0xED || op == 0xDD || op == 0xFD

theorem fetch_of_not_selectsPage (h : selectsPage (m.read a) = false) :
    fetch m a = plain (m.read a) := by
  unfold fetch
  split
  all_goals simp_all [selectsPage]

/-- What an index prefix makes up has two bytes or more, or the prefix is void. -/
theorem two_le_size_fetchIndexed (m : Image) (a : Nat) (x : Index) :
    2 ≤ (fetchIndexed m a x).size ∨ fetchIndexed m a x = void x := by
  unfold fetchIndexed
  split
  · exact .inr rfl
  · exact .inr rfl
  · exact .inr rfl
  · exact .inl (Nat.le_trans (by decide : 2 ≤ 3) (Nat.le_add_right ..))
  · exact .inl (Nat.le_add_right ..)

theorem two_le_size_fetch (h : selectsPage (m.read a) = true) :
    2 ≤ (fetch m a).size ∨ ∃ x, fetch m a = void x ∧ m.read a = x.prefixByte := by
  unfold fetch
  split
  · exact .inl (Nat.le_add_right ..)
  · exact .inl (Nat.le_add_right ..)
  · next first => exact (two_le_size_fetchIndexed m a .ix).imp_right fun eq => ⟨.ix, eq, first⟩
  · next first => exact (two_le_size_fetchIndexed m a .iy).imp_right fun eq => ⟨.iy, eq, first⟩
  · simp_all [selectsPage]

theorem size_indexedBits (x : Index) : ∀ op, (indexedBits x op).size = 4 := by
  cases x with
  | ix => exact forall_byte (by decide +kernel)
  | iy => exact forall_byte (by decide +kernel)

/-- Two bytes determine an opcode, unless it is the fourth byte of its instruction. -/
theorem fetch_eq_or_indexedBits (first : m'.read b = m.read a)
    (second : m'.read (b + 1) = m.read (a + 1)) :
    fetch m' b = fetch m a ∨ ∃ x, fetch m a = indexedBits x (m.read (a + 3)) ∧
      fetch m' b = indexedBits x (m'.read (b + 3)) := by
  have indexed : ∀ x, fetchIndexed m' b x = fetchIndexed m a x ∨
      fetchIndexed m a x = indexedBits x (m.read (a + 3)) ∧
        fetchIndexed m' b x = indexedBits x (m'.read (b + 3)) := by
    intro x
    unfold fetchIndexed
    rw [second]
    split
    · exact .inl rfl
    · exact .inl rfl
    · exact .inl rfl
    · exact .inr ⟨rfl, rfl⟩
    · exact .inl rfl
  unfold fetch
  rw [first, second]
  split
  · exact .inl rfl
  · exact .inl rfl
  · exact (indexed .ix).imp_right fun eqs => ⟨.ix, eqs⟩
  · exact (indexed .iy).imp_right fun eqs => ⟨.iy, eqs⟩
  · exact .inl rfl

theorem operandOffset_le (o : Opcode) : o.operandOffset ≤ o.fixedBytes := by
  cases o with
  | indexedBits x op => exact Nat.le_succ 2
  | _ => exact Nat.le_refl _

end Opcode

/-! ### Instructions -/

/-- What two instructions of the same bytes share, the second `d` addresses higher than the first.
A branch goes elsewhere, unless they stand in the same place. Only the ceiling of an instruction
before the limit is sure to be the same, or that of a terminal one. -/
structure Instruction.Resembles (d limit : Nat) (i j : Instruction) : Prop where
  address : j.address = i.address + d
  bytes : j.bytes = i.bytes
  classId : j.classId = i.classId
  flow : j.flow = i.flow
  operation : d = 0 → j.operation = i.operation
  ceiling : i.stop < limit ∨ i.isTerminal = true → j.ceiling = i.ceiling

namespace Instruction.Resembles

variable {limit : Nat} {i j : Instruction}

theorem stop (h : Resembles d limit i j) : j.stop = i.stop + d := by
  rw [Instruction.stop, Instruction.stop, Instruction.size, Instruction.size, h.address, h.bytes]
  omega

theorem isTerminal (h : Resembles d limit i j) : j.isTerminal = i.isTerminal := by
  rw [Instruction.isTerminal, Instruction.isTerminal, h.flow]

end Instruction.Resembles

variable {t : RepeatCeilings} {limit : Nat}

/-- An opcode and its operands make instructions that resemble each other. -/
theorem Opcode.resembles_instruction (o : Opcode) (h : m.Relocated m' d a (a + o.size)) :
    (o.instruction t m a).Resembles d limit (o.instruction t m' (a + d)) where
  address := rfl
  bytes := by
    have same := h.slice
    rwa [Nat.add_right_comm] at same
  classId := rfl
  flow := Template.flow_fill ..
  operation := by
    rintro rfl
    have offset := o.operandOffset_le
    refine congrArg (Operation.mk _) (Template.fillSlots_congr fun x above below => ?_)
    have upper : a + o.operandOffset + o.template.width ≤ a + o.size := by
      rw [Opcode.size]
      omega
    exact h.read x (by omega) (Nat.lt_of_lt_of_le below upper)
  ceiling := fun _ => rfl

/-- A byte that stands for itself, whatever its ceiling, resembles itself in another place. -/
theorem resembles_rawByte (same : m'.read (a + d) = m.read a) {c c' : Int}
    (ceiling : a + 1 < limit → c' = c) :
    Instruction.Resembles d limit { rawByte m a with ceiling := c }
      { rawByte m' (a + d) with ceiling := c' } where
  address := rfl
  bytes := by simp only [rawByte, same]
  classId := by simp only [rawByte, same]
  flow := rfl
  operation := fun _ => by simp only [rawByte, same]
  ceiling := by
    rintro (below | terminal)
    · exact ceiling below
    · cases terminal

/-- A byte that selects a page stands for itself right before the limit, with or without a
ceiling. -/
theorem exists_decode_of_selectsPage (selects : Opcode.selectsPage (m.read a) = true)
    (le : a + 1 ≤ addressSpace) :
    ∃ c, decode t m a (a + 1) = { rawByte m a with ceiling := c } := by
  rcases Opcode.two_le_size_fetch selects with long | ⟨x, void, read⟩
  · exact ⟨0, decode_of_lt (by omega)⟩
  · refine ⟨t.ceiling (Opcode.void x).classId, ?_⟩
    have size : (Opcode.fetch m a).size = 1 := by rw [void]; rfl
    rw [decode_of_le (by omega), void]
    change Instruction.mk a (m.slice a (a + 1)) (rawClass + x.prefixByte.toNat) _
      ⟨.defb, [.byte x.prefixByte]⟩ = _
    rw [m.slice_succ le, ← read]
    rfl

/-- The same bytes up to the limit make instructions that resemble each other. -/
theorem resembles_decode (h : m.Relocated m' d a limit) (lt : a < limit) :
    (decode t m a limit).Resembles d limit (decode t m' (a + d) (limit + d)) := by
  have fits := h.fits
  have first := h.read a (Nat.le_refl a) lt
  have raw : (rawByte m a).Resembles d limit (rawByte m' (a + d)) :=
    resembles_rawByte first (c := 0) fun _ => rfl
  -- The same opcode fits below the limit in both places or in neither.
  have sameOpcode : Opcode.fetch m' (a + d) = Opcode.fetch m a →
      (decode t m a limit).Resembles d limit (decode t m' (a + d) (limit + d)) := by
    intro same
    by_cases le : a + (Opcode.fetch m a).size ≤ limit
    · rw [decode_of_le (by omega), decode_of_le (by rw [same]; omega), same]
      exact Opcode.resembles_instruction _ (h.mono (Nat.le_refl a) le)
    · rw [decode_of_lt (by omega), decode_of_lt (by rw [same]; omega)]
      exact raw
  by_cases two : a + 2 ≤ limit
  · have second := h.read (a + 1) (Nat.le_succ a) (by omega)
    rw [Nat.add_right_comm] at second
    rcases Opcode.fetch_eq_or_indexedBits first second with same | ⟨x, fetch, fetch'⟩
    · exact sameOpcode same
    · by_cases four : a + 4 ≤ limit
      · have fourth := h.read (a + 3) (by omega) (by omega)
        rw [Nat.add_right_comm] at fourth
        exact sameOpcode (by rw [fetch, fetch', fourth])
      · -- The opcode itself lies past the limit; whatever it is, the instruction has four bytes.
        have size := Opcode.size_indexedBits x
        rw [decode_of_lt (by rw [fetch, size]; omega), decode_of_lt (by rw [fetch', size]; omega)]
        exact raw
  · obtain rfl : limit = a + 1 := by omega
    cases selects : Opcode.selectsPage (m.read a) with
    | false =>
      apply sameOpcode
      rw [Opcode.fetch_of_not_selectsPage selects, Opcode.fetch_of_not_selectsPage (by rwa [first]),
        first]
    | true =>
      obtain ⟨c, eq⟩ := exists_decode_of_selectsPage (t := t) selects (by omega)
      obtain ⟨c', eq'⟩ :=
        exists_decode_of_selectsPage (t := t) (m := m') (a := a + d) (by rwa [first]) (by omega)
      rw [Nat.add_right_comm a 1 d, eq, eq']
      exact resembles_rawByte first fun below => absurd below (Nat.lt_irrefl _)

/-! ### Walks -/

/-- Walks through the same bytes find instructions that resemble each other, if what halts one of
them halts the other. -/
theorem resemble_instructionsUntil {halt halt' : Instruction → Bool}
    (h : m.Relocated m' d a limit)
    (same : ∀ i j, i.Resembles d limit j → halt' j = halt i) :
    List.Forall₂ (Instruction.Resembles d limit) (instructionsUntil halt t m a limit)
      (instructionsUntil halt' t m' (a + d) (limit + d)) := by
  induction a using walk_induction t m limit with
  | done a ge =>
    rw [instructionsUntil_of_le halt t m ge,
      instructionsUntil_of_le halt' t m' (Nat.add_le_add_right ge d)]
    exact .nil
  | step a lt ih =>
    have advance := lt_stop_decode t m a limit
    have first := resembles_decode (t := t) h lt
    rw [instructionsUntil_of_lt halt t m lt,
      instructionsUntil_of_lt halt' t m' (Nat.add_lt_add_right lt d), same _ _ first, first.stop]
    refine .cons first ?_
    split
    · exact .nil
    · exact ih (h.mono (Nat.le_of_lt advance) (Nat.le_refl limit))

/-- The instruction without its ceiling. -/
def Instruction.uncapped (i : Instruction) : Instruction := { i with ceiling := 0 }

theorem Instruction.Resembles.uncapped {i j : Instruction} (h : i.Resembles 0 limit j) :
    j.uncapped = i.uncapped := by
  obtain ⟨address, bytes, classId, -, operation, -⟩ := h
  simp only [Instruction.uncapped, address, bytes, classId, operation rfl, Nat.add_zero]

/-- In the same place, walks through the same bytes differ in ceilings only. -/
theorem uncapped_instructionsUntil {halt : Instruction → Bool} (h : m.Relocated m' 0 a limit)
    (blind : ∀ i, halt i.uncapped = halt i) :
    (instructionsUntil halt t m' a limit).map Instruction.uncapped =
      (instructionsUntil halt t m a limit).map Instruction.uncapped := by
  have walks : List.Forall₂ (Instruction.Resembles 0 limit) (instructionsUntil halt t m a limit)
      (instructionsUntil halt t m' a limit) :=
    resemble_instructionsUntil h fun i j alike => by rw [← blind i, ← blind j, alike.uncapped]
  have equal : ∀ {l l' : List Instruction}, List.Forall₂ (Instruction.Resembles 0 limit) l l' →
      l'.map Instruction.uncapped = l.map Instruction.uncapped := by
    intro l l' alike
    induction alike with
    | nil => rfl
    | cons first rest ih => rw [List.map_cons, List.map_cons, first.uncapped, ih]
  exact equal walks

/-- What is blind to ceilings sees no difference between walks through the same bytes. -/
theorem view_instructionsUntil {α : Type} {halt : Instruction → Bool} (view : List Instruction → α)
    (h : m.Relocated m' 0 a limit) (blind : ∀ i, halt i.uncapped = halt i)
    (viewBlind : ∀ l, view (l.map Instruction.uncapped) = view l) :
    view (instructionsUntil halt t m' a limit) = view (instructionsUntil halt t m a limit) := by
  rw [← viewBlind, uncapped_instructionsUntil h blind, viewBlind]

end Z80

end MemoryAtlas
