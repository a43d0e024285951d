import MemoryAtlas.Proofs.Z80.Shape

/-!
# Index prefixes

An index prefix makes an index register stand in for `hl`. What the opcode behind it does with the
register it does with the other one, so where control goes does not change, and neither does the
destination. The instruction is longer than without prefix, by the prefix alone, or by a
displacement too where an operand is the memory at `hl`. A jump to `hl` has no displacement: it is
written with brackets, but uses no memory.

## Main definitions

* `Z80.Template.UsesMemory`: an operand is the memory at `hl`, other than of a jump.
* `Z80.Instruction.Indexes`: what an instruction under an index prefix has from the one without.

## Main results

* `Z80.Template.findSome?_fillSlots_substitute`: the destination under the prefix.
* `Z80.Opcode.usesMemory_iff`: the operand in the memory at `hl`, by the written form.
* `Z80.index_prefix_agrees`: the instruction at an index prefix and the one behind it.
-/

namespace MemoryAtlas.Z80

variable {t : RepeatCeilings} {m : Image} {a next : Nat} {x : Index} {op : UInt8}

/-! ### Templates under a prefix -/

namespace Template

/-- An operand is the memory at `hl`, and the operation uses it. A jump to `hl` does not. -/
def UsesMemory (p : Template) : Prop := p.mnemonic ≠ .jp ∧ viaHL ∈ p.slots

instance (p : Template) : Decidable p.UsesMemory := inferInstanceAs (Decidable (_ ∧ _))

theorem mnemonic_redirect (x : Index) (p : Template) : (p.redirect x).mnemonic = p.mnemonic := by
  unfold redirect
  split <;> rfl

theorem length_slots_redirect (x : Index) (p : Template) :
    (p.redirect x).slots.length = p.slots.length := by
  unfold redirect
  split <;> exact List.length_map ..

theorem width_substitute (x : Index) (s : Slot) : (substitute x s).width = s.width := by
  unfold substitute
  split <;> rfl

theorem destination?_fill_substitute (s : Slot) :
    ((substitute x s).fill m a next).destination? = (s.fill m a next).destination? := by
  unfold substitute
  split <;> rfl

theorem namesTarget_displace (x : Index) (s : Slot) :
    (displace x s).namesTarget = s.namesTarget := by
  unfold displace
  split
  · next eq => rw [eq]; rfl
  · rfl

/-- With the index register in place of `hl`, the operands take the same bytes. -/
theorem total_width_substitute (x : Index) (slots : List Slot) :
    total Slot.width (slots.map (substitute x)) = total Slot.width slots := by
  induction slots with
  | nil => rfl
  | cons s rest ih => rw [List.map_cons, total_cons, total_cons, width_substitute, ih]

/-- The destination is the same. -/
theorem findSome?_fillSlots_substitute (slots : List Slot) :
    (fillSlots m next a (slots.map (substitute x))).findSome? Operand.destination? =
      (fillSlots m next a slots).findSome? Operand.destination? := by
  induction slots generalizing a with
  | nil => rfl
  | cons s rest ih =>
    rw [List.map_cons, fillSlots, fillSlots, List.findSome?_cons, List.findSome?_cons,
      destination?_fill_substitute, width_substitute, ih]

/-- Each operand in the memory at `hl` takes one more byte. -/
theorem total_width_displace (x : Index) (slots : List Slot) :
    total Slot.width (slots.map (displace x)) = total Slot.width slots + slots.count viaHL := by
  induction slots with
  | nil => rfl
  | cons s rest ih =>
    rw [List.map_cons, total_cons, total_cons, ih, List.count_cons, displace]
    by_cases eq : s = viaHL
    · rw [if_pos eq, if_pos (beq_iff_eq.2 eq), eq]
      simp only [Slot.width, viaHL]
      omega
    · rw [if_neg eq, if_neg fun same => eq (beq_iff_eq.1 same)]
      omega

theorem via_mem_fillSlots_iff (slots : List Slot) :
    .via .hl ∈ fillSlots m next a slots ↔ viaHL ∈ slots := by
  induction slots generalizing a with
  | nil => simp [fillSlots]
  | cons s rest ih =>
    have first : .via .hl = s.fill m a next ↔ viaHL = s := by
      cases s <;> simp [Slot.fill, viaHL]
    rw [fillSlots, List.mem_cons, List.mem_cons, ih, first]

end Template

namespace Opcode

theorem mnemonic_indexedTemplate (x : Index) (op : UInt8) :
    (indexedTemplate x op).mnemonic = (plainTemplate op).mnemonic := by
  unfold indexedTemplate
  split
  · rfl
  · exact Template.mnemonic_redirect x _

theorem length_slots_indexedTemplate (x : Index) (op : UInt8) :
    (indexedTemplate x op).slots.length = (plainTemplate op).slots.length := by
  unfold indexedTemplate
  split
  · rfl
  · exact Template.length_slots_redirect x _

/-- What uses memory has one operand there, and no destination. -/
theorem count_viaHL_of_usesMemory : ∀ op, (plainTemplate op).UsesMemory →
    (plainTemplate op).slots.count Template.viaHL = 1 ∧
      (plainTemplate op).slots.any Slot.namesTarget = false :=
  forall_byte (by decide +kernel)

/-- The one exchange without an indexed form uses no memory. -/
theorem indexedTemplate_of_usesMemory (x : Index) (memory : (plainTemplate op).UsesMemory) :
    indexedTemplate x op =
      ⟨(plainTemplate op).mnemonic, (plainTemplate op).slots.map (Template.displace x)⟩ := by
  have ne : op ≠ 0xEB := by
    rintro rfl
    revert memory
    decide
  rw [indexedTemplate, if_neg ne]
  exact if_pos memory

theorem indexedTemplate_of_not_usesMemory (x : Index) (h : ¬(plainTemplate op).UsesMemory) :
    indexedTemplate x op = plainTemplate op ∨ indexedTemplate x op =
      ⟨(plainTemplate op).mnemonic, (plainTemplate op).slots.map (Template.substitute x)⟩ := by
  unfold indexedTemplate
  split
  · exact .inl rfl
  · exact .inr (if_neg h)

theorem width_of_usesMemory (x : Index) (memory : (plainTemplate op).UsesMemory) :
    (indexedTemplate x op).width = (plainTemplate op).width + 1 := by
  rw [indexedTemplate_of_usesMemory x memory, Template.width, Template.total_width_displace,
    (count_viaHL_of_usesMemory op memory).1]
  rfl

theorem width_of_not_usesMemory (x : Index) (h : ¬(plainTemplate op).UsesMemory) :
    (indexedTemplate x op).width = (plainTemplate op).width := by
  rcases indexedTemplate_of_not_usesMemory x h with eq | eq <;> rw [eq]
  exact Template.total_width_substitute x _

theorem any_namesTarget_of_usesMemory (x : Index) (memory : (plainTemplate op).UsesMemory) :
    (indexedTemplate x op).slots.any Slot.namesTarget = false := by
  rw [indexedTemplate_of_usesMemory x memory, List.any_map]
  simp only [Function.comp_def, Template.namesTarget_displace]
  exact (count_viaHL_of_usesMemory op memory).2

theorem target?_of_not_usesMemory (x : Index) (h : ¬(plainTemplate op).UsesMemory) (m : Image)
    (a next : Nat) : ((indexedTemplate x op).fill m a next).target? =
      ((plainTemplate op).fill m a next).target? := by
  rcases indexedTemplate_of_not_usesMemory x h with eq | eq <;> rw [eq]
  exact Template.findSome?_fillSlots_substitute _

theorem plainTemplate_of_jp : ∀ op, (plainTemplate op).mnemonic = .jp →
    Template.viaHL ∈ (plainTemplate op).slots → plainTemplate op = ⟨.jp, [Template.viaHL]⟩ :=
  forall_byte (by decide +kernel)

/-- What uses memory shows `(hl)` in its written form and is not `jp (hl)`. -/
theorem usesMemory_iff (op : UInt8) (m : Image) (a next : Nat) :
    (plainTemplate op).UsesMemory ↔
      "(hl)".toList <:+: ((plainTemplate op).fill m a next).text.toList ∧
        ((plainTemplate op).fill m a next).text ≠ "jp (hl)" := by
  have operand : .via .hl ∈ ((plainTemplate op).fill m a next).operands ↔
      Template.viaHL ∈ (plainTemplate op).slots := Template.via_mem_fillSlots_iff _
  rw [Operation.infix_text_iff, operand, Template.UsesMemory, and_comm]
  -- With an operand `(hl)`, the mnemonic `jp` leaves room for nothing else.
  refine and_congr_right fun viaHL => not_congr ⟨fun jp => ?_, fun written => ?_⟩
  · rw [plainTemplate_of_jp op jp viaHL]
    rfl
  · -- The mnemonic is read off the first three characters.
    have ne : ((plainTemplate op).fill m a next).operands ≠ [] :=
      List.ne_nil_of_mem (operand.2 viaHL)
    refine (Operation.prefix_text_iff ne).1.1 ?_
    rw [written]
    decide

end Opcode

/-! ### Instructions under a prefix -/

/-- What an instruction under an index prefix has from the one without. -/
structure Instruction.Indexes (prefixByte : UInt8) (p u : Instruction) : Prop where
  classId : p.classId = prefixByte.toNat * 256 + u.classId
  flow : p.flow = u.flow
  /-- An operand in the memory at `hl` gets a displacement. -/
  memory : "(hl)".toList <:+: u.text.toList ∧ u.text ≠ "jp (hl)" →
    p.stop = u.stop + 1 ∧ p.target? = none ∧ u.target? = none
  other : ¬("(hl)".toList <:+: u.text.toList ∧ u.text ≠ "jp (hl)") →
    p.stop = u.stop ∧ p.target? = u.target?

theorem Opcode.indexes_instruction (x : Index) (op : UInt8)
    (fits : a + (indexed x op).size ≤ addressSpace)
    (fits' : a + 1 + (plain op).size ≤ addressSpace) :
    ((indexed x op).instruction t m a).Indexes x.prefixByte ((plain op).instruction t m (a + 1)) := by
  have stop := stop_instruction (t := t) (m := m) fits
  have stop' := stop_instruction (t := t) (m := m) fits'
  have size : (indexed x op).size = 2 + (indexedTemplate x op).width := rfl
  have size' : (plain op).size = 1 + (plainTemplate op).width := rfl
  have uses := usesMemory_iff op m (a + 2) (a + 1 + (plain op).size)
  refine ⟨rfl, ?_, fun memory => ?_, fun other => ?_⟩
  · refine Operation.flow_eq_flow (mnemonic_indexedTemplate x op) ?_
    exact (Template.length_fillSlots ..).trans
      ((length_slots_indexedTemplate x op).trans (Template.length_fillSlots ..).symm)
  · have memory := uses.2 memory
    have width := width_of_usesMemory x memory
    refine ⟨by omega, Template.target?_fill_eq_none (any_namesTarget_of_usesMemory x memory),
      Template.target?_fill_eq_none (count_viaHL_of_usesMemory op memory).2⟩
  · have other := mt uses.1 other
    have width := width_of_not_usesMemory x other
    have same : a + (indexed x op).size = a + 1 + (plain op).size := by omega
    refine ⟨by omega, ?_⟩
    -- Both take their operands from the byte behind the opcode and end at the same address.
    change ((indexedTemplate x op).fill m (a + 2) (a + (indexed x op).size)).target? = _
    rw [same]
    exact target?_of_not_usesMemory x other m (a + 2) (a + 1 + (plain op).size)

/-- An index prefix before an opcode that is no prefix itself agrees with the opcode alone. The class
is that of the opcode behind the prefix byte, and control goes on in the same way. An operand that
is written `(hl)`, other than of `jp (hl)`, gets a displacement, and the instruction ends one byte
later; it has no destination with the prefix or without. Any other instruction ends and goes where
it does without the prefix. -/
theorem index_prefix_agrees (t : RepeatCeilings) (m : Image) {a limit : Nat}
    (room : a + 4 ≤ limit) (le : limit ≤ addressSpace)
    (first : m.read a = 0xDD ∨ m.read a = 0xFD)
    (second : m.read (a + 1) ∉ [0xCB, 0xDD, 0xED, 0xFD]) :
    (decode t m a limit).Indexes (m.read a) (decode t m (a + 1) limit) := by
  obtain ⟨x, index⟩ : ∃ x : Index, m.read a = x.prefixByte :=
    first.elim (⟨.ix, ·⟩) (⟨.iy, ·⟩)
  have single : Opcode.selectsPage (m.read (a + 1)) = false := by
    simp only [List.mem_cons, List.not_mem_nil, or_false, not_or] at second
    simp [Opcode.selectsPage, second]
  have fetched : Opcode.fetch m a = .indexed x (m.read (a + 1)) :=
    Opcode.fetch_eq_iff.2 ⟨index, rfl, single⟩
  have fetched' : Opcode.fetch m (a + 1) = .plain (m.read (a + 1)) :=
    Opcode.fetch_eq_iff.2 ⟨rfl, single⟩
  have size := Opcode.size_le_four (.indexed x (m.read (a + 1)))
  have size' := Opcode.size_plain_le_three (m.read (a + 1))
  rw [decode_of_le (by rw [fetched]; omega), decode_of_le (by rw [fetched']; omega), fetched,
    fetched', index]
  exact Opcode.indexes_instruction x _ (by omega) (by omega)

/-- A load through `iy` with a displacement, a relative jump and a jump to `ix`, all under a prefix. -/
def underPrefix : Image :=
  ⟨0, #[0xFD, 0x36, 0xFE, 0x12, 0xDD, 0x18, 0xFC, 0xDD, 0xE9], by decide⟩

theorem index_prefix_agrees_underPrefix :
    (decode .usual underPrefix 0 11).stop = (decode .usual underPrefix 1 11).stop + 1 ∧
      (decode .usual underPrefix 4 11).target? = (decode .usual underPrefix 5 11).target? ∧
        (decode .usual underPrefix 5 11).target? = some 3 ∧
          (decode .usual underPrefix 7 11).stop = (decode .usual underPrefix 8 11).stop := by
  have load := index_prefix_agrees .usual underPrefix (show 0 + 4 ≤ 11 by decide) (by decide)
    (by decide +kernel) (by decide +kernel)
  have branch := index_prefix_agrees .usual underPrefix (show 4 + 4 ≤ 11 by decide) (by decide)
    (by decide +kernel) (by decide +kernel)
  have pointer := index_prefix_agrees .usual underPrefix (show 7 + 4 ≤ 11 by decide) (by decide)
    (by decide +kernel) (by decide +kernel)
  exact ⟨(load.memory (by decide +kernel)).1, (branch.other (by decide +kernel)).2, by decide +kernel,
    (pointer.other (by decide +kernel)).1⟩

end MemoryAtlas.Z80
