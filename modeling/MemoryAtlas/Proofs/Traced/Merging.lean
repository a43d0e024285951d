import MemoryAtlas.Proofs.Fixpoint
import MemoryAtlas.Proofs.Phases.Inside
import MemoryAtlas.Proofs.TagMap.InOrder
import MemoryAtlas.Proofs.Z80.Jumps

/-!
# Merging keeps what is read

A block of code that ends in a jump to the next block is joined with it. The joined block is read
with a higher limit than its first part was, and still has the instructions of both parts, since no
instruction before a jump goes over its end. So merging changes how code is cut into blocks, and
neither what is code nor which instructions it has.

## Main definitions

* `Traced.codeInstructions`: the instructions of all code, ascending.
* `Traced.codeBoundaries`: the number of boundaries of code.
* `Traced.Joins`: what one merge does to a map.

## Main results

* `Traced.joins_merge`: one merge.
* `Traced.mergeAll_closes`: merging ends, with no block left that jumps on to the next.
-/

namespace MemoryAtlas.Traced

open Z80 TagMap

variable {t : RepeatCeilings} {m : Image} {tags : TagMap} {b c : Block} {i : Instruction}
  {a k : Nat} {next : Logged TagMap}

/-- The instructions of the blocks of code, one block after the other. -/
def codeInstructions (t : RepeatCeilings) (m : Image) (tags : TagMap) : List Instruction :=
  (tags.blocksTagged .code).flatMap fun b => instructions t m b.start b.stop

/-- The number of boundaries of code. -/
def codeBoundaries (tags : TagMap) : Nat := tags.weight fun e => if e.2 = .code then 1 else 0

/-- What one merge does to a map. -/
structure Joins (t : RepeatCeilings) (m : Image) (before after : TagMap) : Prop where
  /-- One boundary of code is removed, and nothing else changes. -/
  removed : ∃ k, before.get? k = some .code ∧
    ∀ x, after.get? x = if x = k then none else before.get? x
  /-- The tag at every address is the same. -/
  tagAt : ∀ a, after.tagAt? a = before.tagAt? a
  /-- Code has the same instructions. -/
  read : codeInstructions t m after = codeInstructions t m before

/-! ### One merge -/

theorem tagAt?_merge (step : merge t m tags = some next) :
    next.value.tagAt? a = tags.tagAt? a := by
  obtain ⟨b, hb, c, hc, shared, first, second, -, erased⟩ := exists_of_merge step
  rw [erased, tagAt?_erase_of_mem_blocks hb hc shared (first.trans second.symm)]

theorem codeInstructions_merge (step : merge t m tags = some next) :
    codeInstructions t m next.value = codeInstructions t m tags := by
  obtain ⟨b, hb, c, hc, shared, first, second, ⟨i, last, jump⟩, erased⟩ := exists_of_merge step
  obtain ⟨before, after, listed, joined⟩ := blocks_erase hb hc shared
  -- The walk through the first block goes on through the second, since it ends in a jump.
  have walk : instructions t m b.start c.stop =
      instructions t m b.start b.stop ++ instructions t m c.start c.stop := by
    have lt := start_lt_stop_of_mem_blocks hc
    rw [← shared] at lt ⊢
    exact instructions_append_of_jump (Nat.le_of_lt lt) last jump
  rw [codeInstructions, codeInstructions, blocksTagged, blocksTagged, erased, joined, listed]
  simp [first, second, walk]

theorem joins_merge (step : merge t m tags = some next) : Joins t m tags next.value := by
  refine ⟨?_, fun _ => tagAt?_merge step, codeInstructions_merge step⟩
  obtain ⟨b, -, c, hc, -, -, second, -, erased⟩ := exists_of_merge step
  exact ⟨c.start, second ▸ get?_start_of_mem_blocks hc,
    fun x => by rw [erased, SortedMap.get?_erase]⟩

/-- A merge takes one boundary of code away and leaves another. -/
theorem codeBoundaries_merge (step : merge t m tags = some next) :
    codeBoundaries next.value - 1 < codeBoundaries tags - 1 := by
  obtain ⟨b, hb, c, hc, shared, first, second, -, erased⟩ := exists_of_merge step
  have lt := start_lt_stop_of_mem_blocks hb
  -- The first block of the pair keeps its start, so a boundary of code is left over.
  have stays : next.value.get? b.start = some .code := by
    rw [erased, SortedMap.get?_erase, if_neg (by omega), get?_start_of_mem_blocks hb, first]
  have removed := SortedMap.weight_erase_add (fun e => if e.2 = .code then 1 else 0)
    (get?_start_of_mem_blocks hc)
  have left := SortedMap.weight_erase_add (fun e => if e.2 = .code then 1 else 0) stays
  rw [← erased] at removed
  simp only [second, if_true] at removed left
  rw [codeBoundaries, codeBoundaries]
  omega

/-! ### Merging to the end -/

/-- Where there is nothing to merge, no block of code ends in a jump to a block of code after it. -/
theorem jumpTarget?_ne_of_merge_eq_none (done : merge t m tags = none) (hb : b ∈ tags.blocks)
    (hc : c ∈ tags.blocks) (shared : b.stop = c.start) (first : b.tag = .code)
    (second : c.tag = .code) (last : lastInstruction? t m b = some i) :
    i.jumpTarget? ≠ some c.start := by
  intro jump
  have quiet := List.find?_eq_none.1 (Option.map_eq_none_iff.1 done) (b, c)
    (mem_zip_of_shared hb hc shared)
  simp [jumpsOn, first, second, last, jump] at quiet

/-- Merging ends after fewer passes than there are boundaries of code, if there are any. Each pass
removes a boundary of code and keeps the tags and the instructions of code. In the end no block of
code ends in a jump to a block of code after it. -/
theorem mergeAll_closes (t : RepeatCeilings) (m : Image) (tags : TagMap) :
    (∀ before next, merge t m before = some next → Joins t m before next.value) ∧
      EndsAfter (merge t m) (mergeAll t m tags).value.1 tags (mergeAll t m tags).value.2 ∧
      (mergeAll t m tags).value.1 ≤ codeBoundaries tags - 1 ∧
      (∀ a, (mergeAll t m tags).value.2.tagAt? a = tags.tagAt? a) ∧
      codeInstructions t m (mergeAll t m tags).value.2 = codeInstructions t m tags ∧
        ∀ b ∈ (mergeAll t m tags).value.2.blocks, ∀ c ∈ (mergeAll t m tags).value.2.blocks,
          b.stop = c.start → b.tag = .code → c.tag = .code →
            ∀ i, lastInstruction? t m b = some i → i.jumpTarget? ≠ some c.start := by
  have ends : EndsAfter (merge t m) (mergeAll t m tags).value.1 tags
      (mergeAll t m tags).value.2 := endsAfter_fixpoint tags
  refine ⟨fun _ _ => joins_merge, ends, ?_, fun a => ?_, ?_, fun b hb c hc shared first second i =>
    jumpTarget?_ne_of_merge_eq_none ends.2 hb hc shared first second⟩
  · have bound := ends.1.add_le (I := fun _ => True) (f := fun tags => codeBoundaries tags - 1)
      (fun _ _ _ _ => trivial) (fun _ _ step _ => codeBoundaries_merge step) trivial
    exact Nat.le_trans (Nat.le_add_left _ _) bound
  · exact fixpoint_keeps (I := fun now => now.tagAt? a = tags.tagAt? a)
      (fun _ _ step same => (tagAt?_merge step).trans same) rfl
  · exact fixpoint_keeps (I := fun now => codeInstructions t m now = codeInstructions t m tags)
      (fun _ _ step same => (codeInstructions_merge step).trans same) rfl

/-- Two jumps, each to the address after it, and a return. -/
def jumpingOn : Image := ⟨0, #[0x00, 0x18, 0x00, 0xC3, 0x06, 0x00, 0xC9], by decide⟩

/-- Three blocks of code are joined in two passes. -/
theorem mergeAll_closes_jumpingOn :
    EndsAfter (merge .usual jumpingOn) 2
        (.ofList [(0, .code), (3, .code), (6, .code), (7, .limit)])
        (.ofList [(0, .code), (7, .limit)]) ∧
      codeInstructions .usual jumpingOn (.ofList [(0, .code), (7, .limit)]) =
        codeInstructions .usual jumpingOn
          (.ofList [(0, .code), (3, .code), (6, .code), (7, .limit)]) := by
  have first : (merge .usual jumpingOn
      (.ofList [(0, .code), (3, .code), (6, .code), (7, .limit)])).map Logged.value =
        some (.ofList [(0, .code), (6, .code), (7, .limit)]) := by decide +kernel
  obtain ⟨next, step, value⟩ := Option.map_eq_some_iff.1 first
  have second : (merge .usual jumpingOn next.value).map Logged.value =
      some (.ofList [(0, .code), (7, .limit)]) := by
    rw [value]
    decide +kernel
  obtain ⟨last, step', value'⟩ := Option.map_eq_some_iff.1 second
  have done : merge .usual jumpingOn last.value = none := by
    rw [← Option.map_eq_none_iff (f := Logged.value), value']
    decide +kernel
  obtain ⟨-, ends, -, -, read, -⟩ := mergeAll_closes .usual jumpingOn
    (.ofList [(0, .code), (3, .code), (6, .code), (7, .limit)])
  rw [mergeAll, value_fixpoint_of_some step, value_fixpoint_of_some step', fixpoint_of_none done,
    Logged.value_pure, value'] at ends read
  exact ⟨ends, read⟩

end MemoryAtlas.Traced
