import Mathlib.Order.Interval.Finset.Nat
import MemoryAtlas.Proofs.Fixpoint
import MemoryAtlas.Proofs.Listing
import MemoryAtlas.Proofs.Phases.Inside

/-!
# Where extension and promotion end

Both phases repeat a pass until it finds nothing to do. A pass of extension moves an unclassified
boundary up or removes it; a pass of promotion enters one boundary of code. Neither measure is that
of unclassified memory, which a pass may also make larger: a run of code that goes over other blocks
and ends inside one of them leaves the rest of it unclassified.

## Main definitions

* `Traced.Extends`, `Traced.EntersCode`: what a pass of extension and one of promotion do to the
  boundaries.
* `Traced.promotable`: the addresses of a range that are no boundary of code.

## Main results

* `Traced.extendAll_closes`: extension ends, with no block of code left open.
* `Traced.promoteAll_closes`: promotion ends after at most as many passes as the range has
  addresses, with no unclassified instruction left that code refers to.
-/

namespace MemoryAtlas.Traced

open Z80 TagMap

variable {t : RepeatCeilings} {m : Image} {tags before after : TagMap} {next : Logged TagMap}
  {start stop : Nat}

/-! ### Extension -/

/-- What a pass of extension does to the boundaries. -/
structure Extends (before after : TagMap) : Prop where
  /-- The boundaries of every tag but one, those of code among them, are the same. -/
  kept : ∀ u ≠ Tag.unknown, ∀ x, after.get? x = some u ↔ before.get? x = some u
  /-- One unclassified boundary is removed. At most one is entered: it is unclassified as well, it
  lies above the one removed, and there was none before. -/
  moved : ∃ e, before.get? e = some .unknown ∧ ∃ entered : Option Nat,
    (∀ a ∈ entered, e < a ∧ before.get? a = none) ∧
      ∀ x, after.get? x =
        if x = e then none else if entered = some x then some .unknown else before.get? x

theorem Extends.of_moved {e : Nat} (unknown : before.get? e = some .unknown) {entered : Option Nat}
    (fresh : ∀ a ∈ entered, e < a ∧ before.get? a = none)
    (moved : ∀ x, after.get? x =
      if x = e then none else if entered = some x then some .unknown else before.get? x) :
    Extends before after where
  kept u known x := by
    rw [moved]
    by_cases removed : x = e
    · simp [removed, unknown, known.symm]
    by_cases entry : entered = some x
    · simp [removed, entry, (fresh x entry).2, known.symm]
    · simp [removed, entry]
  moved := ⟨e, unknown, entered, fresh, moved⟩

/-- A pass of extension removes the boundary after an open block, and enters one where the run of
code from there ends. -/
theorem extends_extend (step : extend t m stop before = some next) :
    Extends before next.value := by
  obtain ⟨b, found, rfl⟩ := Option.map_eq_some_iff.1 step
  obtain ⟨-, unknown, -⟩ := isOpen_iff.1 (List.find?_some found)
  rw [value_perform, extension, edit_cons, apply]
  rcases edits_findTerminal_some t m (before.erase b.stop) b.stop stop .unknown with
    none | ⟨a, above, -, fresh, one⟩
  · rw [none, edit_nil]
    have moved : ∀ x, (before.erase b.stop).get? x =
        if x = b.stop then .none else if .none = some x then some .unknown else before.get? x :=
      fun x => by simp
    exact .of_moved unknown (by simp) moved
  · rw [SortedMap.get?_erase, if_neg (by omega)] at fresh
    rw [one, edit_cons, edit_nil, apply]
    have new : ∀ x ∈ some a, b.stop < x ∧ before.get? x = .none := by simpa using ⟨above, fresh⟩
    refine .of_moved unknown new fun x => ?_
    rw [SortedMap.get?_insert, SortedMap.get?_erase]
    by_cases removed : x = b.stop
    · rw [if_neg (by omega), if_pos removed, if_pos removed]
    · simp [removed, eq_comm]

/-- Extension ends after the passes that it counts. Each pass removes one unclassified boundary and
enters at most one, further on. In the end every block of code that an unclassified block follows
has a terminal instruction last. -/
theorem extendAll_closes (t : RepeatCeilings) (m : Image) (stop : Nat) (tags : TagMap) :
    EndsAfter (extend t m stop) (extendAll t m stop tags).value.1 tags
        (extendAll t m stop tags).value.2 ∧
      (∀ before next, extend t m stop before = some next → Extends before next.value) ∧
        ∀ b ∈ (extendAll t m stop tags).value.2.blocks, b.tag = .code →
          (extendAll t m stop tags).value.2.get? b.stop = some .unknown →
            ∃ last, lastInstruction? t m b = some last ∧ last.isTerminal = true := by
  have ends : EndsAfter (extend t m stop) (extendAll t m stop tags).value.1 tags
      (extendAll t m stop tags).value.2 := endsAfter_fixpoint tags
  refine ⟨ends, fun _ _ step => extends_extend step, fun b hb code unknown => ?_⟩
  -- The pass that finds nothing to do has looked at this block too.
  have closed := ends.2
  rw [extend, Option.map_eq_none_iff, List.find?_eq_none] at closed
  have terminal : (lastInstruction? t m b).any (·.isTerminal) = true := by
    by_contra opens
    exact closed b hb (isOpen_iff.2 ⟨code, unknown, Bool.eq_false_iff.2 opens⟩)
  exact (Option.any_eq_true _ _).1 terminal

/-- A load at 1 that goes over a block of code at 2, and a return after both. -/
def overlapping : Image := ⟨0, #[0x00, 0x21, 0x00, 0x00, 0xC9], by decide⟩

/-- Extension of the block at 0 enters a boundary after the return. Extension of the block at 2 then
ends at that boundary. -/
theorem extendAll_closes_overlapping :
    EndsAfter (extend .usual overlapping 8) 2
        (.ofList [(0, .code), (1, .unknown), (2, .code), (3, .unknown), (8, .limit)])
        (.ofList [(0, .code), (2, .code), (5, .unknown), (8, .limit)]) ∧
      ∃ last, lastInstruction? .usual overlapping ⟨2, 5, .code⟩ = some last ∧
        last.isTerminal = true := by
  have first : (extend .usual overlapping 8
      (.ofList [(0, .code), (1, .unknown), (2, .code), (3, .unknown), (8, .limit)])).map
        Logged.value =
      some (.ofList [(0, .code), (2, .code), (3, .unknown), (5, .unknown), (8, .limit)]) := by
    decide +kernel
  obtain ⟨next, step, value⟩ := Option.map_eq_some_iff.1 first
  have second : (extend .usual overlapping 8 next.value).map Logged.value =
      some (.ofList [(0, .code), (2, .code), (5, .unknown), (8, .limit)]) := by
    rw [value]
    decide +kernel
  obtain ⟨last, step', value'⟩ := Option.map_eq_some_iff.1 second
  have done : extend .usual overlapping 8 last.value = none := by
    rw [value', extend, Option.map_eq_none_iff]
    decide +kernel
  obtain ⟨ends, -, closed⟩ := extendAll_closes .usual overlapping 8
    (.ofList [(0, .code), (1, .unknown), (2, .code), (3, .unknown), (8, .limit)])
  rw [extendAll, value_fixpoint_of_some step, value_fixpoint_of_some step', fixpoint_of_none done,
    Logged.value_pure, value'] at ends closed
  exact ⟨ends, closed ⟨2, 5, .code⟩ (by decide) rfl (by decide)⟩

/-! ### Promotion -/

/-- What a pass of promotion does to the boundaries. -/
structure EntersCode (before after : TagMap) : Prop where
  /-- No boundary is removed. -/
  kept : ∀ x, (before.get? x).isSome → (after.get? x).isSome
  /-- Boundaries of code stay boundaries of code. -/
  code : ∀ x, before.get? x = some .code → after.get? x = some .code
  /-- There is exactly one new boundary of code. -/
  entered : ∃! x, before.get? x ≠ some .code ∧ after.get? x = some .code

/-- A pass of promotion enters code at an address of an unclassified block, and at most one
unclassified boundary where there was none. -/
theorem promote_step (step : promote t m stop before = some next) :
    ∃ a, (∃ b ∈ before.blocks, b.start ≤ a ∧ a < b.stop) ∧ before.get? a ≠ some .code ∧
      next.value.get? a = some .code ∧
        ∀ x ≠ a, next.value.get? x = before.get? x ∨
          before.get? x = none ∧ next.value.get? x = some .unknown := by
  obtain ⟨⟨a, reference⟩, entry, rfl⟩ := Option.map_eq_some_iff.1 step
  obtain ⟨b, hb, -, above, below⟩ := mem_block_of_entryPoint? entry
  refine ⟨a, ⟨b, hb, above, below⟩, get?_ne_code_of_entryPoint? entry, ?_⟩
  rw [Logged.value_bind, value_perform, promotion, edit_cons, apply]
  rcases edits_findTerminal_some t m (before.insert a .code) a stop .unknown with
    none | ⟨e, above, -, fresh, one⟩
  · rw [none, edit_nil]
    exact ⟨by simp, fun x other => .inl (by simp [other])⟩
  · rw [SortedMap.get?_insert, if_neg (by omega)] at fresh
    rw [one, edit_cons, edit_nil, apply]
    refine ⟨by simp [Nat.ne_of_lt above], fun x other => ?_⟩
    rw [SortedMap.get?_insert, SortedMap.get?_insert, if_neg other]
    by_cases ends : x = e
    · exact .inr ⟨ends ▸ fresh, if_pos ends⟩
    · exact .inl (if_neg ends)

theorem entersCode_promote (step : promote t m stop before = some next) :
    EntersCode before next.value := by
  obtain ⟨a, -, fresh, code, others⟩ := promote_step step
  refine ⟨fun x key => ?_, fun x key => ?_, a, ⟨fresh, code⟩, ?_⟩
  · by_cases same : x = a
    · simp [same, code]
    · rcases others x same with eq | ⟨-, eq⟩
      · rwa [eq]
      · simp [eq]
  · by_cases same : x = a
    · rw [same, code]
    · rcases others x same with eq | ⟨none, -⟩
      · rwa [eq]
      · rw [none] at key
        cases key
  · rintro x ⟨other, entered⟩
    by_contra ne
    rcases others x ne with eq | ⟨-, eq⟩
    · exact other (eq ▸ entered)
    · rw [eq] at entered
      cases entered

/-- The addresses of a range that are no boundary of code. -/
def promotable (start stop : Nat) (tags : TagMap) : Finset Nat :=
  (Finset.Ico start stop).filter fun a => tags.get? a ≠ some .code

theorem card_promotable_le (start stop : Nat) (tags : TagMap) :
    (promotable start stop tags).card ≤ stop - start := by
  calc (promotable start stop tags).card
      ≤ (Finset.Ico start stop).card := Finset.card_filter_le _ _
    _ = stop - start := Nat.card_Ico start stop

/-- A pass of promotion takes an address of the range away from those that are no boundary of code.
It adds none, since boundaries of code stay. -/
theorem card_promotable_promote (h : before.WellFormed start stop)
    (step : promote t m stop before = some next) :
    (promotable start stop next.value).card < (promotable start stop before).card := by
  obtain ⟨a, ⟨b, hb, above, below⟩, fresh, code, -⟩ := promote_step step
  obtain ⟨lower, -, upper, -⟩ := h.of_mem_blocks hb
  apply Finset.card_lt_card
  rw [Finset.ssubset_iff_of_subset]
  · refine ⟨a, ?_, ?_⟩
    · simp only [promotable, Finset.mem_filter, Finset.mem_Ico]
      exact ⟨⟨by omega, by omega⟩, fresh⟩
    · simp [promotable, code]
  · intro x mem
    simp only [promotable, Finset.mem_filter] at mem ⊢
    exact ⟨mem.1, fun key => mem.2 ((entersCode_promote step).code x key)⟩

/-- Where there is no entry point, code refers to no unclassified instruction. -/
theorem target?_ne_of_promote_eq_none (none : promote t m stop tags = none) {b c : Block}
    (hb : b ∈ tags.blocks) (unknown : b.tag = .unknown) {i : Instruction}
    (hi : i ∈ instructions t m b.start b.stop) (hc : c ∈ tags.blocks) (code : c.tag = .code)
    {j : Instruction} (hj : j ∈ instructions t m c.start c.stop) : j.target? ≠ some i.address := by
  intro target
  rw [promote, Option.map_eq_none_iff, entryPoint?_build, List.findSome?_eq_none_iff] at none
  have searched := none ⟨b, instructions t m b.start b.stop⟩
    (List.mem_filter.2 ⟨List.mem_map_of_mem hb, by simp [unknown]⟩)
  have unreferenced := List.findSome?_eq_none_iff.1 searched i hi
  rw [Option.map_eq_none_iff, List.find?_eq_none] at unreferenced
  -- The reference of the instruction is one of those searched.
  have listed : ⟨j.address, i.address, j.referenceKind, .code⟩ ∈
      (Listing.build t m tags).references := by
    refine List.mem_flatMap.2 ⟨⟨c, instructions t m c.start c.stop⟩, List.mem_map_of_mem hc, ?_⟩
    exact List.mem_filterMap.2 ⟨j, hj, by simp [Reference.ofInstruction?, target, code]⟩
  exact unreferenced _ listed (by simp)

/-- Promotion ends after at most as many passes as the range has addresses. Each pass enters one
boundary of code, removes no boundary and leaves those of code as they are. In the end no
instruction of a block of code refers to an instruction of an unclassified block. -/
theorem promoteAll_closes (h : tags.WellFormed start stop) :
    (promoteAll t m stop tags).value.1 ≤ stop - start ∧
      EndsAfter (promote t m stop) (promoteAll t m stop tags).value.1 tags
        (promoteAll t m stop tags).value.2 ∧
      (∀ before next, promote t m stop before = some next → EntersCode before next.value) ∧
        ∀ b ∈ (promoteAll t m stop tags).value.2.blocks, b.tag = .unknown →
          ∀ i ∈ instructions t m b.start b.stop,
            ∀ c ∈ (promoteAll t m stop tags).value.2.blocks, c.tag = .code →
              ∀ j ∈ instructions t m c.start c.stop, j.target? ≠ some i.address := by
  have ends : EndsAfter (promote t m stop) (promoteAll t m stop tags).value.1 tags
      (promoteAll t m stop tags).value.2 := endsAfter_fixpoint tags
  refine ⟨?_, ends, fun _ _ step => entersCode_promote step,
    fun b hb unknown i hi c hc code j hj =>
      target?_ne_of_promote_eq_none ends.2 hb unknown hi hc code hj⟩
  have bound := ends.1.add_le (I := fun tags => tags.WellFormed start stop)
    (f := fun tags => (promotable start stop tags).card)
    (fun _ _ step h => wellFormed_promote h step)
    (fun _ _ step h => card_promotable_promote h step) h
  have size := card_promotable_le start stop tags
  omega

/-- A call of the jump at 5, which goes back to 4. -/
def chained : Image := ⟨0, #[0xCD, 0x05, 0x00, 0xC9, 0x00, 0x18, 0xFD], by decide⟩

/-- The call makes 5 code, and only then does the jump there make 4 code. -/
theorem promoteAll_closes_chained :
    TagMap.WellFormed (.ofList [(0, .code), (4, .unknown), (8, .limit)]) 0 8 ∧
      EndsAfter (promote .usual chained 8) 2
        (.ofList [(0, .code), (4, .unknown), (8, .limit)])
        (.ofList [(0, .code), (4, .code), (5, .code), (7, .unknown), (8, .limit)]) ∧
      ∀ c ∈ TagMap.blocks (.ofList [(0, .code), (4, .code), (5, .code), (7, .unknown),
          (8, .limit)]), c.tag = .code →
        ∀ j ∈ instructions .usual chained c.start c.stop, j.target? ≠ some 7 := by
  have wellFormed : TagMap.WellFormed (.ofList [(0, .code), (4, .unknown), (8, .limit)]) 0 8 := by
    decide
  have entry : entryPoint? (Listing.build .usual chained
      (.ofList [(0, .code), (4, .unknown), (8, .limit)])) =
        some (5, ⟨0, 5, .routine, .code⟩) := by
    rw [entryPoint?_build]
    decide +kernel
  have first : (promote .usual chained 8 (.ofList [(0, .code), (4, .unknown), (8, .limit)])).map
      Logged.value =
        some (.ofList [(0, .code), (4, .unknown), (5, .code), (7, .unknown), (8, .limit)]) := by
    rw [promote, entry, Option.map_some, Option.map_some, Logged.value_bind, value_perform]
    decide +kernel
  obtain ⟨next, step, value⟩ := Option.map_eq_some_iff.1 first
  have entry' : entryPoint? (Listing.build .usual chained next.value) =
      some (4, ⟨5, 4, .location, .code⟩) := by
    rw [value, entryPoint?_build]
    decide +kernel
  have second : (promote .usual chained 8 next.value).map Logged.value =
      some (.ofList [(0, .code), (4, .code), (5, .code), (7, .unknown), (8, .limit)]) := by
    rw [promote, entry', Option.map_some, Option.map_some, Logged.value_bind, value_perform, value]
    decide +kernel
  obtain ⟨last, step', value'⟩ := Option.map_eq_some_iff.1 second
  have done : promote .usual chained 8 last.value = none := by
    rw [value', promote, Option.map_eq_none_iff, entryPoint?_build]
    decide +kernel
  obtain ⟨-, ends, -, closed⟩ :=
    promoteAll_closes (t := .usual) (m := chained) wellFormed
  rw [promoteAll, value_fixpoint_of_some step, value_fixpoint_of_some step', fixpoint_of_none done,
    Logged.value_pure, value'] at ends closed
  exact ⟨wellFormed, ends, closed ⟨7, 8, .unknown⟩ (by decide) rfl (decode .usual chained 7 8)
    (by decide +kernel)⟩

end MemoryAtlas.Traced
