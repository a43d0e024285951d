import MemoryAtlas.Proofs.Listing
import MemoryAtlas.Proofs.Traced.Growth
import MemoryAtlas.Proofs.Traced.Outline

/-!
# What becomes of executed code

What has run enters a classification as code. Extension and promotion may take some of it from code
again, and the phases after them change nothing about which addresses are code. So an executed
address is code in the end unless a pass cuts it off and no later pass covers it. That does happen:
a run of code that goes over the start of a block of executed code and ends inside of it leaves the
rest of the block unclassified.

## Main results

* `Traced.code_seeded`: executed addresses enter as code.
* `Traced.code_classify_iff`: the phases after promotion keep code as it is.
* `Traced.executed_code_iff`: the executed addresses that are code in the end;
  `Traced.executed_code_iff_straddling`: one that is not.
-/

namespace MemoryAtlas.Traced

open Z80 TagMap

variable {s : Settings} {t : RepeatCeilings} {m : Image} {start stop a x : Nat}
  {u : Tag} {blocks : List Span} {executed : List Nat}

/-! ### Executed code is entered -/

/-- Of blocks with gaps between them, only a block itself enters a boundary inside of it, and that
is code at its start. -/
theorem eq_start_of_mem_seedBlock
    (bounds : ∀ b ∈ blocks, start ≤ b.start ∧ b.start < b.stop ∧ b.stop ≤ stop)
    (apart : blocks.Pairwise fun earlier later => earlier.stop < later.start) {b : Span}
    (hb : b ∈ blocks) (mem : .assign x u ∈ blocks.flatMap (seedBlock stop))
    (above : b.start ≤ x) (below : x < b.stop) : x = b.start ∧ u = .code := by
  obtain ⟨c, hc, entered⟩ := List.mem_flatMap.1 mem
  -- The blocks before this one end below it, and those after it start above it.
  have others : c = b ∨ c.stop < b.start ∨ b.stop < c.start := by
    obtain ⟨front, back, rfl⟩ := List.append_of_mem hb
    obtain ⟨-, inBack, cross⟩ := List.pairwise_append.1 apart
    rcases List.mem_append.1 hc with hc | hc
    · exact .inr (.inl (cross c hc b List.mem_cons_self))
    · rcases List.mem_cons.1 hc with rfl | hc
      · exact .inl rfl
      · exact .inr (.inr ((List.pairwise_cons.1 inBack).1 c hc))
  obtain ⟨-, nonempty, -⟩ := bounds c hc
  rcases mem_seedBlock entered with eq | ⟨eq, -⟩
  all_goals
    rw [Edit.assign.injEq] at eq
    rcases others with rfl | others
  · exact eq
  all_goals omega

/-- Blocks with gaps between them are code in the seeded map. -/
theorem code_seeded_of_apart
    (bounds : ∀ b ∈ blocks, start ≤ b.start ∧ b.start < b.stop ∧ b.stop ≤ stop)
    (apart : blocks.Pairwise fun earlier later => earlier.stop < later.start) {b : Span}
    (hb : b ∈ blocks) (above : b.start ≤ a) (below : a < b.stop) :
    (seeded start stop blocks).tagAt? a = some .code := by
  obtain ⟨lower, nonempty, upper⟩ := bounds b hb
  have set : .assign b.start .code ∈ blocks.flatMap (seedBlock stop) :=
    List.mem_flatMap.2 ⟨b, hb, List.mem_cons_self⟩
  have kept : .clear b.start ∉ blocks.flatMap (seedBlock stop) := by
    intro mem
    obtain ⟨c, -, mem⟩ := List.mem_flatMap.1 mem
    rcases mem_seedBlock mem with eq | ⟨eq, -⟩ <;> cases eq
  rw [seeded, seed, edit_append]
  obtain ⟨u, entered, key⟩ :=
    exists_get?_edit (m := edit ∅ (rangeEdits start stop .unknown)) set kept
  obtain ⟨-, rfl⟩ := eq_start_of_mem_seedBlock bounds apart hb entered (Nat.le_refl _) nonempty
  refine tagAt?_eq_some_iff.2 ⟨b.start, ⟨above, fun j later le => ?_⟩, key⟩
  rw [Option.eq_none_iff_forall_ne_some]
  intro v key
  rcases get?_edit_eq_some key with key | entered
  · -- The ends of the range do not lie inside a block.
    rcases get?_edit_eq_some key with key | range
    · cases key
    · simp only [rangeEdits, List.mem_cons, List.not_mem_nil, or_false, Edit.assign.injEq] at range
      omega
  · have := eq_start_of_mem_seedBlock bounds apart hb entered (Nat.le_of_lt later) (by omega)
    omega

/-- Executed addresses enter as code. -/
theorem code_seeded (h : Trace.AddressesOf ⟨start, stop⟩ executed) (mem : a ∈ executed) :
    (seeded start stop (codeBlocks t m executed stop)).tagAt? a = some .code := by
  obtain ⟨bounds, apart, cover⟩ := codeBlocks_spec (t := t) (m := m) h
  obtain ⟨b, hb, above, below⟩ := cover a mem
  refine code_seeded_of_apart (fun c hc => ?_) apart hb above below
  obtain ⟨ran, nonempty, le⟩ := bounds c hc
  exact ⟨(h.2 c.start ran).1, nonempty, le⟩

/-! ### Executed code in the end -/

/-- The phases after promotion keep code as it is. -/
theorem code_classify_iff :
    (classify s t m start stop blocks).value.tagAt? a = some .code ↔
      (promoted t m start stop blocks).tagAt? a = some .code := by
  have merging : (merged t m start stop blocks).outline a =
      (divided t m start stop blocks).outline a :=
    fixpoint_keeps (I := fun tags => tags.outline a = (divided t m start stop blocks).outline a)
      (fun _ _ step same => (outline_merge step).trans same) rfl
  rw [← outline_eq_code_iff, value_classify, outline_markZeroFill, resolved,
    outline_classifyUnknown, merging, divided, outline_splitAtTerminals, outline_eq_code_iff]

/-- An executed address is code in the end, unless extension or promotion cuts it off and covers it
by no later pass. -/
theorem executed_code_iff (lt : start < stop) (h : Trace.AddressesOf ⟨start, stop⟩ executed)
    (mem : a ∈ executed) :
    (classify s t m start stop (codeBlocks t m executed stop)).value.tagAt? a = some .code ↔
      ¬ Lost t m stop a (growths t m start stop (codeBlocks t m executed stop)) := by
  rw [code_classify_iff, code_promoted_iff (wellFormed_seeded_codeBlocks lt h) (h.2 a mem).2,
    eq_true (code_seeded h mem), remains_true_iff]

/-- Code from 2 on, and below it an instruction at 1 that goes over the start of that code. -/
def straddling : Image := ⟨0, #[0x00, 0x21, 0x00, 0x00, 0xC9, 0xC9], by decide⟩

/-- The one pass there extends the first block. -/
theorem growths_straddling :
    growths .usual straddling 0 8 [⟨0, 1⟩, ⟨2, 6⟩] = [⟨seeded 0 8 [⟨0, 1⟩, ⟨2, 6⟩], 1⟩] := by
  have found : extension? .usual straddling (seeded 0 8 [⟨0, 1⟩, ⟨2, 6⟩]) =
      some ⟨seeded 0 8 [⟨0, 1⟩, ⟨2, 6⟩], 1⟩ := by decide +kernel
  have grown : (extend .usual straddling 8 (seeded 0 8 [⟨0, 1⟩, ⟨2, 6⟩])).map Logged.value =
      some (.ofList [(0, .code), (2, .code), (5, .unknown), (6, .unknown), (8, .limit)]) := by
    decide +kernel
  obtain ⟨next, step, value⟩ := Option.map_eq_some_iff.1 grown
  have done : extend .usual straddling 8 next.value = none := by
    rw [value, extend, Option.map_eq_none_iff]
    decide +kernel
  have unreferenced : promote .usual straddling 8 next.value = none := by
    rw [value, promote, Option.map_eq_none_iff, entryPoint?_build]
    decide +kernel
  rw [growths, extensions, promotions, extended, extendAll, value_fixpoint_of_some step,
    fixpoint_of_none done, fixpointStates_of_some step, fixpointStates_of_none done,
    List.filterMap_cons_some found, Logged.value_pure, fixpointStates_of_none unreferenced]
  rfl

/-- The last byte of the code from 2 on has run, and is not code in the end. -/
theorem executed_code_iff_straddling :
    (classify .usual .usual straddling 0 8
      (codeBlocks .usual straddling [0, 2, 3, 4, 5] 8)).value.tagAt? 5 ≠ some .code := by
  have blocks : codeBlocks .usual straddling [0, 2, 3, 4, 5] 8 = [⟨0, 1⟩, ⟨2, 6⟩] := by
    decide +kernel
  have run : (⟨seeded 0 8 [⟨0, 1⟩, ⟨2, 6⟩], 1⟩ : Growth).run .usual straddling 8 =
      [decode .usual straddling 1 8, decode .usual straddling 4 8] := by decide +kernel
  rw [ne_eq, executed_code_iff (by decide) ⟨by decide, by decide⟩ (by decide), not_not, blocks,
    growths_straddling]
  -- The load at 1 goes over the start of the block at 2, and the return at 4 ends inside of it.
  refine .inl ⟨⟨⟨2, 6, .code⟩, by decide, rfl, by decide, ?_, ?_⟩, by simp⟩
  · rw [run]
    exact ⟨_, List.mem_cons_self, by decide +kernel⟩
  · rw [run]
    exact ⟨_, rfl, by decide +kernel⟩

end MemoryAtlas.Traced
