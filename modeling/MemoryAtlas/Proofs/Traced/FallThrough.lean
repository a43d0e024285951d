import MemoryAtlas.Proofs.Coverage
import MemoryAtlas.Proofs.Listing
import MemoryAtlas.Proofs.Traced.Outline
import MemoryAtlas.Proofs.Z80.Jumps

/-!
# Where code falls through

Code falls through where a block of it does not end in a terminal instruction and neither code nor
the end of the range follows. Extension leaves no such place, but promotion may: the run of code
from an entry point goes over boundaries of unclassified memory without removing them. Nothing after
promotion adds such a place or removes one, since splitting and merging keep the last instruction
before each border of code.

## Main definitions

* `Traced.FallsThroughAt`: code falls through at an address.

## Main results

* `Traced.fallsThroughAt_classify_iff`: code falls through in the end where it does after promotion.
* `Traced.extend_eq_none_iff`: extension finds nothing to do if code falls through nowhere.
* `Traced.terminal_before_data_iff`: code before data ends in terminal instructions if and only if
  extension finds nothing to do after promotion.
-/

namespace MemoryAtlas.Traced

open Z80 TagMap

variable {s : Settings} {t : RepeatCeilings} {m : Image} {tags before after : TagMap} {b c : Block}
  {start stop x : Nat} {edits : List Edit} {blocks : List Span} {executed : List Nat}
  {next : Logged TagMap}

/-- A block of code ends at an address, not in a terminal instruction, and what follows is neither
code nor the end of the range. -/
def FallsThroughAt (t : RepeatCeilings) (m : Image) (tags : TagMap) (x : Nat) : Prop :=
  ∃ b ∈ tags.blocks, b.stop = x ∧ b.tag = .code ∧
    (∃ u, tags.get? x = some u ∧ u ≠ .code ∧ u ≠ .limit) ∧
      (lastInstruction? t m b).any (·.isTerminal) = false

/-- Where two maps have the same outline, and the last instruction before each border of code is the
same, code falls through at the same addresses. -/
theorem fallsThroughAt_of_outline (same : ∀ a, after.outline a = before.outline a)
    (last : ∀ b ∈ before.blocks, ∀ c ∈ after.blocks, b.tag = .code → c.tag = .code →
      c.stop = b.stop → lastInstruction? t m c = lastInstruction? t m b)
    (h : FallsThroughAt t m before x) : FallsThroughAt t m after x := by
  obtain ⟨b, hb, rfl, code, ⟨u, key, soft⟩, opens⟩ := h
  have lt := start_lt_stop_of_mem_blocks hb
  have inner : after.tagAt? (b.stop - 1) = some .code := by
    rw [← outline_eq_code_iff, same, outline_of_mem_blocks hb (by omega) (by omega), code]
    rfl
  have outer : after.outline b.stop = some .unknown := by
    rw [same, outline, tagAt?_of_get? key, Option.map_some, Tag.kind_eq_unknown_iff.2 soft]
  -- Code ends at the address, so there is a boundary.
  have key : ∃ v, after.get? b.stop = some v := by
    by_contra none
    have governs : after.Governs (b.stop - 1) b.stop := by
      refine ⟨by omega, fun j above below => ?_⟩
      rw [show j = b.stop by omega]
      exact Option.eq_none_iff_forall_ne_some.2 fun v key => none ⟨v, key⟩
    rw [outline, governs.tagAt?_eq_tagAt?, inner] at outer
    cases outer
  obtain ⟨v, key⟩ := key
  -- The block of code before it is the one that the last instruction is kept for.
  obtain ⟨k, governs, start⟩ := tagAt?_eq_some_iff.1 inner
  obtain ⟨c, hc, rfl, tag, past⟩ := TagMap.exists_mem_blocks governs start
    ⟨b.stop, by omega, by simp [key]⟩
  have stop : c.stop = b.stop := by
    have := governs.le
    by_contra ne
    rw [get?_eq_none_of_mem_blocks hc (by omega) (by omega)] at key
    cases key
  refine ⟨c, hc, stop, tag, ⟨v, key, ?_⟩, by rw [last b hb c hc code tag stop]; exact opens⟩
  rw [outline, tagAt?_of_get? key] at outer
  exact Tag.kind_eq_unknown_iff.1 (Option.some.inj outer)

/-! ### Later phases keep the last instructions of code -/

theorem lastInstruction?_split (hb : b ∈ tags.blocks)
    (hc : c ∈ (tags.edit (splitAtTerminals t m tags)).blocks) (same : c.stop = b.stop) :
    lastInstruction? t m c = lastInstruction? t m b := by
  have lt := start_lt_stop_of_mem_blocks hb
  have inside := start_lt_stop_of_mem_blocks hc
  have le : b.start ≤ c.start :=
    le_start_of_isSome hc (by simp [get?_split_of_get? (get?_start_of_mem_blocks hb)]) (by omega)
  rw [lastInstruction?, lastInstruction?, same]
  rcases Nat.eq_or_lt_of_le le with eq | above
  · rw [eq]
  · -- The block was split off after an instruction, and the walk goes on from there.
    obtain ⟨i, walked, ends⟩ := exists_stop_of_split hb above (by omega)
      (Option.isSome_of_eq_some (get?_start_of_mem_blocks hc))
    rw [← ends]
    exact getLast?_instructions_of_stop t m walked (by omega)

/-- A merge joins the second block of a pair to the first, and moves no other start. -/
theorem start_of_mem_blocks_erase {first second : Block} (hfirst : first ∈ tags.blocks)
    (hsecond : second ∈ tags.blocks) (shared : first.stop = second.start) (hb : b ∈ tags.blocks)
    (hc : c ∈ TagMap.blocks (tags.erase second.start)) (same : c.stop = b.stop) :
    b = second ∧ c.start = first.start ∨ c.start = b.start := by
  obtain ⟨before, after, listed, joined⟩ := blocks_erase hfirst hsecond shared
  have ends : ∀ d ∈ tags.blocks, d.stop = b.stop → d = b := by
    intro d hd eq
    have lt := start_lt_stop_of_mem_blocks hb
    have lt' := start_lt_stop_of_mem_blocks hd
    exact eq_of_mem_of_mem (a := b.stop - 1) hd hb (by omega) (by omega) (by omega) (by omega)
  rw [joined, List.mem_append, List.mem_cons] at hc
  rcases hc with mem | rfl | mem
  · exact .inr (by rw [ends c (by simp [listed, mem]) same])
  · exact .inl ⟨(ends second hsecond same).symm, rfl⟩
  · exact .inr (by rw [ends c (by simp [listed, mem]) same])

theorem lastInstruction?_merge (step : merge t m tags = some next) (hb : b ∈ tags.blocks)
    (hc : c ∈ next.value.blocks) (same : c.stop = b.stop) :
    lastInstruction? t m c = lastInstruction? t m b := by
  obtain ⟨first, hfirst, second, hsecond, shared, -, -, ⟨i, last, jump⟩, erased⟩ :=
    exists_of_merge step
  rw [erased] at hc
  rw [lastInstruction?, lastInstruction?, same]
  rcases start_of_mem_blocks_erase hfirst hsecond shared hb hc same with ⟨rfl, eq⟩ | eq
  · -- The walk through the first block goes on through the second, since it ends in a jump.
    have lt := start_lt_stop_of_mem_blocks hb
    rw [lastInstruction?, shared] at last
    rw [eq, instructions_append_of_jump (Nat.le_of_lt lt) last jump, List.getLast?_append,
      List.getLast?_eq_some_getLast (instructions_ne_nil t m lt)]
    rfl
  · rw [eq]

/-- Boundaries of other tags than code leave the starts of code where they are. -/
theorem lastInstruction?_edit (data : ∀ e ∈ edits, ∃ x u, e = .assign x u ∧ u ≠ .code)
    (hb : b ∈ tags.blocks) (hc : c ∈ (tags.edit edits).blocks) (code : c.tag = .code)
    (same : c.stop = b.stop) : lastInstruction? t m c = lastInstruction? t m b := by
  have kept : .clear b.start ∉ edits := by
    intro mem
    obtain ⟨x, u, eq, -⟩ := data _ mem
    cases eq
  have old : tags.get? c.start = some .code := by
    have key := get?_start_of_mem_blocks hc
    rw [code] at key
    rcases get?_edit_eq_some key with key | mem
    · exact key
    · obtain ⟨x, u, eq, ne⟩ := data _ mem
      exact absurd (Edit.assign.inj eq).2.symm ne
  have lt := start_lt_stop_of_mem_blocks hb
  have inside := start_lt_stop_of_mem_blocks hc
  have lower : b.start ≤ c.start :=
    le_start_of_isSome hc (isSome_get?_edit (by simp [get?_start_of_mem_blocks hb]) kept) (by omega)
  have upper : c.start ≤ b.start := le_start_of_isSome hb (by simp [old]) (by omega)
  rw [lastInstruction?, lastInstruction?, same, Nat.le_antisymm upper lower]

/-! ### Code falls through where it does after promotion -/

theorem fallsThroughAt_split_iff :
    FallsThroughAt t m (tags.edit (splitAtTerminals t m tags)) x ↔ FallsThroughAt t m tags x := by
  constructor
  · exact fallsThroughAt_of_outline (fun _ => outline_splitAtTerminals.symm)
      fun c hc b hb _ _ same => (lastInstruction?_split hb hc same.symm).symm
  · exact fallsThroughAt_of_outline (fun _ => outline_splitAtTerminals)
      fun b hb c hc _ _ same => lastInstruction?_split hb hc same

theorem fallsThroughAt_merge_iff (step : merge t m tags = some next) :
    FallsThroughAt t m next.value x ↔ FallsThroughAt t m tags x := by
  constructor
  · exact fallsThroughAt_of_outline (fun _ => (outline_merge step).symm)
      fun c hc b hb _ _ same => (lastInstruction?_merge step hb hc same.symm).symm
  · exact fallsThroughAt_of_outline (fun _ => outline_merge step)
      fun b hb c hc _ _ same => lastInstruction?_merge step hb hc same

theorem fallsThroughAt_edit_iff (data : ∀ e ∈ edits, ∃ x u, e = .assign x u ∧ u ≠ .code)
    (same : ∀ a, (tags.edit edits).outline a = tags.outline a) :
    FallsThroughAt t m (tags.edit edits) x ↔ FallsThroughAt t m tags x := by
  constructor
  · exact fallsThroughAt_of_outline (fun a => (same a).symm)
      fun c hc b hb code _ same => (lastInstruction?_edit data hb hc code same.symm).symm
  · exact fallsThroughAt_of_outline same
      fun b hb c hc _ code same => lastInstruction?_edit data hb hc code same

/-- Code falls through in the end where it does after promotion. -/
theorem fallsThroughAt_classify_iff :
    FallsThroughAt t m (classify s t m start stop blocks).value x ↔
      FallsThroughAt t m (promoted t m start stop blocks) x := by
  have merging : FallsThroughAt t m (merged t m start stop blocks) x ↔
      FallsThroughAt t m (divided t m start stop blocks) x :=
    fixpoint_keeps (I := fun tags => FallsThroughAt t m tags x ↔
        FallsThroughAt t m (divided t m start stop blocks) x)
      (fun _ _ step same => (fallsThroughAt_merge_iff step).trans same) Iff.rfl
  rw [value_classify, fallsThroughAt_edit_iff _ fun _ => outline_markZeroFill, resolved,
    fallsThroughAt_edit_iff _ fun _ => outline_classifyUnknown, merging, divided,
    fallsThroughAt_split_iff]
  · intro e mem
    obtain ⟨b, -, -, y, u, rfl, -, -, rfl | rfl⟩ := mem_classifyUnknown mem
    all_goals exact ⟨_, _, rfl, by decide⟩
  · intro e mem
    obtain ⟨b, -, -, rfl⟩ := mem_markZeroFill mem
    exact ⟨_, _, rfl, by decide⟩

/-! ### Extension after promotion -/

/-- Extension finds nothing to do if code falls through nowhere. -/
theorem extend_eq_none_iff (h : Unresolved tags) :
    extend t m stop tags = none ↔ ∀ x, ¬ FallsThroughAt t m tags x := by
  rw [extend, Option.map_eq_none_iff, List.find?_eq_none]
  constructor
  · rintro closed x ⟨b, hb, rfl, code, ⟨u, key, soft⟩, opens⟩
    have unknown : u = .unknown := by
      rcases h _ _ key with rfl | rfl | rfl
      · exact absurd rfl soft.1
      · rfl
      · exact absurd rfl soft.2
    exact closed b hb (isOpen_iff.2 ⟨code, unknown ▸ key, opens⟩)
  · intro none b hb opens
    obtain ⟨code, key, opens⟩ := isOpen_iff.1 opens
    exact none b.stop ⟨b, hb, rfl, code, ⟨.unknown, key, by decide⟩, opens⟩

/-- Every block of code before bytes, text or zeros ends in a terminal instruction, if and only if
extension finds nothing to do after promotion. -/
theorem terminal_before_data_iff (lt : start < stop)
    (h : Trace.AddressesOf ⟨start, stop⟩ executed) :
    (∀ b ∈ (classify s t m start stop (codeBlocks t m executed stop)).value.blocks, b.tag = .code →
      ∀ u ∈ [Tag.bytes, .text, .zero],
        (classify s t m start stop (codeBlocks t m executed stop)).value.get? b.stop = some u →
          (lastInstruction? t m b).any (·.isTerminal) = true) ↔
      extend t m stop (promoted t m start stop (codeBlocks t m executed stop)) = none := by
  have settled : (classify s t m start stop (codeBlocks t m executed stop)).value.Settled :=
    settled_classify (wellFormed_seeded_codeBlocks lt h)
  rw [extend_eq_none_iff unresolved_promoted]
  simp only [← fallsThroughAt_classify_iff (s := s)]
  constructor
  · rintro terminal x ⟨b, hb, rfl, code, ⟨u, key, soft⟩, opens⟩
    -- In the end nothing is unclassified, so what is neither code nor the end is data.
    have data : u ∈ [Tag.bytes, .text, .zero] := by
      have known : u ≠ .unknown := fun unknown => settled _ (unknown ▸ key)
      cases u <;> simp_all
    rw [terminal b hb code u data key] at opens
    cases opens
  · intro none b hb code u data key
    by_contra opens
    refine none b.stop ⟨b, hb, rfl, code, ⟨u, key, ?_⟩, Bool.eq_false_iff.2 opens⟩
    cases u <;> simp_all

/-- A load at 1 that goes over the code at 2, and a jump at 8 into what lies between. -/
def interrupted : Image :=
  ⟨0, #[0x00, 0x21, 0xC9, 0x3E, 0xC9, 0x00, 0xC9, 0xFF, 0xC3, 0x03, 0x00], by decide⟩

/-- Extension from the first byte enters a boundary at 5, and promotion of 3 goes over it. -/
theorem promoted_interrupted :
    promoted .usual interrupted 0 11 [⟨0, 1⟩, ⟨2, 3⟩, ⟨8, 11⟩] =
      .ofList [(0, .code), (2, .code), (3, .code), (5, .unknown), (7, .unknown), (8, .code),
        (11, .limit)] := by
  have grown : (extend .usual interrupted 11 (seeded 0 11 [⟨0, 1⟩, ⟨2, 3⟩, ⟨8, 11⟩])).map
      Logged.value = some (.ofList [(0, .code), (2, .code), (3, .unknown), (5, .unknown),
        (8, .code), (11, .limit)]) := by decide +kernel
  obtain ⟨next, step, value⟩ := Option.map_eq_some_iff.1 grown
  have done : extend .usual interrupted 11 next.value = none := by
    rw [value, extend, Option.map_eq_none_iff]
    decide +kernel
  -- The jump at 8 makes 3 an entry point, whose run ends at 7 and leaves the boundary at 5.
  have entry : entryPoint? (Listing.build .usual interrupted next.value) =
      some (3, ⟨8, 3, .location, .code⟩) := by
    rw [value, entryPoint?_build]
    decide +kernel
  have entered : (promote .usual interrupted 11 next.value).map Logged.value =
      some (.ofList [(0, .code), (2, .code), (3, .code), (5, .unknown), (7, .unknown), (8, .code),
        (11, .limit)]) := by
    rw [promote, entry, Option.map_some, Option.map_some, Logged.value_bind, value_perform, value]
    decide +kernel
  obtain ⟨last, step', value'⟩ := Option.map_eq_some_iff.1 entered
  have done' : promote .usual interrupted 11 last.value = none := by
    rw [value', promote, Option.map_eq_none_iff, entryPoint?_build]
    decide +kernel
  rw [promoted, promoteAll, extended, extendAll, value_fixpoint_of_some step, fixpoint_of_none done,
    Logged.value_pure, value_fixpoint_of_some step', fixpoint_of_none done', Logged.value_pure,
    value']

/-- There a load at 3 is the last instruction before bytes. -/
theorem terminal_before_data_iff_interrupted :
    ¬ ∀ b ∈ (classify .usual .usual interrupted 0 11
        (codeBlocks .usual interrupted [0, 2, 8] 11)).value.blocks, b.tag = .code →
      ∀ u ∈ [Tag.bytes, .text, .zero],
        (classify .usual .usual interrupted 0 11
          (codeBlocks .usual interrupted [0, 2, 8] 11)).value.get? b.stop = some u →
            (lastInstruction? .usual interrupted b).any (·.isTerminal) = true := by
  have blocks : codeBlocks .usual interrupted [0, 2, 8] 11 = [⟨0, 1⟩, ⟨2, 3⟩, ⟨8, 11⟩] := by
    decide +kernel
  rw [terminal_before_data_iff (by decide) ⟨by decide, by decide⟩, blocks, promoted_interrupted]
  have opens : (extend .usual interrupted 11 (.ofList [(0, .code), (2, .code), (3, .code),
      (5, .unknown), (7, .unknown), (8, .code), (11, .limit)])).isSome = true := by
    decide +kernel
  intro none
  rw [none] at opens
  cases opens

end MemoryAtlas.Traced
