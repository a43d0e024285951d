import MemoryAtlas.Proofs.Traced.RunEnd

/-!
# Splitting refines code

A block of code is split after each of its terminal instructions. The pieces are code as the block
was, and reading them one after the other yields the instructions of the block: each piece ends
where an instruction does, so no instruction is cut short at the end of a piece.

## Main definitions

* `Traced.searches`: searches for the ends of runs of code, one after the other.
* `Traced.Divides`: what splitting does to a map.

## Main results

* `Traced.flatMap_parts_instructions`: a range cut where instructions end is read as a whole.
* `Traced.foldl_searches`: splitting is what searches through the blocks of code do.
* `Traced.splitAtTerminals_divides`: splitting divides a map, and leaves nothing to split.
-/

namespace MemoryAtlas.Traced

open Z80 TagMap

variable {t : RepeatCeilings} {m : Image} {tags before after : TagMap} {b c : Block}
  {start stop a k : Nat} {i : Instruction} {u : Tag} {edits : List Edit}

/-! ### The boundaries that splitting enters -/

theorem mem_terminalStops_iff :
    k ∈ terminalStops t m b ↔ ∃ i ∈ instructions t m b.start b.stop,
      i.isTerminal = true ∧ i.stop = k ∧ k < b.stop := by
  simp only [terminalStops, List.mem_map, List.mem_filter, Bool.and_eq_true, decide_eq_true_eq]
  constructor
  · rintro ⟨i, ⟨mem, terminal, below⟩, rfl⟩
    exact ⟨i, mem, terminal, rfl, below⟩
  · rintro ⟨i, mem, terminal, rfl, below⟩
    exact ⟨i, ⟨mem, terminal, below⟩, rfl⟩

theorem bounds_of_mem_terminalStops (mem : k ∈ terminalStops t m b) : b.start < k ∧ k < b.stop := by
  obtain ⟨i, walked, -, rfl, below⟩ := mem_terminalStops_iff.1 mem
  have := bounds_of_mem_instructionsUntil _ t m walked
  omega

theorem sets_terminalStops : b.Sets ((terminalStops t m b).map fun k => .assign k .code) := by
  intro e mem
  obtain ⟨k, stops, rfl⟩ := List.mem_map.1 mem
  have bounds := bounds_of_mem_terminalStops stops
  exact ⟨k, .code, rfl, Nat.le_of_lt bounds.1, bounds.2⟩

theorem assign_mem_splitAtTerminals_iff :
    .assign k u ∈ splitAtTerminals t m tags ↔
      u = .code ∧ ∃ b ∈ tags.blocksTagged .code, k ∈ terminalStops t m b := by
  simp only [splitAtTerminals, List.mem_flatMap, List.mem_map, Edit.assign.injEq]
  constructor
  · rintro ⟨b, hb, x, stops, rfl, rfl⟩
    exact ⟨rfl, b, hb, stops⟩
  · rintro ⟨rfl, b, hb, stops⟩
    exact ⟨b, hb, k, stops, rfl, rfl⟩

/-- Splitting enters code where terminal instructions end inside of blocks of code. -/
theorem get?_split :
    (tags.edit (splitAtTerminals t m tags)).get? k =
      if ∃ b ∈ tags.blocksTagged .code, k ∈ terminalStops t m b then some .code
      else tags.get? k := by
  have kept : .clear k ∉ splitAtTerminals t m tags := by
    intro mem
    obtain ⟨b, -, -, i, -, -, -, eq⟩ := mem_splitAtTerminals mem
    cases eq
  -- Every edit enters code, so it does not matter which of them comes last.
  by_cases stops : ∃ b ∈ tags.blocksTagged .code, k ∈ terminalStops t m b
  · obtain ⟨u, mem, key⟩ :=
      exists_get?_edit (m := tags) (assign_mem_splitAtTerminals_iff.2 ⟨rfl, stops⟩) kept
    rw [if_pos stops, key, (assign_mem_splitAtTerminals_iff.1 mem).1]
  · rw [if_neg stops, get?_edit_of_forall_ne (fun u mem => ?_) kept]
    exact stops (assign_mem_splitAtTerminals_iff.1 mem).2

/-- There was no boundary where one is entered. -/
theorem get?_eq_none_of_mem_terminalStops (hb : b ∈ tags.blocksTagged .code)
    (stops : k ∈ terminalStops t m b) : tags.get? k = none := by
  have bounds := bounds_of_mem_terminalStops stops
  exact get?_eq_none_of_mem_blocks (List.mem_of_mem_filter hb) bounds.1 bounds.2

/-- Old boundaries stay. -/
theorem get?_split_of_get? (key : tags.get? k = some u) :
    (tags.edit (splitAtTerminals t m tags)).get? k = some u := by
  rw [get?_split, if_neg, key]
  rintro ⟨b, hb, stops⟩
  rw [get?_eq_none_of_mem_terminalStops hb stops] at key
  cases key

/-- Boundaries set to the tags that hold there change no tag. -/
theorem tagAt?_edit_of_tagAt?
    (same : ∀ e ∈ edits, ∃ x u, e = .assign x u ∧ tags.tagAt? x = some u) :
    (tags.edit edits).tagAt? a = tags.tagAt? a := by
  induction edits generalizing tags with
  | nil => rfl
  | cons e edits ih =>
    obtain ⟨x, u, rfl, first⟩ := same e List.mem_cons_self
    rw [edit_cons, apply, ih, tagAt?_insert_of_tagAt? first]
    intro e mem
    obtain ⟨y, v, rfl, later⟩ := same e (List.mem_cons_of_mem _ mem)
    exact ⟨y, v, rfl, by rw [tagAt?_insert_of_tagAt? first, later]⟩

theorem tagAt?_split : (tags.edit (splitAtTerminals t m tags)).tagAt? a = tags.tagAt? a := by
  refine tagAt?_edit_of_tagAt? fun e mem => ?_
  obtain ⟨b, hb, code, i, -, above, below, rfl⟩ := mem_splitAtTerminals mem
  exact ⟨i.stop, .code, rfl, code ▸ tagAt?_of_mem_blocks hb (Nat.le_of_lt above) below⟩

/-! ### The pieces are read as the block -/

/-- Where every boundary inside of a range is the end of an instruction, the instructions of its
blocks, one block after the other, are those of the range. -/
theorem flatMap_parts_instructions (le : start ≤ stop) (first : (tags.get? start).isSome)
    (last : (tags.get? stop).isSome)
    (cuts : ∀ k, start < k → k < stop → (tags.get? k).isSome →
      ∃ i ∈ instructions t m start stop, i.stop = k) :
    (tags.parts start stop).flatMap (fun c => instructions t m c.start c.stop) =
      instructions t m start stop := by
  -- By the number of addresses left: the first block ends at a cut, and the rest goes on there.
  induction n : stop - start using Nat.strongRecOn generalizing start with
  | ind n ih =>
    rcases Nat.eq_or_lt_of_le le with rfl | lt
    · rw [parts_of_le (Nat.le_refl _), instructions_of_le t m (Nat.le_refl _)]
      rfl
    obtain ⟨u, key⟩ := Option.isSome_iff_exists.1 first
    obtain ⟨c, hc, rfl, -, -⟩ := exists_mem_blocks
      (show tags.Governs start start from ⟨Nat.le_refl _, fun j _ _ => by omega⟩) key
      ⟨stop, lt, last⟩
    have below : c.stop ≤ stop := by
      by_contra past
      rw [get?_eq_none_of_mem_blocks hc lt (by omega)] at last
      cases last
    have nonempty := start_lt_stop_of_mem_blocks hc
    obtain ⟨v, key'⟩ := get?_stop_of_mem_blocks hc
    rw [parts_eq_cons hc below, List.flatMap_cons]
    rcases Nat.eq_or_lt_of_le below with same | inside
    · rw [same, parts_of_le (Nat.le_refl _), List.flatMap_nil, List.append_nil]
    · obtain ⟨i, walked, ends⟩ := cuts c.stop nonempty inside (by simp [key'])
      have split := instructions_append_stop walked
      rw [ends] at split
      rw [ih (stop - c.stop) (by omega) below (by simp [key']) ?_ rfl, split]
      -- What ends after the first block is read in the rest.
      intro k above past some
      obtain ⟨j, walked, rfl⟩ := cuts k (by omega) past some
      rw [split, List.mem_append] at walked
      rcases walked with early | late
      · have := bounds_of_mem_instructionsUntil _ t m early
        omega
      · exact ⟨j, late, rfl⟩

/-- Inside of a block there are only the boundaries entered, where its instructions end. -/
theorem exists_stop_of_split (hb : b ∈ tags.blocks) (above : b.start < k) (below : k < b.stop)
    (some : ((tags.edit (splitAtTerminals t m tags)).get? k).isSome) :
    ∃ i ∈ instructions t m b.start b.stop, i.stop = k := by
  rw [get?_split, get?_eq_none_of_mem_blocks hb above below] at some
  split at some
  · next entered =>
    obtain ⟨d, hd, stops⟩ := entered
    have bounds := bounds_of_mem_terminalStops stops
    obtain rfl := eq_of_mem_of_mem hb (List.mem_of_mem_filter hd) (Nat.le_of_lt above) below
      (Nat.le_of_lt bounds.1) bounds.2
    obtain ⟨i, walked, -, ends, -⟩ := mem_terminalStops_iff.1 stops
    exact ⟨i, walked, ends⟩
  · cases some

/-- The pieces of a block, one after the other, have the instructions of the block. -/
theorem instructions_split (hb : b ∈ tags.blocks) :
    (parts (tags.edit (splitAtTerminals t m tags)) b.start b.stop).flatMap
        (fun c => instructions t m c.start c.stop) = instructions t m b.start b.stop := by
  have lt := start_lt_stop_of_mem_blocks hb
  obtain ⟨u, key⟩ := get?_stop_of_mem_blocks hb
  exact flatMap_parts_instructions (Nat.le_of_lt lt)
    (by simp [get?_split_of_get? (get?_start_of_mem_blocks hb)]) (by simp [get?_split_of_get? key])
    fun _ => exists_stop_of_split hb

/-! ### Nothing is left to split -/

/-- A block of code of the split map is a piece of a block of code. -/
theorem exists_block_of_split (hc : c ∈ (tags.edit (splitAtTerminals t m tags)).blocks)
    (code : c.tag = .code) : ∃ b ∈ tags.blocks, b.tag = .code ∧ b.start ≤ c.start ∧
      c.stop ≤ b.stop := by
  have refines : Refines
      (fun b => if b.tag = .code then (terminalStops t m b).map fun k => .assign k .code else [])
      tags (tags.edit (splitAtTerminals t m tags)) :=
    refines_edit_blocksTagged fun _ _ _ => sets_terminalStops
  obtain ⟨b, hb, above, below, -⟩ := refines.mem_blocks_iff.1 hc
  have lt := start_lt_stop_of_mem_blocks hc
  have tag := tagAt?_of_mem_blocks hc (Nat.le_refl _) lt
  rw [tagAt?_split, tagAt?_of_mem_blocks hb above (by omega), code] at tag
  exact ⟨b, hb, Option.some.inj tag, above, below⟩

/-- In a piece no terminal instruction ends before the piece does. -/
theorem isTerminal_eq_false_of_split (hc : c ∈ (tags.edit (splitAtTerminals t m tags)).blocks)
    (code : c.tag = .code) (mem : i ∈ instructions t m c.start c.stop) (lt : i.stop < c.stop) :
    i.isTerminal = false := by
  obtain ⟨b, hb, tag, above, below⟩ := exists_block_of_split hc code
  have walked : i ∈ instructions t m b.start b.stop := by
    rw [← instructions_split hb]
    exact List.mem_flatMap.2 ⟨c, mem_parts_iff.2 ⟨hc, above, below⟩, mem⟩
  by_contra terminal
  -- The block would have been split after it, inside of the piece.
  have stops : i.stop ∈ terminalStops t m b :=
    mem_terminalStops_iff.2 ⟨i, walked, by simpa using terminal, rfl, by omega⟩
  have tagged : b ∈ tags.blocksTagged .code := List.mem_filter.2 ⟨hb, by simp [tag]⟩
  have bounds := bounds_of_mem_instructionsUntil _ t m mem
  have none := get?_eq_none_of_mem_blocks hc (by omega) lt
  rw [get?_split, if_pos ⟨b, tagged, stops⟩] at none
  cases none

theorem splitAtTerminals_split :
    splitAtTerminals t m (tags.edit (splitAtTerminals t m tags)) = [] := by
  refine List.flatMap_eq_nil_iff.2 fun c mem => ?_
  obtain ⟨hc, code⟩ := List.mem_filter.1 mem
  rw [List.map_eq_nil_iff]
  refine List.eq_nil_iff_forall_not_mem.2 fun k stops => ?_
  obtain ⟨i, walked, terminal, rfl, below⟩ := mem_terminalStops_iff.1 stops
  rw [isTerminal_eq_false_of_split hc (beq_iff_eq.1 code) walked below] at terminal
  cases terminal

/-! ### Splitting by searches -/

/-- Searches up to `stop`, each from where the one before it ended, that enter code. -/
def searches (t : RepeatCeilings) (m : Image) (stop : Nat) (tags : TagMap) (a : Nat) : TagMap :=
  if a < stop then
    let found := findTerminal t m tags a stop (some .code)
    searches t m stop (tags.edit found.edits) found.address
  else tags
termination_by stop - a
decreasing_by
  have := lt_address_findTerminal t m tags ‹a < stop› (some .code)
  omega

/-- The instructions that a search passes before its last are not terminal, and the walk goes on
after it. -/
theorem mem_terminalStops_of_codeRun (lt : a < stop)
    (found : (codeRun t m tags a stop).getLast? = some i) :
    k ∈ terminalStops t m ⟨a, stop, .code⟩ ↔
      (k = i.stop ∧ i.isTerminal = true ∧ i.stop < stop) ∨
        k ∈ terminalStops t m ⟨i.stop, stop, .code⟩ := by
  obtain ⟨init, last, run, quiet, -⟩ := codeRun_spec t m tags lt
  obtain rfl : last = i := by
    rw [run, List.getLast?_concat] at found
    exact Option.some.inj found
  have walked : init ++ [last] ++ instructions t m last.stop stop = instructions t m a stop :=
    run ▸ instructionsUntil_append found
  rw [mem_terminalStops_iff, mem_terminalStops_iff]
  simp only [← walked, List.mem_append, List.mem_singleton]
  constructor
  · rintro ⟨i, (mem | rfl) | mem, terminal, rfl, below⟩
    · exact absurd (.inl terminal) (quiet i mem)
    · exact .inl ⟨rfl, terminal, below⟩
    · exact .inr ⟨i, mem, terminal, rfl, below⟩
  · rintro (⟨rfl, terminal, below⟩ | ⟨i, mem, rest⟩)
    · exact ⟨last, .inl (.inr rfl), terminal, rfl, below⟩
    · exact ⟨i, .inr mem, rest⟩

/-- Searches through a range without boundaries enter code where its terminal instructions end. -/
theorem get?_searches (le : a ≤ stop) (free : ∀ k, a < k → k < stop → tags.get? k = none) :
    (searches t m stop tags a).get? k =
      if k ∈ terminalStops t m ⟨a, stop, .code⟩ then some .code else tags.get? k := by
  induction n : stop - a using Nat.strongRecOn generalizing a tags with
  | ind n ih =>
    rcases Nat.eq_or_lt_of_le le with rfl | lt
    · have none : k ∉ terminalStops t m ⟨a, a, .code⟩ := by
        intro mem
        obtain ⟨above, below⟩ := bounds_of_mem_terminalStops mem
        exact absurd (Nat.lt_trans above below) (Nat.lt_irrefl a)
      rw [searches, if_neg (Nat.lt_irrefl a), if_neg none]
    obtain ⟨init, last, run, -, -⟩ := codeRun_spec t m tags lt
    have found : (codeRun t m tags a stop).getLast? = some last := by
      rw [run, List.getLast?_concat]
    have stops := mem_terminalStops_of_codeRun (k := k) lt found
    have bounds := bounds_of_mem_instructionsUntil _ t m (List.mem_of_getLast? found)
    -- The first search enters the end of its last instruction, if that is terminal.
    have changed : ∀ j, (tags.edit (findTerminal t m tags a stop (some .code)).edits).get? j =
        if j = last.stop ∧ last.isTerminal = true ∧ last.stop < stop then some .code
        else tags.get? j := by
      intro j
      rw [get?_edit_findTerminal lt found, Option.some_or]
      by_cases below : last.stop < stop
      · simp [free last.stop (by omega) below]
      · simp [below]
    rw [searches, if_pos lt]
    dsimp only
    rw [address_findTerminal found, ih (stop - last.stop) (by omega) bounds.2.2 ?_ rfl, changed]
    · by_cases later : k ∈ terminalStops t m ⟨last.stop, stop, .code⟩
      · rw [if_pos later, if_pos (stops.2 (.inr later))]
      · simp only [stops, later, or_false, if_false]
    · intro j above below
      rw [changed, if_neg fun due => by omega, free j (by omega) below]

/-- Searches through blocks, one block after the other. -/
theorem get?_foldl_searches {blocks : List Block}
    (apart : blocks.Pairwise fun b c => b.stop ≤ c.start) (bounds : ∀ b ∈ blocks, b.start ≤ b.stop)
    (free : ∀ b ∈ blocks, ∀ k, b.start < k → k < b.stop → tags.get? k = none) :
    (blocks.foldl (fun now b => searches t m b.stop now b.start) tags).get? k =
      if ∃ b ∈ blocks, k ∈ terminalStops t m b then some .code else tags.get? k := by
  induction blocks generalizing tags with
  | nil => simp
  | cons b rest ih =>
    have here : ∀ k, (searches t m b.stop tags b.start).get? k =
        if k ∈ terminalStops t m b then some .code else tags.get? k := fun k =>
      get?_searches (bounds b List.mem_cons_self) (free b List.mem_cons_self)
    obtain ⟨above, apart⟩ := List.pairwise_cons.1 apart
    rw [List.foldl_cons, ih apart (fun c hc => bounds c (List.mem_cons_of_mem _ hc)), here]
    · simp only [List.exists_mem_cons_iff]
      by_cases first : k ∈ terminalStops t m b
      · simp [first]
      · simp [first]
    · -- What is entered in the first block lies below the others.
      intro c hc j lower upper
      have := above c hc
      rw [here, if_neg fun stops => ?_, free c (List.mem_cons_of_mem _ hc) j lower upper]
      have := bounds_of_mem_terminalStops stops
      omega

/-- Splitting is what searches through the blocks of code do, one after the other. -/
theorem foldl_searches (tags : TagMap) :
    (tags.blocksTagged .code).foldl (fun now b => searches t m b.stop now b.start) tags =
      tags.edit (splitAtTerminals t m tags) := by
  refine SortedMap.ext_get? fun k => ?_
  rw [get?_split, get?_foldl_searches]
  · exact (pairwise_blocks tags).filter _
  · exact fun b hb => Nat.le_of_lt (start_lt_stop_of_mem_blocks (List.mem_of_mem_filter hb))
  · exact fun b hb k above below =>
      get?_eq_none_of_mem_blocks (List.mem_of_mem_filter hb) above below

/-! ### What splitting does -/

/-- What splitting does to a map. -/
structure Divides (t : RepeatCeilings) (m : Image) (before after : TagMap) : Prop where
  /-- The tag at every address is the same. -/
  tagAt : ∀ a, after.tagAt? a = before.tagAt? a
  /-- Old boundaries stay, with their tags. -/
  kept : ∀ k u, before.get? k = some u → after.get? k = some u
  /-- New boundaries are code. -/
  entered : ∀ k u, before.get? k = none → after.get? k = some u → u = .code
  /-- In a block of code only the last instruction may be terminal. -/
  closed : ∀ c ∈ after.blocks, c.tag = .code →
    ∀ i ∈ (instructions t m c.start c.stop).dropLast, i.isTerminal = false
  /-- The pieces of a block, one after the other, have the instructions of the block. -/
  read : ∀ b ∈ before.blocks,
    (after.parts b.start b.stop).flatMap (fun c => instructions t m c.start c.stop) =
      instructions t m b.start b.stop

/-- Splitting is a series of searches through each block of code. It divides the map, and splitting
again changes nothing. -/
theorem splitAtTerminals_divides (t : RepeatCeilings) (m : Image) (tags : TagMap) :
    (tags.blocksTagged .code).foldl (fun now b => searches t m b.stop now b.start) tags =
        tags.edit (splitAtTerminals t m tags) ∧
      Divides t m tags (tags.edit (splitAtTerminals t m tags)) ∧
      (tags.edit (splitAtTerminals t m tags)).edit
          (splitAtTerminals t m (tags.edit (splitAtTerminals t m tags))) =
        tags.edit (splitAtTerminals t m tags) := by
  refine ⟨foldl_searches tags, ⟨fun _ => tagAt?_split, fun _ _ => get?_split_of_get?,
    fun k u none key => ?_, fun c hc code i mem => ?_, fun _ => instructions_split⟩, ?_⟩
  · rw [get?_split, none] at key
    split at key
    · exact (Option.some.inj key).symm
    · cases key
  · have lt := start_lt_stop_of_mem_blocks hc
    have tiles := tiles_instructions t m (Nat.le_of_lt lt)
    exact isTerminal_eq_false_of_split hc code ((List.dropLast_sublist _).subset mem)
      (tiles.stop_lt_of_mem_dropLast mem)
  · rw [splitAtTerminals_split, edit_nil]

/-- A return, a jump and the first byte of a load. -/
def ending : Image := ⟨0, #[0x00, 0xC9, 0x18, 0xFE, 0x21], by decide⟩

/-- A block of code with all of them is split twice, and the byte of the load is left over in the
last piece as it was in the block. -/
theorem splitAtTerminals_divides_ending :
    TagMap.edit (.ofList [(0, .code), (5, .limit)])
        (splitAtTerminals .usual ending (.ofList [(0, .code), (5, .limit)])) =
      .ofList [(0, .code), (2, .code), (4, .code), (5, .limit)] ∧
    instructions .usual ending 0 2 ++ (instructions .usual ending 2 4 ++
      instructions .usual ending 4 5) = instructions .usual ending 0 5 := by
  have split : TagMap.edit (.ofList [(0, .code), (5, .limit)])
      (splitAtTerminals .usual ending (.ofList [(0, .code), (5, .limit)])) =
        .ofList [(0, .code), (2, .code), (4, .code), (5, .limit)] := by decide +kernel
  obtain ⟨-, divides, -⟩ :=
    splitAtTerminals_divides .usual ending (.ofList [(0, .code), (5, .limit)])
  rw [split] at divides
  have read := divides.read ⟨0, 5, .code⟩ (by decide)
  rw [show TagMap.parts (.ofList [(0, .code), (2, .code), (4, .code), (5, .limit)]) 0 5 =
    [⟨0, 2, .code⟩, ⟨2, 4, .code⟩, ⟨4, 5, .code⟩] by decide] at read
  exact ⟨split, by simpa using read⟩

end MemoryAtlas.Traced
