import Mathlib.Data.List.Find
import MemoryAtlas.Proofs.Listing
import MemoryAtlas.Proofs.Relocation.Marking
import MemoryAtlas.Proofs.Traced.Stages

/-!
# Classification with a trace looks at its range only

Memories that agree on a range are classified alike there, whatever else they hold. Decoding does
look at bytes past its limit, but what it finds there shows in the ceiling of an instruction at
most, and no phase of classification with a trace asks for ceilings.

Each phase edits the map in the same way as long as the map is well-formed, since then all blocks
lie in the range. A phase that is repeated goes through the same maps.

## Main results

* `codeBlocks_congr`: the blocks that have run.
* `Traced.extend_congr`, `Traced.promote_congr`, `Traced.merge_congr`: a pass of each phase that is
  repeated.
* `Traced.classify_congr`: all phases one after another.
* `Traced.classify_codeBlocks_congr`: the classification of a range, from the addresses that have
  run.
-/

namespace MemoryAtlas

open Z80

variable {s : Settings} {t : RepeatCeilings} {m m' : Image} {tags : TagMap} {b next : Block}
  {start stop a : Nat} {executed : List Nat} {blocks : List Span} {run : List Instruction}
  {tag : Option Tag}

theorem view_instructions {α : Type} (view : List Instruction → α)
    (h : m.Relocated m' 0 start stop)
    (blind : ∀ l, view (l.map Instruction.uncapped) = view l) :
    view (instructions t m' start stop) = view (instructions t m start stop) :=
  view_instructionsUntil view h (fun _ => rfl) blind

/-- The blocks that have run depend on the bytes of the range only. -/
theorem codeBlocks_congr (h : m.Relocated m' 0 start stop)
    (addresses : Trace.AddressesOf ⟨start, stop⟩ executed) :
    codeBlocks t m' executed stop = codeBlocks t m executed stop := by
  have decoded : ((executed.filter (· < stop)).map fun a => decode t m' a stop).map
        Instruction.uncapped =
      ((executed.filter (· < stop)).map fun a => decode t m a stop).map Instruction.uncapped := by
    rw [List.map_map, List.map_map]
    refine List.map_congr_left fun a mem => ?_
    obtain ⟨above, below⟩ := addresses.2 a (List.mem_of_mem_filter mem)
    exact (resembles_decode (h.mono above (Nat.le_refl stop)) below).uncapped
  -- Blocks are joined by the addresses and ends of instructions.
  have joined : ∀ l : List Instruction,
      l.foldl joinBlock [] = (l.map Instruction.uncapped).foldl joinBlock [] := by
    intro l
    rw [List.foldl_map]
    rfl
  rw [codeBlocks, codeBlocks, joined, decoded, ← joined]

namespace Traced

/-! ### Code -/

theorem runBoundary_uncapped :
    runBoundary tags (run.map Instruction.uncapped) stop tag = runBoundary tags run stop tag := by
  unfold runBoundary
  rw [List.getLast?_map]
  cases run.getLast? <;> cases tag <;> rfl

theorem edits_findTerminal_congr (h : m.Relocated m' 0 a stop) {u : Tag} :
    (findTerminal t m' tags a stop (some u)).edits =
      (findTerminal t m tags a stop (some u)).edits :=
  view_instructionsUntil (fun run => runBoundary tags run stop (some u)) h (fun _ => rfl)
    fun _ => runBoundary_uncapped

theorem isOpen_congr (h : m.Relocated m' 0 b.start b.stop) :
    isOpen t m' tags b = isOpen t m tags b := by
  have last : (lastInstruction? t m' b).any (·.isTerminal) =
      (lastInstruction? t m b).any (·.isTerminal) :=
    view_instructions (fun l => l.getLast?.any (·.isTerminal)) h fun l => by
      rw [List.getLast?_map, Option.any_map]
      rfl
  rw [isOpen, isOpen, last]

theorem jumpsOn_congr (h : m.Relocated m' 0 b.start b.stop) :
    jumpsOn t m' b next = jumpsOn t m b next := by
  have last : (lastInstruction? t m' b).bind (·.jumpTarget?) =
      (lastInstruction? t m b).bind (·.jumpTarget?) :=
    view_instructions (fun l => l.getLast?.bind (·.jumpTarget?)) h fun l => by
      rw [List.getLast?_map, Option.bind_map]
      rfl
  rw [jumpsOn, jumpsOn, last]

theorem terminalStops_congr (h : m.Relocated m' 0 b.start b.stop) :
    terminalStops t m' b = terminalStops t m b := by
  rw [terminalStops, terminalStops]
  refine view_instructions
    (fun l => (l.filter fun i => i.isTerminal && i.stop < b.stop).map (·.stop)) h fun l => ?_
  rw [List.filter_map, List.map_map]
  rfl

theorem extend_congr (h : m.Relocated m' 0 start stop) (wellFormed : tags.WellFormed start stop) :
    extend t m' stop tags = extend t m stop tags := by
  have first : tags.blocks.find? (isOpen t m' tags) = tags.blocks.find? (isOpen t m tags) :=
    List.find?_congr fun b hb => isOpen_congr (h.block wellFormed hb)
  rw [extend, extend, first]
  refine Option.map_congr fun b found => ?_
  -- The run of code starts at the end of a block and is decoded up to the end of the range.
  obtain ⟨lower, lt, -, -⟩ := wellFormed.of_mem_blocks (List.mem_of_find?_eq_some found)
  rw [extension, extension, edits_findTerminal_congr (h.mono (by omega) (Nat.le_refl stop))]

theorem merge_congr (h : m.Relocated m' 0 start stop) (wellFormed : tags.WellFormed start stop) :
    merge t m' tags = merge t m tags := by
  have first : (tags.blocks.zip tags.blocks.tail).find? (fun pair => jumpsOn t m' pair.1 pair.2) =
      (tags.blocks.zip tags.blocks.tail).find? fun pair => jumpsOn t m pair.1 pair.2 :=
    List.find?_congr fun pair mem => jumpsOn_congr (h.block wellFormed (List.of_mem_zip mem).1)
  rw [merge, merge, first]

theorem splitAtTerminals_congr (h : m.Relocated m' 0 start stop)
    (wellFormed : tags.WellFormed start stop) :
    splitAtTerminals t m' tags = splitAtTerminals t m tags := by
  refine List.flatMap_congr fun b hb => ?_
  rw [terminalStops_congr (h.block wellFormed (List.mem_of_mem_filter hb))]

/-! ### Entry points -/

theorem references_congr (h : ∀ b ∈ tags.blocks, m.Relocated m' 0 b.start b.stop) :
    (Listing.build t m' tags).references = (Listing.build t m tags).references := by
  simp only [Listing.references, Listing.build, List.flatMap_map]
  refine List.flatMap_congr fun b hb => ?_
  refine view_instructions (fun l => ListingEntry.references ⟨b, l⟩) (h b hb) fun l => ?_
  rw [ListingEntry.references, ListingEntry.references, List.filterMap_map]
  rfl

theorem entryPoint?_congr (h : ∀ b ∈ tags.blocks, m.Relocated m' 0 b.start b.stop) :
    entryPoint? (Listing.build t m' tags) = entryPoint? (Listing.build t m tags) := by
  rw [entryPoint?_build, entryPoint?_build, references_congr h]
  generalize (Listing.build t m tags).references = references
  -- What is found first heads the list of all that would be found, and those compare block by block.
  simp only [Listing.build, List.filter_map, ← List.head?_filterMap, List.filterMap_map]
  refine congrArg List.head? (List.filterMap_congr fun b hb => ?_)
  refine view_instructions (fun l => (l.filterMap fun i =>
    (references.find? fun r => r.target == i.address && r.tag == .code).map
      (i.address, ·)).head?) (h b (List.mem_of_mem_filter hb)) fun l => ?_
  rw [List.filterMap_map]
  rfl

theorem promote_congr (h : m.Relocated m' 0 start stop) (wellFormed : tags.WellFormed start stop) :
    promote t m' stop tags = promote t m stop tags := by
  rw [promote, promote, entryPoint?_congr fun _ hb => h.block wellFormed hb]
  refine Option.map_congr fun found entry => ?_
  -- The entry point lies in a block, so its run of code is decoded from the range as well.
  obtain ⟨b, hb, -, above, -⟩ := mem_block_of_entryPoint? entry
  obtain ⟨lower, -, -, -⟩ := wellFormed.of_mem_blocks hb
  rw [promotion, promotion, edits_findTerminal_congr (h.mono (by omega) (Nat.le_refl stop))]

/-! ### Text and zeros -/

theorem textInData_congr (h : m.Relocated m' 0 b.start b.stop) :
    textInData s m' b.span = textInData s m b.span := by
  have texts : textInData s m' b.span = (textInData s m b.span).map (Span.shift 0) :=
    findText_relocated h
  rw [texts]
  exact List.map_id _

theorem textInUnknown_congr (h : m.Relocated m' 0 start stop)
    (wellFormed : tags.WellFormed start stop) : textInUnknown s m' tags = textInUnknown s m tags :=
  List.flatMap_congr fun _ hb =>
    textInData_congr (h.block wellFormed (List.mem_of_mem_filter hb))

theorem classifyUnknown_congr (h : m.Relocated m' 0 start stop)
    (wellFormed : tags.WellFormed start stop) :
    classifyUnknown s m' tags = classifyUnknown s m tags := by
  refine List.flatMap_congr fun b hb => ?_
  rw [markText, markText, textInData_congr (h.block wellFormed (List.mem_of_mem_filter hb))]

theorem zeroFillBlocks_congr (h : m.Relocated m' 0 start stop)
    (wellFormed : tags.WellFormed start stop) : zeroFillBlocks m' tags = zeroFillBlocks m tags :=
  List.filter_congr fun _ hb =>
    isZeroFill_relocated (h.block wellFormed (List.mem_of_mem_filter hb))

/-! ### All phases -/

theorem extendAll_congr (h : m.Relocated m' 0 start stop)
    (wellFormed : tags.WellFormed start stop) :
    extendAll t m' stop tags = extendAll t m stop tags :=
  fixpoint_congr (I := fun tags => tags.WellFormed start stop)
    (fun _ _ step h => wellFormed_extend h step) (fun _ => extend_congr h) wellFormed

theorem promoteAll_congr (h : m.Relocated m' 0 start stop)
    (wellFormed : tags.WellFormed start stop) :
    promoteAll t m' stop tags = promoteAll t m stop tags :=
  fixpoint_congr (I := fun tags => tags.WellFormed start stop)
    (fun _ _ step h => wellFormed_promote h step) (fun _ => promote_congr h) wellFormed

theorem mergeAll_congr (h : m.Relocated m' 0 start stop)
    (wellFormed : tags.WellFormed start stop) : mergeAll t m' tags = mergeAll t m tags :=
  fixpoint_congr (I := fun tags => tags.WellFormed start stop)
    (fun _ _ step h => wellFormed_merge h step) (fun _ => merge_congr h) wellFormed

/-- From the same well-formed map on, the same is done and reported. -/
theorem classify_congr (h : m.Relocated m' 0 start stop)
    (seeded : (seeded start stop blocks).WellFormed start stop) :
    classify s t m' start stop blocks = classify s t m start stop blocks := by
  -- The maps between the phases are those of the first memory, and stay so by each step.
  have extensions := extendAll_congr (t := t) h seeded
  have promotions := promoteAll_congr (t := t) h (wellFormed_extended (t := t) (m := m) seeded)
  have splits := splitAtTerminals_congr (t := t) h (wellFormed_promoted (t := t) (m := m) seeded)
  have merges := mergeAll_congr (t := t) h (wellFormed_divided (t := t) (m := m) seeded)
  have merged := wellFormed_merged (t := t) (m := m) seeded
  have texts := textInUnknown_congr (s := s) h merged
  have resolves := classifyUnknown_congr (s := s) h merged
  have zeros := zeroFillBlocks_congr h (wellFormed_resolved (s := s) (t := t) (m := m) seeded)
  have marks : markZeroFill m' (resolved s t m start stop blocks) =
      markZeroFill m (resolved s t m start stop blocks) := by
    rw [markZeroFill, markZeroFill, zeros]
  -- Phase after phase, with its report behind it.
  unfold classify
  refine Logged.bind_congr rfl (Logged.bind_congr rfl ?_)
  refine Logged.bind_congr extensions (Logged.bind_congr rfl ?_)
  refine Logged.bind_congr promotions (Logged.bind_congr rfl ?_)
  refine Logged.bind_congr (congrArg _ splits) ?_
  refine Logged.bind_congr merges (Logged.bind_congr rfl ?_)
  refine Logged.bind_congr (congrArg _ resolves) (Logged.bind_congr ?_ ?_)
  · exact congrArg (fun l : List Span => Logged.report (.textFound l.length)) texts
  refine Logged.bind_congr (congrArg _ marks) (Logged.bind_congr ?_ rfl)
  exact congrArg (fun l : List Block => Logged.report (.zeroFilled l.length)) zeros

/-- Memories that agree on a range yield the same blocks for the addresses of the range that have
run, and the same map of the range, with the same reports on the way. -/
theorem classify_codeBlocks_congr (s : Settings) (t : RepeatCeilings) (lt : start < stop)
    (le : stop ≤ addressSpace) (same : ∀ a, start ≤ a → a < stop → m'.read a = m.read a)
    (addresses : Trace.AddressesOf ⟨start, stop⟩ executed) :
    codeBlocks t m' executed stop = codeBlocks t m executed stop ∧
      classify s t m' start stop (codeBlocks t m' executed stop) =
        classify s t m start stop (codeBlocks t m executed stop) := by
  have agree : m.Relocated m' 0 start stop := ⟨le, same⟩
  have blocks := codeBlocks_congr (t := t) agree addresses
  refine ⟨blocks, ?_⟩
  rw [blocks]
  exact classify_congr agree (wellFormed_seeded_codeBlocks lt addresses)

/-- A load, a return and an index byte, with another index byte behind them. -/
def indexTwice : Image := ⟨0, #[0x3E, 0x07, 0xC9, 0xDD, 0xDD], by decide⟩

/-- The same, with the rest of an indexed load behind it. -/
def indexLoad : Image := ⟨0, #[0x3E, 0x07, 0xC9, 0xDD, 0x21, 0x34, 0x12], by decide⟩

/-- The index byte at the end of the range has run. It has a ceiling in one memory only. -/
theorem classify_codeBlocks_congr_index :
    (decode (RepeatCeilings.unlimited.set (rawClass + 0xDD) 2) indexTwice 3 4).ceiling = 2 ∧
      (decode (RepeatCeilings.unlimited.set (rawClass + 0xDD) 2) indexLoad 3 4).ceiling = 0 ∧
        codeBlocks (RepeatCeilings.unlimited.set (rawClass + 0xDD) 2) indexLoad [0, 3] 4 =
            [⟨0, 2⟩, ⟨3, 4⟩] ∧
          classify .usual (RepeatCeilings.unlimited.set (rawClass + 0xDD) 2) indexLoad 0 4
              [⟨0, 2⟩, ⟨3, 4⟩] =
            classify .usual (RepeatCeilings.unlimited.set (rawClass + 0xDD) 2) indexTwice 0 4
              [⟨0, 2⟩, ⟨3, 4⟩] := by
  have same : ∀ a, 0 ≤ a → a < 4 → indexLoad.read a = indexTwice.read a := by decide
  have blocks : codeBlocks (RepeatCeilings.unlimited.set (rawClass + 0xDD) 2) indexTwice [0, 3] 4 =
      [⟨0, 2⟩, ⟨3, 4⟩] := by
    decide +kernel
  obtain ⟨sameBlocks, sameMap⟩ := classify_codeBlocks_congr .usual
    (RepeatCeilings.unlimited.set (rawClass + 0xDD) 2) (by decide) (by decide) same
    (show Trace.AddressesOf ⟨0, 4⟩ [0, 3] from ⟨by decide, by decide⟩)
  rw [sameBlocks, blocks] at sameMap
  exact ⟨by decide +kernel, by decide +kernel, sameBlocks.trans blocks, sameMap⟩

end Traced

end MemoryAtlas
