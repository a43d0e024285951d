import Mathlib.Data.List.SplitBy
import MemoryAtlas.Classify
import MemoryAtlas.Proofs.Marking
import MemoryAtlas.Proofs.TagMap.WellFormed
import MemoryAtlas.Proofs.Z80.Tiling

/-!
# Phases edit the inside of a range

Each phase of classification is a list of edits that follows from the map and the image. On a
well-formed map all of them are inside the range: they set boundaries of blocks, and what they
remove is neither the first boundary nor the end.

## Main results

* `Traced.inside_findTerminal`: the search for the end of a run of code, inside the range.
* `Traced.wellFormed_extend`, `Traced.wellFormed_promote`, `Traced.wellFormed_merge`: one pass of
  each repeated phase keeps a map well-formed.
* `Traced.inside_splitAtTerminals`, `Traced.inside_classifyUnknown`, `inside_markZeroFill`,
  `inside_markText`, `inside_markTextInCode`, `Heuristic.inside_splitLeadingZeros`,
  `Heuristic.inside_mergeData`: the phases that run once.
-/

namespace MemoryAtlas

open Z80 TagMap

variable {s : Settings} {t : RepeatCeilings} {m : Image} {tags : TagMap} {b : Block}
  {start stop lo hi : Nat} {e : Edit} {next : Logged TagMap}

/-! ### Marks -/

/-- A boundary set within a block is inside the range, unless it is an end. -/
theorem inside_assign (h : tags.WellFormed start stop) (hb : b ∈ tags.blocks) {x : Nat} {u : Tag}
    (above : b.start ≤ x) (below : x < b.stop) (tag : u ≠ .limit) :
    (Edit.assign x u).Inside start stop := by
  obtain ⟨lower, -, upper, -⟩ := h.of_mem_blocks hb
  exact ⟨Nat.le_trans lower above, Nat.lt_of_lt_of_le below upper, tag⟩

theorem inside_markText (h : tags.WellFormed start stop) (hb : b ∈ tags.blocks)
    (mem : e ∈ markText s m b.span) : e.Inside start stop := by
  obtain ⟨x, u, rfl, above, below, rfl | rfl⟩ := mem_markText mem
  all_goals exact inside_assign h hb above below (by decide)

theorem inside_markTextInCode (h : tags.WellFormed start stop) (hb : b ∈ tags.blocks)
    (mem : e ∈ markTextInCode s m b.span) : e.Inside start stop := by
  obtain ⟨x, u, rfl, above, below, rfl | rfl | rfl⟩ := mem_markTextInCode mem
  all_goals exact inside_assign h hb above below (by decide)

theorem inside_markZeroFill (h : tags.WellFormed start stop) (mem : e ∈ markZeroFill m tags) :
    e.Inside start stop := by
  obtain ⟨b, hb, -, rfl⟩ := mem_markZeroFill mem
  exact inside_assign h hb (Nat.le_refl _) (start_lt_stop_of_mem_blocks hb) (by decide)

namespace Traced

/-! ### Runs of code -/

theorem mem_runBoundary {run : List Instruction} {tag : Option Tag}
    (h : e ∈ runBoundary tags run stop tag) :
    ∃ last u, run.getLast? = some last ∧ tag = some u ∧ last.stop < stop ∧
      e = .assign last.stop u := by
  unfold runBoundary at h
  split at h
  · next last u found =>
    split at h
    · next enters =>
      simp only [Bool.and_eq_true, decide_eq_true_eq] at enters
      exact ⟨last, u, found, rfl, enters.1.2, List.mem_singleton.1 h⟩
    · cases h
  · cases h

theorem mem_absorbed {run : List Instruction} {k : Nat} {u : Tag}
    (h : (k, u) ∈ absorbed tags run) :
    tags.get? k = some u ∧ ∃ i ∈ run, i.address < k ∧ k < i.stop := by
  obtain ⟨i, hi, h⟩ := List.mem_flatMap.1 h
  obtain ⟨mem, strict⟩ := List.mem_filter.1 h
  rw [Bool.and_eq_true, decide_eq_true_eq, decide_eq_true_eq] at strict
  exact ⟨SortedMap.get?_eq_some_iff.2 mem, i, hi, strict⟩

/-- The search for the end of a run of code inside a range edits the inside of the range. -/
theorem inside_findTerminal (h : tags.WellFormed start stop) (lower : start ≤ lo)
    (upper : hi ≤ stop) {tag : Option Tag} (block : tag ≠ some .limit)
    (mem : e ∈ (findTerminal t m tags lo hi tag).edits) : e.Inside start stop := by
  have bounds : ∀ i ∈ codeRun t m tags lo hi, lo ≤ i.address ∧ i.address < i.stop ∧ i.stop ≤ hi :=
    fun i hi => bounds_of_mem_instructionsUntil _ t m hi
  -- The boundary at the end of the run is the same matter with a given tag and with a found one.
  have entered : ∀ {tag : Option Tag}, tag ≠ some .limit →
      e ∈ runBoundary tags (codeRun t m tags lo hi) hi tag → e.Inside start stop := by
    intro tag block mem
    obtain ⟨last, u, found, rfl, lt, rfl⟩ := mem_runBoundary mem
    have := bounds last (List.mem_of_getLast? found)
    exact ⟨by omega, by omega, fun limit => block (by rw [limit])⟩
  cases tag with
  | some u => exact entered block mem
  | none =>
    -- The boundaries absorbed lie inside instructions, so below the end, and lend their tags.
    have strict : ∀ k u, (k, u) ∈ absorbed tags (codeRun t m tags lo hi) →
        start < k ∧ k < stop ∧ u ≠ .limit := by
      intro k u mem
      obtain ⟨key, i, hi, above, below⟩ := mem_absorbed mem
      have := bounds i hi
      refine ⟨by omega, by omega, ?_⟩
      rintro rfl
      have := h.eq_stop key
      omega
    rcases List.mem_append.1 mem with mem | mem
    · obtain ⟨⟨k, u⟩, inside, rfl⟩ := List.mem_map.1 mem
      exact ⟨(strict k u inside).1, (strict k u inside).2.1⟩
    · refine entered ?_ mem
      intro limit
      obtain ⟨⟨k, u⟩, head, rfl⟩ := Option.map_eq_some_iff.1 limit
      exact (strict k .limit (List.mem_of_head? head)).2.2 rfl

/-! ### Repeated phases -/

theorem isOpen_iff :
    isOpen t m tags b = true ↔ b.tag = .code ∧ tags.get? b.stop = some .unknown ∧
      (lastInstruction? t m b).any (·.isTerminal) = false := by
  rw [isOpen, Bool.and_eq_true, Bool.and_eq_true, beq_iff_eq, beq_iff_eq, and_assoc,
    Bool.not_eq_true']

/-- Removing the boundary after a block, if it does not end the range, keeps a map well-formed. -/
theorem wellFormed_erase_stop (h : tags.WellFormed start stop) (hb : b ∈ tags.blocks) {u : Tag}
    (key : tags.get? b.stop = some u) (block : u ≠ .limit) :
    TagMap.WellFormed (tags.erase b.stop) start stop := by
  obtain ⟨lower, lt, -, -⟩ := h.of_mem_blocks hb
  have inside : (Edit.clear b.stop).Inside start stop :=
    ⟨Nat.lt_of_le_of_lt lower lt, h.lt_stop key block⟩
  have erased : (tags.edit [.clear b.stop]).WellFormed start stop := h.edit (by simpa using inside)
  exact erased

theorem wellFormed_extend (h : tags.WellFormed start stop)
    (step : extend t m stop tags = some next) : next.value.WellFormed start stop := by
  obtain ⟨b, found, rfl⟩ := Option.map_eq_some_iff.1 step
  have hb := List.mem_of_find?_eq_some found
  obtain ⟨-, key, -⟩ := isOpen_iff.1 (List.find?_some found)
  obtain ⟨lower, lt, -, -⟩ := h.of_mem_blocks hb
  have erased := wellFormed_erase_stop h hb key (by decide)
  exact erased.edit fun e mem =>
    inside_findTerminal erased (by omega) (Nat.le_refl stop) (by decide) mem

theorem wellFormed_promote (h : tags.WellFormed start stop)
    (step : promote t m stop tags = some next) : next.value.WellFormed start stop := by
  obtain ⟨found, entry, rfl⟩ := Option.map_eq_some_iff.1 step
  obtain ⟨b, hb, -, above, below⟩ := mem_block_of_entryPoint? entry
  obtain ⟨lower, -, upper, -⟩ := h.of_mem_blocks hb
  have inside : (Edit.assign found.1 .code).Inside start stop :=
    ⟨by omega, by omega, by decide⟩
  have inserted : (tags.edit [.assign found.1 .code]).WellFormed start stop :=
    h.edit (by simpa using inside)
  exact inserted.edit fun e mem =>
    inside_findTerminal inserted (by omega) (Nat.le_refl stop) (by decide) mem

/-- A merge removes the boundary between two blocks of code, the first of which ends in a jump to
the second. -/
theorem exists_of_merge (step : merge t m tags = some next) :
    ∃ b ∈ tags.blocks, ∃ c ∈ tags.blocks, b.stop = c.start ∧ b.tag = .code ∧ c.tag = .code ∧
      (∃ i, lastInstruction? t m b = some i ∧ i.jumpTarget? = some c.start) ∧
        next.value = tags.erase c.start := by
  obtain ⟨pair, found, rfl⟩ := Option.map_eq_some_iff.1 step
  obtain ⟨hb, hc, shared⟩ := neighbours_of_mem_zip (List.mem_of_find?_eq_some found)
  have jumps := List.find?_some found
  simp only [jumpsOn, Bool.and_eq_true, beq_iff_eq, Option.bind_eq_some_iff] at jumps
  refine ⟨pair.1, hb, pair.2, hc, shared, jumps.1.1, jumps.1.2, jumps.2, ?_⟩
  rw [value_perform, edit_cons, edit_nil, apply]

theorem wellFormed_merge (h : tags.WellFormed start stop)
    (step : merge t m tags = some next) : next.value.WellFormed start stop := by
  obtain ⟨b, hb, c, hc, shared, -, -, -, erased⟩ := exists_of_merge step
  have key := get?_start_of_mem_blocks hc
  rw [← shared] at key
  rw [erased, ← shared]
  exact wellFormed_erase_stop h hb key (h.of_mem_blocks hc).2.2.2

/-! ### Phases that run once -/

/-- Code is split after instructions of its blocks. -/
theorem mem_splitAtTerminals (mem : e ∈ splitAtTerminals t m tags) :
    ∃ b ∈ tags.blocks, b.tag = .code ∧ ∃ i ∈ instructions t m b.start b.stop,
      b.start < i.stop ∧ i.stop < b.stop ∧ e = .assign i.stop .code := by
  obtain ⟨b, hb, mem⟩ := List.mem_flatMap.1 mem
  obtain ⟨a, stops, rfl⟩ := List.mem_map.1 mem
  obtain ⟨i, terminal, rfl⟩ := List.mem_map.1 stops
  obtain ⟨walked, ends⟩ := List.mem_filter.1 terminal
  obtain ⟨hb, code⟩ := List.mem_filter.1 hb
  rw [Bool.and_eq_true, decide_eq_true_eq] at ends
  have := bounds_of_mem_instructionsUntil _ t m walked
  exact ⟨b, hb, beq_iff_eq.1 code, i, walked, by omega, ends.2, rfl⟩

theorem inside_splitAtTerminals (h : tags.WellFormed start stop)
    (mem : e ∈ splitAtTerminals t m tags) : e.Inside start stop := by
  obtain ⟨b, hb, -, i, -, above, below, rfl⟩ := mem_splitAtTerminals mem
  exact inside_assign h hb (Nat.le_of_lt above) below (by decide)

/-- Unclassified blocks get boundaries of bytes and text. -/
theorem mem_classifyUnknown (mem : e ∈ classifyUnknown s m tags) :
    ∃ b ∈ tags.blocks, b.tag = .unknown ∧ ∃ x u, e = .assign x u ∧ b.start ≤ x ∧ x < b.stop ∧
      (u = .text ∨ u = .bytes) := by
  obtain ⟨b, hb, mem⟩ := List.mem_flatMap.1 mem
  obtain ⟨hb, unknown⟩ := List.mem_filter.1 hb
  refine ⟨b, hb, beq_iff_eq.1 unknown, ?_⟩
  rcases List.mem_cons.1 mem with rfl | mem
  · exact ⟨b.start, .bytes, rfl, Nat.le_refl _, start_lt_stop_of_mem_blocks hb, .inr rfl⟩
  · exact mem_markText mem

theorem inside_classifyUnknown (h : tags.WellFormed start stop)
    (mem : e ∈ classifyUnknown s m tags) : e.Inside start stop := by
  obtain ⟨b, hb, -, x, u, rfl, above, below, rfl | rfl⟩ := mem_classifyUnknown mem
  all_goals exact inside_assign h hb above below (by decide)

end Traced

namespace Heuristic

/-- Blocks get boundaries of zeros at their starts, and of code where the zeros end. -/
theorem mem_splitLeadingZeros (mem : e ∈ splitLeadingZeros m tags) :
    ∃ b ∈ tags.blocks, ∃ x u, e = .assign x u ∧ b.start ≤ x ∧ x < b.stop ∧
      (u = .zero ∨ u = .code) := by
  obtain ⟨b, hb, mem⟩ := List.mem_flatMap.1 mem
  have hb := List.mem_of_mem_filter hb
  refine ⟨b, hb, ?_⟩
  rw [splitBlock] at mem
  split at mem
  · cases mem
  · rcases List.mem_cons.1 mem with rfl | mem
    · exact ⟨b.start, .zero, rfl, Nat.le_refl _, start_lt_stop_of_mem_blocks hb, .inl rfl⟩
    · split at mem
      · next below => exact ⟨_, .code, List.mem_singleton.1 mem, by omega, below, .inr rfl⟩
      · cases mem

theorem inside_splitLeadingZeros (h : tags.WellFormed start stop)
    (mem : e ∈ splitLeadingZeros m tags) : e.Inside start stop := by
  obtain ⟨b, hb, x, u, rfl, above, below, rfl | rfl⟩ := mem_splitLeadingZeros mem
  all_goals exact inside_assign h hb above below (by decide)

/-- In a run of neighbours that are all data with the one before, what follows the first is data. -/
theorem isData_of_isChain {first e : Nat × Tag} {rest : List (Nat × Tag)}
    (chain : (first :: rest).IsChain fun x y => (x.2.isData && y.2.isData) = true)
    (mem : e ∈ rest) : e.2.isData = true := by
  induction rest generalizing first with
  | nil => cases mem
  | cons second rest ih =>
    rw [List.isChain_cons_cons, Bool.and_eq_true] at chain
    rcases List.mem_cons.1 mem with rfl | mem
    · exact chain.1.2
    · exact ih chain.2 mem

theorem flatten_dataRuns (l : List (Nat × Tag)) : (dataRuns l).flatten = l :=
  List.flatten_splitBy _ _

/-- A boundary of data is removed, and one before it is set to bytes. -/
theorem mem_mergeData (mem : e ∈ mergeData tags) :
    ∃ x y u v, tags.get? x = some u ∧ tags.get? y = some v ∧ x < y ∧ v.isData = true ∧
      (e = .assign x .bytes ∨ e = .clear y) := by
  obtain ⟨run, hrun, mem⟩ := List.mem_flatMap.1 mem
  cases run with
  | nil => cases mem
  | cons first rest =>
    obtain ⟨joined, hjoined, mem⟩ := List.mem_flatMap.1 mem
    -- A run of boundaries is a part of the map, so it is sorted.
    have sub : List.Sublist (first :: rest) tags.entries := by
      rw [← flatten_dataRuns tags.entries]
      exact List.sublist_flatten_of_mem hrun
    have key := SortedMap.get?_eq_some_iff.2 (sub.subset List.mem_cons_self)
    have key' := SortedMap.get?_eq_some_iff.2 (sub.subset (List.mem_cons_of_mem _ hjoined))
    have lt := (List.pairwise_cons.1 (tags.ascending.sublist sub)).1 joined hjoined
    have data := isData_of_isChain (List.isChain_of_mem_splitBy hrun) hjoined
    simp only [List.mem_cons, List.not_mem_nil, or_false] at mem
    exact ⟨_, _, _, _, key, key', lt, data, mem⟩

theorem inside_mergeData (h : tags.WellFormed start stop) (mem : e ∈ mergeData tags) :
    e.Inside start stop := by
  obtain ⟨x, y, u, v, key, key', lt, data, eq⟩ := mem_mergeData mem
  -- Only data is joined, and the end is no data.
  have below := h.lt_stop key' (by rintro rfl; cases data)
  have above := (h.bounds key).1
  rcases eq with rfl | rfl
  · exact ⟨above, by omega, by decide⟩
  · exact ⟨by omega, below⟩

end Heuristic

end MemoryAtlas
