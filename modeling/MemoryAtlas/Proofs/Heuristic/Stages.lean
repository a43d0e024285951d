import MemoryAtlas.Proofs.Coverage
import MemoryAtlas.Proofs.Heuristic.Boundaries
import MemoryAtlas.Proofs.Heuristic.Joined
import MemoryAtlas.Proofs.MarkedBlocks

/-!
# The maps between the phases

Classification without a trace goes through a map after each of its phases. Before text is looked
for, every block is code, zeros or bytes, and each of them is what it says: code is a part of swept
code that reaches to its end, zeros are zeros, and bytes are not.

## Main definitions

* `Heuristic.swept`, `Heuristic.trimmed`, `Heuristic.zeroed`, `Heuristic.joined`: the map after each
  phase but those that mark text.
* `Heuristic.Warranted`: a block that is what its tag says.

## Main results

* `Heuristic.refines_classify`: the result is the joined map with its text marked.
* `Heuristic.endsTerminal_swept`: swept code ends with a terminal instruction.
* `Heuristic.warranted_zeroed`: the blocks that are joined are what their tags say.
-/

namespace MemoryAtlas.Heuristic

open Z80 TagMap

variable (s : Settings) (t : RepeatCeilings) (m : Image) (start stop : Nat)

/-- The map of the sweep. -/
def swept : TagMap := (sweep t m start stop).value

/-- The map after leading zeros are split off code. -/
def trimmed : TagMap :=
  (swept t m start stop).edit (splitLeadingZeros m (swept t m start stop))

/-- The map after blocks of zeros are marked. -/
def zeroed : TagMap := (trimmed t m start stop).edit (markZeroFill m (trimmed t m start stop))

/-- The map after data is joined. -/
def joined : TagMap := (zeroed t m start stop).edit (mergeData (zeroed t m start stop))

/-- The result is the joined map with the text of its blocks marked. -/
theorem refines_classify :
    Refines (marksOf s m) (joined t m start stop) (classify s t m start stop).value := by
  simp only [classify, Logged.value_bind, Logged.value_pure, value_perform]
  exact refines_marks s m (joined t m start stop)

variable {s t m start stop} {b c : Block} {tags : TagMap}

/-! ### Swept code -/

/-- What holds of each boundary of a sweep and the next one holds of each block. -/
theorem rel_of_mem_blocks_swept {R : Nat × Tag → Nat × Tag → Prop} (lt : start < stop)
    (chain : ((stop, .limit) :: (sweepProgress t m start stop).boundaries).IsChain R)
    (hb : b ∈ (swept t m start stop).blocks) : ∃ upper, R (b.stop, upper) (b.start, b.tag) := by
  obtain ⟨before, after, upper, entries⟩ := exists_append_of_mem_blocks hb
  -- The boundaries of the sweep, last first, are those of the map from its end down.
  have reversed : (stop, .limit) :: (sweepProgress t m start stop).boundaries =
      after.reverse ++ (b.stop, upper) :: (b.start, b.tag) :: before.reverse := by
    rw [swept, entries_sweep lt] at entries
    simpa using congrArg List.reverse entries
  rw [reversed] at chain
  exact ⟨upper, (List.isChain_cons_cons.1 (List.isChain_append.1 chain).2.1).1⟩

/-- Swept code ends with a terminal instruction. -/
theorem endsTerminal_swept (lt : start < stop) (hb : b ∈ (swept t m start stop).blocks)
    (code : b.tag = .code) : EndsTerminal t m start stop b.stop := by
  obtain ⟨_, -, closed⟩ := rel_of_mem_blocks_swept lt (laid_sweepProgress lt).1 hb
  exact closed code

/-- A boundary of the sweep below its end lies at a cut. -/
theorem cutPoint_swept (lt : start < stop) {x : Nat} (key : ((swept t m start stop).get? x).isSome)
    (below : x < stop) : CutPoint t m start stop x := by
  obtain ⟨u, key⟩ := Option.isSome_iff_exists.1 key
  rcases (get?_sweep_iff lt).1 key with mem | ⟨rfl, -⟩
  · exact (laid_sweepProgress lt).2 _ mem
  · omega

/-! ### Leading zeros -/

theorem read_eq_zero_of_lt_leadingZeros {a : Nat} (above : b.start ≤ a)
    (below : a < b.start + leadingZeros m b) : m.read a = 0 := by
  have initial := List.takeWhile_prefix (fun x : UInt8 => x == 0) (l := m.slice b.start b.stop)
  have bound := initial.length_le
  have lt : a - b.start < ((m.slice b.start b.stop).takeWhile (· == 0)).length := by
    rw [leadingZeros] at below
    omega
  have zero := List.all_takeWhile (l := m.slice b.start b.stop) (p := (· == 0))
  rw [List.all_eq_true] at zero
  have mem := zero _ (List.getElem_mem lt)
  rw [initial.getElem] at mem
  simpa [Image.slice, Nat.add_sub_cancel' above] using mem

theorem sets_splitBlock (hb : b ∈ tags.blocks) : b.Sets (splitBlock m b) := by
  have lt := start_lt_stop_of_mem_blocks hb
  intro e mem
  rw [splitBlock] at mem
  split at mem
  · cases mem
  · rcases List.mem_cons.1 mem with rfl | mem
    · exact ⟨_, _, rfl, Nat.le_refl _, lt⟩
    · split at mem
      · next below =>
        exact ⟨_, _, List.mem_singleton.1 mem, Nat.le_add_right _ _, below⟩
      · cases mem

theorem get?_splitBlock (hb : b ∈ tags.blocks) (zeros : leadingZeros m b ≠ 0) {x : Nat}
    (above : b.start ≤ x) (below : x < b.stop) :
    (tags.edit (splitBlock m b)).get? x =
      if x = b.start then some .zero
      else if x = b.start + leadingZeros m b then some .code else none := by
  have old : x ≠ b.start → tags.get? x = none := fun ne =>
    get?_eq_none_of_mem_blocks hb (by omega) below
  rw [splitBlock, if_neg zeros, edit_cons, apply]
  split
  · -- The code after the zeros starts at another address than they do.
    simp only [edit_cons, edit_nil, apply, SortedMap.get?_insert]
    grind
  · simp only [edit_nil, SortedMap.get?_insert]
    grind

theorem start_add_leadingZeros_le (m : Image) (le : b.start ≤ b.stop) :
    b.start + leadingZeros m b ≤ b.stop := by
  have bound := (List.takeWhile_prefix (fun x : UInt8 => x == 0)
    (l := m.slice b.start b.stop)).length_le
  rw [Image.length_slice] at bound
  rw [leadingZeros]
  omega

/-- A block of code without leading zeros stays, and another one is cut after them. -/
theorem eq_of_mem_blocks_splitBlock (hb : b ∈ tags.blocks)
    (hc : c ∈ (tags.edit (splitBlock m b)).blocks) (above : b.start ≤ c.start)
    (below : c.stop ≤ b.stop) :
    leadingZeros m b = 0 ∧ c = b ∨ leadingZeros m b ≠ 0 ∧
      (c = ⟨b.start, b.start + leadingZeros m b, .zero⟩ ∨
        c = ⟨b.start + leadingZeros m b, b.stop, .code⟩) := by
  have lt := start_lt_stop_of_mem_blocks hc
  have le := start_add_leadingZeros_le m (Nat.le_of_lt (start_lt_stop_of_mem_blocks hb))
  by_cases zeros : leadingZeros m b = 0
  · rw [splitBlock, if_pos zeros] at hc
    exact .inl ⟨zeros,
      eq_of_mem_of_mem (a := c.start) hc hb (Nat.le_refl _) lt above (by omega)⟩
  · obtain ⟨key, -, ⟨u, stop⟩, none⟩ := mem_blocks_iff.1 hc
    rw [get?_splitBlock hb zeros above (by omega)] at key
    refine .inr ⟨zeros, ?_⟩
    obtain ⟨first, last, tag⟩ := c
    dsimp only at key stop none above below lt
    -- The block ends at the next boundary, which is the end of the zeros or of the old block.
    have ends : last = b.stop ∨ last = b.start + leadingZeros m b := by
      by_contra other
      rw [get?_splitBlock hb zeros (by omega) (by omega), if_neg (by omega),
        if_neg (by omega)] at stop
      cases stop
    split at key
    · next same =>
      refine .inl ?_
      have within : last ≤ b.start + leadingZeros m b := by
        by_contra beyond
        have gone := none (b.start + leadingZeros m b) (by omega) (by omega)
        rw [get?_splitBlock hb zeros (by omega) (by omega), if_neg (by omega), if_pos rfl] at gone
        cases gone
      rw [same, ← Option.some.inj key, show last = b.start + leadingZeros m b by omega]
    · split at key
      · next rest =>
        refine .inr ?_
        rw [rest, ← Option.some.inj key, show last = b.stop by omega]
      · cases key

/-- A block of code splits into its leading zeros and the code after them. -/
theorem mem_blocks_splitBlock (hb : b ∈ tags.blocks) (hc : c ∈ (tags.edit (splitBlock m b)).blocks)
    (above : b.start ≤ c.start) (below : c.stop ≤ b.stop) :
    c = b ∨ c.tag = .zero ∧ c.start = b.start ∧ m.isZeroFill c.start c.stop = true ∨
      c.tag = .code ∧ c.stop = b.stop := by
  rcases eq_of_mem_blocks_splitBlock hb hc above below with ⟨-, same⟩ | ⟨-, rfl | rfl⟩
  · exact .inl same
  · refine .inr (.inl ⟨rfl, rfl, Image.isZeroFill_iff.2 fun a lower upper => ?_⟩)
    exact read_eq_zero_of_lt_leadingZeros (b := b) lower upper
  · exact .inr (.inr ⟨rfl, rfl⟩)

theorem refines_trimmed :
    Refines (fun b => if b.tag = .code then splitBlock m b else []) (swept t m start stop)
      (trimmed t m start stop) :=
  refines_edit_blocksTagged fun _ hb _ => sets_splitBlock hb

theorem mem_blocks_trimmed (hc : c ∈ (trimmed t m start stop).blocks) :
    ∃ b ∈ (swept t m start stop).blocks, b.start ≤ c.start ∧
      (c = b ∨ b.tag = .code ∧
        (c.tag = .zero ∧ c.start = b.start ∧ m.isZeroFill c.start c.stop = true ∨
          c.tag = .code ∧ c.stop = b.stop)) := by
  obtain ⟨b, hb, above, below, hc'⟩ := refines_trimmed.mem_blocks_iff.1 hc
  have lt := start_lt_stop_of_mem_blocks hc
  refine ⟨b, hb, above, ?_⟩
  split at hc'
  · next code =>
    exact (mem_blocks_splitBlock hb hc' above below).imp_right fun parts => ⟨code, parts⟩
  · exact .inl (eq_of_mem_of_mem (a := c.start) hc' hb (Nat.le_refl _) lt above (by omega))

/-! ### What tags say -/

/-- The block is what its tag says: zeros from a boundary of the sweep on, bytes that are not all
zero, or code from some address to the end of a block of swept code. -/
def Warranted (m : Image) (swept : TagMap) (b : Block) : Prop :=
  match b.tag with
  | .zero => m.isZeroFill b.start b.stop = true ∧ (swept.get? b.start).isSome
  | .bytes => m.isZeroFill b.start b.stop = false
  | .code => ∃ c ∈ swept.blocks, c.tag = .code ∧ c.start ≤ b.start ∧ c.stop = b.stop
  | _ => False

/-- The blocks that are joined are what their tags say. -/
theorem warranted_zeroed (lt : start < stop) (hc : c ∈ (zeroed t m start stop).blocks) :
    Warranted m (swept t m start stop) c := by
  obtain ⟨b, hb, starts, stops, fill⟩ := mem_blocks_markZeroFill hc
  obtain ⟨d, hd, above, parts⟩ := mem_blocks_trimmed hb
  have key := get?_start_of_mem_blocks hd
  have swept_tag : d.tag = .code ∨ d.tag = .bytes := by
    rcases tag_sweep lt key with tag | tag | tag
    · exact .inl tag
    · exact .inr tag
    · exact absurd tag ((wellFormed_sweep lt).of_mem_blocks hd).2.2.2
  rw [Warranted, ← starts, ← stops]
  rcases fill with ⟨tag, bytes, fill⟩ | ⟨tag, plain⟩
  · -- Zeros are marked in bytes, and bytes are as swept.
    rw [tag]
    rcases parts with rfl | ⟨-, ⟨zero, -⟩ | ⟨code, -⟩⟩
    · exact ⟨fill, by simp [key]⟩
    · rw [bytes] at zero
      cases zero
    · rw [bytes] at code
      cases code
  · rw [tag]
    rcases parts with rfl | ⟨code, ⟨zero, first, fill⟩ | ⟨code', last⟩⟩
    · rcases swept_tag with code | bytes
      · rw [code]
        exact ⟨b, hd, code, above, rfl⟩
      · rw [bytes]
        exact plain bytes
    · rw [zero, first]
      exact ⟨first ▸ fill, by simp [key]⟩
    · rw [code']
      exact ⟨d, hd, code, above, last.symm⟩

/-- The blocks of the joined map have the tags of those that are joined. -/
theorem tag_joined (lt : start < stop) (hb : b ∈ (joined t m start stop).blocks) :
    b.tag = .code ∨ b.tag = .zero ∨ b.tag = .bytes := by
  rcases mem_blocks_joined hb with old | ⟨tag, -⟩
  · have warranted := warranted_zeroed lt old
    rw [Warranted] at warranted
    split at warranted
    · next tag => exact .inr (.inl tag)
    · next tag => exact .inr (.inr tag)
    · next tag => exact .inl tag
    · exact warranted.elim
  · exact .inr (.inr tag)

/-- Zeros and code of the joined map are what their tags say. -/
theorem warranted_joined (lt : start < stop) (hb : b ∈ (joined t m start stop).blocks)
    (plain : b.tag ≠ .bytes) : Warranted m (swept t m start stop) b := by
  rcases mem_blocks_joined hb with old | ⟨tag, -⟩
  · exact warranted_zeroed lt old
  · exact absurd tag plain

end MemoryAtlas.Heuristic
