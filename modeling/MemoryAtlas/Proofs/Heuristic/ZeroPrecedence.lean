import MemoryAtlas.Proofs.Heuristic.Stages

/-!
# Zeros before bytes

Zeros are meant to be told from other bytes, and data to be in one piece: no block of bytes holds
zeros only, and no two neighbours are data. The joined map is so. Its bytes are not all zeros, since
a block of zeros is followed by another byte than zero or by the end of the code it was split off:
the sweep would not cut between two zeros, which are instructions of one class.

Text is marked after data is joined, and what it leaves of a block is not looked at again. So the
result is in order unless text leaves zeros, or leaves bytes at the start of code that data stands
before.

## Main definitions

* `Heuristic.ZeroPrecedence`: the rule.
* `Heuristic.LeavesZeros`, `Heuristic.EndsInData`, `Heuristic.OpensWithBytes`: how text breaks it.

## Main results

* `Heuristic.isZeroFill_joined`: bytes of the joined map are not all zeros.
* `Heuristic.zeroPrecedence_iff`: when the result keeps the rule, and what is next to a place where
  it does not.
-/

namespace MemoryAtlas

namespace Z80

variable {t : RepeatCeilings} {m : Image} {a b limit : Nat} {i j : Instruction}
  {l : List Instruction}

/-- Of two instructions that tile a range, one that starts before the other ends does not end
after it. -/
theorem Tiles.stop_le_stop (h : Tiles a l b) (hi : i ∈ l) (hj : j ∈ l) (lt : i.address < j.stop) :
    i.stop ≤ j.stop := by
  induction l generalizing a with
  | nil => cases hi
  | cons k rest ih =>
    obtain ⟨-, -, h⟩ := h
    rcases List.mem_cons.1 hi with rfl | later
    · rcases List.mem_cons.1 hj with rfl | later
      · exact Nat.le_refl _
      · have := h.bounds later
        omega
    · rcases List.mem_cons.1 hj with rfl | later'
      · have := h.bounds later
        omega
      · exact ih h later later'

/-- A zero is an instruction of its own, which goes on. -/
theorem decode_of_zero (t : RepeatCeilings) (zero : m.read a = 0) (lt : a < limit)
    (le : limit ≤ addressSpace) :
    (decode t m a limit).classId = (Opcode.plain 0).classId ∧
      (decode t m a limit).isTerminal = false := by
  have fetched : Opcode.fetch m a = Opcode.plain 0 := by
    rw [Opcode.fetch, zero]
    rfl
  have size : (Opcode.plain 0).size = 1 := by decide
  rw [decode_of_le (by rw [fetched, size]; omega), fetched]
  exact ⟨rfl, rfl⟩

end Z80

namespace Heuristic

open Z80 TagMap

variable {s : Settings} {t : RepeatCeilings} {m : Image} {start stop a x : Nat} {b c : Block}
  {spans : List Span}

/-! ### Data before text is marked -/

/-- Between two cuts of a sweep there are whole instructions, so zeros up to a cut are not followed
by another zero: both would be instructions of one class, and neither is terminal. -/
theorem read_ne_zero_of_cutPoint (le : stop ≤ addressSpace) (first : CutPoint t m start stop a)
    (cut : CutPoint t m start stop x) (above : start ≤ a) (lt : a < x) (below : x < stop)
    (zeros : ∀ y, a ≤ y → y < x → m.read y = 0) : m.read x ≠ 0 := by
  intro zero
  have tiles : Tiles start (instructions t m start stop) stop := tiles_instructions t m (by omega)
  obtain ⟨i, hi, ends, changes⟩ : ∃ i ∈ instructions t m start stop, i.stop = x ∧
      (i.isTerminal = true ∨ i.classId ≠ (decode t m x stop).classId) := by
    rcases cut with same | ⟨i, hi, terminal, ends⟩ | ⟨i, hi, ends, differ⟩
    · omega
    · exact ⟨i, hi, ends, .inl terminal⟩
    · exact ⟨i, hi, ends, .inr differ⟩
  have bounds := tiles.bounds hi
  -- The instruction before the cut starts at the zeros or after.
  have whole : a ≤ i.address := by
    rcases first with rfl | ⟨j, hj, -, rfl⟩ | ⟨j, hj, rfl, -⟩
    · exact bounds.1
    · by_contra before
      have := tiles.stop_le_stop hi hj (by omega)
      omega
    · by_contra before
      have := tiles.stop_le_stop hi hj (by omega)
      omega
  obtain ⟨classBefore, goesOn⟩ := decode_of_zero t (zeros i.address whole (by omega))
    (by omega : i.address < stop) le
  obtain ⟨classAfter, -⟩ := decode_of_zero t zero below le
  rw [← eq_decode_of_mem_instructions t m hi] at classBefore goesOn
  rcases changes with terminal | differ
  · rw [goesOn] at terminal
    cases terminal
  · exact differ (classBefore.trans classAfter.symm)

theorem wellFormed_zeroed (lt : start < stop) :
    (zeroed t m start stop).WellFormed start stop := by
  have first : (trimmed t m start stop).WellFormed start stop :=
    (wellFormed_sweep lt).edit fun _ mem => inside_splitLeadingZeros (wellFormed_sweep lt) mem
  exact first.edit fun _ mem => inside_markZeroFill first mem

theorem wellFormed_joined (lt : start < stop) :
    (joined t m start stop).WellFormed start stop :=
  (wellFormed_zeroed lt).edit fun _ mem => inside_mergeData (wellFormed_zeroed lt) mem

/-- Bytes of the joined map are not all zeros. -/
theorem isZeroFill_joined (lt : start < stop) (le : stop ≤ addressSpace)
    (hb : b ∈ (joined t m start stop).blocks) (tag : b.tag = .bytes) :
    m.isZeroFill b.start b.stop = false := by
  rcases mem_blocks_joined hb with old | ⟨-, c, hc, d, hd, first, next, last, data, data'⟩
  · have warranted := warranted_zeroed lt old
    rwa [Warranted, tag] at warranted
  · rw [Bool.eq_false_iff]
    intro fill
    have zeros := Image.isZeroFill_iff.1 fill
    have ltC := start_lt_stop_of_mem_blocks hc
    have boundsD := (wellFormed_zeroed lt).of_mem_blocks hd
    -- Data that holds zeros only was swept up to its start, and is tagged as zeros.
    have swept_of_zeros : ∀ e ∈ (zeroed t m start stop).blocks, e.tag.isData = true →
        b.start ≤ e.start → e.stop ≤ b.stop → ((swept t m start stop).get? e.start).isSome := by
      intro e he data above below
      have warranted := warranted_zeroed lt he
      rw [Warranted] at warranted
      split at warranted
      · exact warranted.2
      · have fill : m.isZeroFill e.start e.stop = true :=
          Image.isZeroFill_iff.2 fun a lower upper => zeros a (by omega) (by omega)
        rw [fill] at warranted
        cases warranted
      · next code =>
        rw [code] at data
        cases data
      · exact warranted.elim
    have cutC := cutPoint_swept lt (swept_of_zeros c hc data (by omega) (by omega)) (by omega)
    have cutD := cutPoint_swept lt (swept_of_zeros d hd data' (by omega) last) (by omega)
    have lower := ((wellFormed_zeroed lt).of_mem_blocks hc).1
    exact read_ne_zero_of_cutPoint le cutC cutD lower (by omega) (by omega)
      (fun a above below => zeros a (by omega) (by omega)) (zeros d.start (by omega) (by omega))

/-! ### What text leaves -/

/-- No block of bytes holds zeros only, and no two neighbours are data. -/
def ZeroPrecedence (m : Image) (tags : TagMap) : Prop :=
  (∀ b ∈ tags.blocks, b.tag = .bytes → m.isZeroFill b.start b.stop = false) ∧
    ∀ b ∈ tags.blocks, ∀ c ∈ tags.blocks, b.stop = c.start →
      ¬ (b.tag.isData = true ∧ c.tag.isData = true)

/-- The text of a block leaves bytes that are zeros only. -/
def LeavesZeros (s : Settings) (m : Image) (b : Block) : Prop :=
  textsOf s m b ≠ [] ∧ ∃ r, Gap b.span (textsOf s m b) r ∧
    leftTag b (textsOf s m b) r.start = .bytes ∧ m.isZeroFill r.start r.stop = true

/-- A block of data does not end with a text. -/
def EndsInData (s : Settings) (m : Image) (b : Block) : Prop :=
  b.tag.isData = true ∧ ∀ span ∈ textsOf s m b, span.stop ≠ b.stop

/-- A block of code with text in it does not start with a text. -/
def OpensWithBytes (s : Settings) (m : Image) (b : Block) : Prop :=
  b.tag = .code ∧ textsOf s m b ≠ [] ∧ ∀ span ∈ textsOf s m b, span.start ≠ b.start

theorem isData_leftTag (data : (leftTag b spans x).isData = true) :
    b.tag.isData = true ∨ b.tag = .code ∧ ∃ span ∈ spans, x < span.stop := by
  rw [leftTag] at data
  split at data
  · next code => exact .inr code
  · exact .inl data

/-- Data of the result is what text leaves of a block of the joined map. -/
theorem exists_gap_of_isData (hb : b ∈ (classify s t m start stop).value.blocks)
    (data : b.tag.isData = true) :
    ∃ c ∈ (joined t m start stop).blocks, c.start ≤ b.start ∧ b.stop ≤ c.stop ∧
      Gap c.span (textsOf s m c) b.span ∧ b.tag = leftTag c (textsOf s m c) b.start := by
  obtain ⟨c, hc, ⟨tag, -⟩ | ⟨gap, left⟩⟩ :=
    (refines_classify s t m start stop).mem_blocks_iff_marked.1 hb
  · rw [tag] at data
    cases data
  · exact ⟨c, hc, (gap.bounds separated_textsOf).1, (gap.bounds separated_textsOf).2, gap, left⟩

/-- Data that does not end with a text is data up to its end. -/
theorem exists_isData_of_endsInData (lt : start < stop) (hb : b ∈ (joined t m start stop).blocks)
    (ends : EndsInData s m b) :
    ∃ e ∈ (classify s t m start stop).value.blocks, e.stop = b.stop ∧ e.tag.isData = true := by
  have bounds := (wellFormed_joined lt).of_mem_blocks hb
  obtain ⟨e, he, lower, upper⟩ := (wellFormed_classify (s := s) lt).exists_mem_blocks
    (a := b.stop - 1) (by omega) (by omega)
  obtain ⟨-, le, parts⟩ := (refines_classify s t m start stop).parts_of_mem hb he (by omega)
    (by omega) lower upper
  have stops : e.stop = b.stop := by omega
  refine ⟨e, he, stops, ?_⟩
  rcases parts with ⟨-, mem⟩ | ⟨-, left⟩
  · exact absurd stops (ends.2 _ mem)
  · rw [left, leftTag, if_neg]
    · exact ends.1
    · rintro ⟨code, -⟩
      have data := ends.1
      rw [code] at data
      cases data

/-- Code with text in it that does not start with a text starts with bytes. -/
theorem exists_isData_of_opensWithBytes (lt : start < stop)
    (hb : b ∈ (joined t m start stop).blocks) (opens : OpensWithBytes s m b) :
    ∃ e ∈ (classify s t m start stop).value.blocks, e.start = b.start ∧ e.tag.isData = true := by
  have bounds := (wellFormed_joined lt).of_mem_blocks hb
  obtain ⟨code, some, apart⟩ := opens
  obtain ⟨e, he, lower, upper⟩ := (wellFormed_classify (s := s) lt).exists_mem_blocks
    (a := b.start) (by omega) (by omega)
  obtain ⟨ge, -, parts⟩ := (refines_classify s t m start stop).parts_of_mem hb he (Nat.le_refl _)
    bounds.2.1 lower upper
  have starts : e.start = b.start := by omega
  refine ⟨e, he, starts, ?_⟩
  rcases parts with ⟨-, mem⟩ | ⟨-, left⟩
  · exact absurd starts (apart _ mem)
  · -- Every text ends after the start of the block, so what is left there is bytes.
    obtain ⟨span, mem⟩ := List.exists_mem_of_ne_nil _ some
    have within := within_textsOf mem
    rw [left, leftTag, if_pos ⟨code, span, mem, by omega⟩]
    rfl

/-- Neighbours that texts leave are at the ends of their blocks, as between two gaps of one block
there is a text. -/
theorem ends_of_gaps {tags : TagMap} {d e : Block} (hd : d ∈ tags.blocks) (he : e ∈ tags.blocks)
    (gap : Gap d.span (textsOf s m d) b.span) (gap' : Gap e.span (textsOf s m e) c.span)
    (next : b.stop = c.start) : b.stop = d.stop ∧ c.start = e.start := by
  have lt : b.start < b.stop := gap.nonempty
  have lt' : c.start < c.stop := gap'.nonempty
  have bounds : d.start ≤ b.start ∧ b.stop ≤ d.stop := gap.bounds separated_textsOf
  have bounds' : e.start ≤ c.start ∧ c.stop ≤ e.stop := gap'.bounds separated_textsOf
  refine ⟨?_, ?_⟩
  · rcases gap.last with eq | ⟨span, mem, eq⟩
    · exact eq
    · have eq : span.start = b.stop := eq
      have := within_textsOf mem
      obtain rfl := eq_of_mem_of_mem (a := c.start) hd he (by omega) (by omega) (by omega)
        (by omega)
      have : span.stop ≤ c.start ∨ c.stop ≤ span.start := gap'.apart span mem
      omega
  · rcases gap'.first with eq | ⟨span, mem, eq⟩
    · exact eq
    · have eq : span.stop = c.start := eq
      have := within_textsOf mem
      obtain rfl := eq_of_mem_of_mem (a := b.stop - 1) hd he (by omega) (by omega) (by omega)
        (by omega)
      have : span.stop ≤ b.start ∨ b.stop ≤ span.start := gap.apart span mem
      omega

/-- Two neighbours of the result that are data were data and code, and the text of the code leaves
bytes at its start, up to a text. -/
theorem of_isData_of_isData (hb : b ∈ (classify s t m start stop).value.blocks)
    (hc : c ∈ (classify s t m start stop).value.blocks) (next : b.stop = c.start)
    (data : b.tag.isData = true) (data' : c.tag.isData = true) :
    ∃ d ∈ (joined t m start stop).blocks, ∃ e ∈ (joined t m start stop).blocks,
      d.stop = e.start ∧ EndsInData s m d ∧ OpensWithBytes s m e ∧ c.tag = .bytes ∧
        ∃ span ∈ textsOf s m e, span.start = c.stop := by
  have ltB := start_lt_stop_of_mem_blocks hb
  have ltC := start_lt_stop_of_mem_blocks hc
  obtain ⟨d, hd, lowerD, upperD, gapD, leftD⟩ := exists_gap_of_isData hb data
  obtain ⟨e, he, lowerE, upperE, gapE, leftE⟩ := exists_gap_of_isData hc data'
  have apartD : ∀ span ∈ textsOf s m d, span.stop ≤ b.start ∨ b.stop ≤ span.start := gapD.apart
  have apartE : ∀ span ∈ textsOf s m e, span.stop ≤ c.start ∨ c.stop ≤ span.start := gapE.apart
  obtain ⟨stops, starts⟩ := ends_of_gaps hd he gapD gapE next
  -- The first block is data to its end, the second is not: data is joined.
  have dataD : d.tag.isData = true := by
    rw [leftD] at data
    rcases isData_leftTag data with data | ⟨-, span, mem, after⟩
    · exact data
    · have := apartD span mem
      have := within_textsOf mem
      omega
  have plain := joined_apart hd he (by omega) dataD
  rw [leftE] at data'
  obtain ⟨code, span, mem, after⟩ :
      e.tag = .code ∧ ∃ span ∈ textsOf s m e, c.start < span.stop := by
    rcases isData_leftTag data' with data | code
    · rw [plain] at data
      cases data
    · exact code
  refine ⟨d, hd, e, he, by omega, ⟨dataD, ?_⟩, ⟨code, List.ne_nil_of_mem mem, ?_⟩, ?_, ?_⟩
  · intro span mem eq
    have := apartD span mem
    have := within_textsOf mem
    omega
  · intro span mem eq
    have := apartE span mem
    have := within_textsOf mem
    omega
  · rw [leftE, leftTag, if_pos ⟨code, span, mem, after⟩]
  · rcases gapE.last with eq | found
    · have eq : c.stop = e.stop := eq
      have := apartE span mem
      have := within_textsOf mem
      omega
    · exact found

theorem mem_blocks_of_mem_textsOf (hb : b ∈ (joined t m start stop).blocks) {span : Span}
    (mem : span ∈ textsOf s m b) :
    ⟨span.start, span.stop, .text⟩ ∈ (classify s t m start stop).value.blocks :=
  (refines_classify s t m start stop).mem_blocks_iff_marked.2 ⟨b, hb, .inl ⟨rfl, mem⟩⟩

/-- Bytes of the result that are zeros only are left by text, and next to a text. -/
theorem of_bytes_of_isZeroFill (lt : start < stop) (le : stop ≤ addressSpace)
    (hb : b ∈ (classify s t m start stop).value.blocks) (tag : b.tag = .bytes)
    (fill : m.isZeroFill b.start b.stop = true) :
    ∃ c ∈ (joined t m start stop).blocks, LeavesZeros s m c ∧
      ∃ span ∈ textsOf s m c, span.stop = b.start ∨ b.stop = span.start := by
  obtain ⟨c, hc, -, -, gap, left⟩ := exists_gap_of_isData hb (by rw [tag]; rfl)
  have first : b.start = c.start ∨ ∃ span ∈ textsOf s m c, span.stop = b.start := gap.first
  have last : b.stop = c.stop ∨ ∃ span ∈ textsOf s m c, span.start = b.stop := gap.last
  -- Were it the whole block, that would be bytes of the joined map.
  have some : ∃ span ∈ textsOf s m c, span.stop = b.start ∨ b.stop = span.start := by
    by_contra none
    have starts := first.resolve_right fun ⟨span, mem, eq⟩ => none ⟨span, mem, .inl eq⟩
    have stops := last.resolve_right fun ⟨span, mem, eq⟩ => none ⟨span, mem, .inr eq.symm⟩
    have bytes : c.tag = .bytes := by
      rw [leftTag] at left
      split at left
      · next after =>
        obtain ⟨-, span, mem, after⟩ := after
        have := gap.apart span mem
        have := within_textsOf mem
        dsimp only [Block.span] at *
        omega
      · rw [← left, tag]
    have := isZeroFill_joined lt le hc bytes
    rw [← starts, ← stops, fill] at this
    cases this
  obtain ⟨span, mem, beside⟩ := some
  exact ⟨c, hc, ⟨List.ne_nil_of_mem mem, b.span, gap, left.symm.trans tag, fill⟩, span, mem, beside⟩

/-- The result keeps zeros before bytes just if text leaves no zeros, and no bytes at the start of
code that data stands before. So bytes that are zeros only are next to a text, and of two neighbours
that are data the second is bytes that go up to a text. -/
theorem zeroPrecedence_iff (s : Settings) (t : RepeatCeilings) (m : Image) (lt : start < stop)
    (le : stop ≤ addressSpace) :
    (ZeroPrecedence m (classify s t m start stop).value ↔
      (∀ b ∈ (joined t m start stop).blocks, ¬ LeavesZeros s m b) ∧
        ∀ b ∈ (joined t m start stop).blocks, ∀ c ∈ (joined t m start stop).blocks,
          b.stop = c.start → EndsInData s m b → ¬ OpensWithBytes s m c) ∧
    (∀ b ∈ (classify s t m start stop).value.blocks, b.tag = .bytes →
      m.isZeroFill b.start b.stop = true →
        ∃ c ∈ (classify s t m start stop).value.blocks, c.tag = .text ∧
          (c.stop = b.start ∨ b.stop = c.start)) ∧
    ∀ b ∈ (classify s t m start stop).value.blocks,
      ∀ c ∈ (classify s t m start stop).value.blocks, b.stop = c.start → b.tag.isData = true →
        c.tag.isData = true → c.tag = .bytes ∧
          ∃ d ∈ (classify s t m start stop).value.blocks, d.tag = .text ∧ c.stop = d.start := by
  refine ⟨⟨?_, ?_⟩, ?_, ?_⟩
  · rintro ⟨bytes, apart⟩
    refine ⟨?_, ?_⟩
    · rintro b hb ⟨-, r, gap, left, fill⟩
      have mem : ⟨r.start, r.stop, .bytes⟩ ∈ (classify s t m start stop).value.blocks :=
        (refines_classify s t m start stop).mem_blocks_iff_marked.2
          ⟨b, hb, .inr ⟨gap, left.symm⟩⟩
      have := bytes _ mem rfl
      rw [fill] at this
      cases this
    · intro b hb c hc next ends opens
      obtain ⟨d, hd, stops, data⟩ := exists_isData_of_endsInData lt hb ends
      obtain ⟨e, he, starts, data'⟩ := exists_isData_of_opensWithBytes lt hc opens
      exact apart d hd e he (by omega) ⟨data, data'⟩
  · rintro ⟨leaves, apart⟩
    refine ⟨?_, ?_⟩
    · intro b hb tag
      rw [Bool.eq_false_iff]
      intro fill
      obtain ⟨c, hc, left, -⟩ := of_bytes_of_isZeroFill lt le hb tag fill
      exact leaves c hc left
    · rintro b hb c hc next ⟨data, data'⟩
      obtain ⟨d, hd, e, he, meet, ends, opens, -⟩ := of_isData_of_isData hb hc next data data'
      exact apart d hd e he meet ends opens
  · intro b hb tag fill
    obtain ⟨c, hc, -, span, mem, beside⟩ := of_bytes_of_isZeroFill lt le hb tag fill
    exact ⟨_, mem_blocks_of_mem_textsOf hc mem, rfl, beside⟩
  · intro b hb c hc next data data'
    obtain ⟨d, -, e, he, -, -, -, bytes, span, mem, eq⟩ := of_isData_of_isData hb hc next data data'
    exact ⟨bytes, _, mem_blocks_of_mem_textsOf he mem, rfl, eq.symm⟩

/-- A text and zeros after it. -/
def zerosAfterText : Image := ⟨0, #[0x48, 0x45, 0x4C, 0x4C, 0x4F, 0x00, 0x00], by decide⟩

/-- A zero, and code that holds a text after its first byte. -/
def zeroBeforeCode : Image :=
  ⟨0, #[0x00, 0x01, 0x41, 0x42, 0x43, 0x44, 0x45, 0x46, 0x47, 0x48, 0x49, 0x50, 0x51, 0x52, 0xC9],
    by decide⟩

/-- Zeros after a text stay bytes, and a zero before bytes that text leaves of code is not joined to
them. -/
theorem zeroPrecedence_iff_broken :
    ¬ ZeroPrecedence zerosAfterText (classify .usual .usual zerosAfterText 0 7).value ∧
      ¬ ZeroPrecedence zeroBeforeCode (classify .usual .usual zeroBeforeCode 0 15).value := by
  refine ⟨?_, ?_⟩
  · intro order
    obtain ⟨leaves, -⟩ := (zeroPrecedence_iff .usual .usual zerosAfterText (by decide)
      (by decide)).1.1 order
    have texts : textsOf .usual zerosAfterText ⟨0, 7, .bytes⟩ = [⟨0, 5⟩] := by decide +kernel
    refine leaves ⟨0, 7, .bytes⟩ (by decide +kernel) ⟨?_, ⟨5, 7⟩, ?_⟩
    · rw [texts]
      decide
    · rw [texts]
      exact ⟨⟨by decide, .inr ⟨_, List.mem_cons_self, rfl⟩, .inl rfl, by decide⟩, by decide,
        by decide +kernel⟩
  · intro order
    obtain ⟨-, apart⟩ := (zeroPrecedence_iff .usual .usual zeroBeforeCode (by decide)
      (by decide)).1.1 order
    have texts : textsOf .usual zeroBeforeCode ⟨1, 15, .code⟩ = [⟨2, 14⟩] := by decide +kernel
    refine apart ⟨0, 1, .zero⟩ (by decide +kernel) ⟨1, 15, .code⟩ (by decide +kernel) rfl
      ⟨rfl, by decide⟩ ⟨rfl, ?_, ?_⟩
    · rw [texts]
      decide
    · rw [texts]
      decide

end Heuristic

end MemoryAtlas
