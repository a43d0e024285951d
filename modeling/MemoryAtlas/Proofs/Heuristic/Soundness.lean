import MemoryAtlas.Proofs.Heuristic.Stages

/-!
# Tags without a trace are sound

Every block of the result is what its tag says. Zeros are zeros, a scan of text finds just that
text, and code is swept code without text in it that reaches to the end of a terminal instruction.
All of this is known of the map before text is marked, or is how text is found; marking keeps it, as
code that is left behind a text reaches to the end of the block it was in.

## Main results

* `Heuristic.read_eq_zero_of_zero`, `Heuristic.findText_of_text`, `Heuristic.endsTerminal_of_code`,
  `Heuristic.tagAt?_swept_of_code`, `Heuristic.findText_of_code`: what the tags say.
* `Heuristic.classify_tags_sound`: all of it.
-/

namespace MemoryAtlas

variable {b : Block} {spans : List Span} {x : Nat} {u : Tag}

/-- What is left of a block and is not bytes has the tag of the block, and if it is code then no
text comes after. -/
theorem of_leftTag (left : u = leftTag b spans x) (plain : u ≠ .bytes) :
    b.tag = u ∧ (u = .code → ∀ span ∈ spans, span.stop ≤ x) := by
  rw [leftTag] at left
  split at left
  · exact absurd left plain
  · next h =>
    subst left
    refine ⟨rfl, ?_⟩
    intro code span mem
    exact Nat.le_of_not_lt fun lt => h ⟨code, span, mem, lt⟩

namespace Heuristic

open Z80 TagMap

variable {s : Settings} {t : RepeatCeilings} {m : Image} {start stop : Nat}

/-- A block that is neither text nor bytes is what text leaves of a block of the joined map. -/
theorem exists_gap (hb : b ∈ (classify s t m start stop).value.blocks) (text : b.tag ≠ .text)
    (plain : b.tag ≠ .bytes) :
    ∃ c ∈ (joined t m start stop).blocks, Gap c.span (textsOf s m c) b.span ∧ c.tag = b.tag ∧
      (b.tag = .code → ∀ span ∈ textsOf s m c, span.stop ≤ b.start) := by
  obtain ⟨c, hc, ⟨tag, -⟩ | ⟨gap, left⟩⟩ :=
    (refines_classify s t m start stop).mem_blocks_iff_marked.1 hb
  · exact absurd tag text
  · exact ⟨c, hc, gap, of_leftTag left plain⟩

/-- Zeros are zeros. -/
theorem read_eq_zero_of_zero (lt : start < stop) (hb : b ∈ (classify s t m start stop).value.blocks)
    (tag : b.tag = .zero) {a : Nat} (above : b.start ≤ a) (below : a < b.stop) : m.read a = 0 := by
  obtain ⟨c, hc, gap, same, -⟩ := exists_gap hb (by simp [tag]) (by simp [tag])
  have warranted := warranted_joined lt hc (by simp [same, tag])
  rw [Warranted, same, tag] at warranted
  obtain ⟨lower, upper⟩ := gap.bounds separated_textsOf
  exact Image.isZeroFill_iff.1 warranted.1 a (Nat.le_trans lower above)
    (Nat.lt_of_lt_of_le below upper)

/-- A scan of text finds just that text. -/
theorem findText_of_text (lt : start < stop) (hb : b ∈ (classify s t m start stop).value.blocks)
    (tag : b.tag = .text) : ∃ context, findText s m context b.start b.stop = [b.span] := by
  obtain ⟨c, hc, ⟨-, mem⟩ | ⟨-, left⟩⟩ :=
    (refines_classify s t m start stop).mem_blocks_iff_marked.1 hb
  · rw [textsOf] at mem
    split at mem
    · exact ⟨.data, findText_of_mem mem⟩
    · exact ⟨.code, findText_of_mem mem⟩
    · cases mem
  · -- Before text is marked there is none.
    have none := tag_joined lt hc
    rw [(of_leftTag left (by simp [tag])).1, tag] at none
    simp at none

/-- What is left of a block of code and is code reaches to the end of that block. -/
theorem exists_code (lt : start < stop) (hb : b ∈ (classify s t m start stop).value.blocks)
    (tag : b.tag = .code) :
    ∃ c ∈ (joined t m start stop).blocks, Gap c.span (textInCode s m c.span) b.span ∧
      ∃ d ∈ (swept t m start stop).blocks, d.tag = .code ∧ d.start ≤ b.start ∧ d.stop = b.stop := by
  obtain ⟨c, hc, gap, same, after⟩ := exists_gap hb (by simp [tag]) (by simp [tag])
  have texts : textsOf s m c = textInCode s m c.span := by rw [textsOf, same, tag]
  have warranted := warranted_joined lt hc (by simp [same, tag])
  rw [Warranted, same, tag] at warranted
  obtain ⟨d, hd, code, above, last⟩ := warranted
  have lower : c.start ≤ b.start := (gap.bounds separated_textsOf).1
  have stops : b.stop = c.stop := by
    rcases gap.last with eq | ⟨span, mem, eq⟩
    · exact eq
    · -- No text starts where the code ends, as all of it ends before the code starts.
      have bounds := within_textsOf mem
      have := after tag span mem
      have := start_lt_stop_of_mem_blocks hb
      have : span.start = b.stop := eq
      omega
  exact ⟨c, hc, texts ▸ gap, d, hd, code, Nat.le_trans above lower, last.trans stops.symm⟩

/-- Code ends with a terminal instruction. -/
theorem endsTerminal_of_code (lt : start < stop)
    (hb : b ∈ (classify s t m start stop).value.blocks) (tag : b.tag = .code) :
    EndsTerminal t m start stop b.stop := by
  obtain ⟨c, -, -, d, hd, code, -, last⟩ := exists_code lt hb tag
  rw [← last]
  exact endsTerminal_swept lt hd code

/-- Code is swept code. -/
theorem tagAt?_swept_of_code (lt : start < stop)
    (hb : b ∈ (classify s t m start stop).value.blocks) (tag : b.tag = .code) {a : Nat}
    (above : b.start ≤ a) (below : a < b.stop) :
    (sweep t m start stop).value.tagAt? a = some .code := by
  obtain ⟨c, -, -, d, hd, code, first, last⟩ := exists_code lt hb tag
  rw [← code]
  exact tagAt?_of_mem_blocks hd (Nat.le_trans first above) (last ▸ below)

/-- There is no text in code. -/
theorem findText_of_code (lt : start < stop) (hb : b ∈ (classify s t m start stop).value.blocks)
    (tag : b.tag = .code) : findText s m .code b.start b.stop = [] := by
  obtain ⟨c, -, gap, -⟩ := exists_code lt hb tag
  exact gap.findText_eq_nil

/-- Every block of the result is what its tag says: zeros are zeros; a scan of a text, as data or as
code, finds just that text; and code ends with a terminal instruction of the range, is code of the
sweep all through, and holds no text. -/
theorem classify_tags_sound (s : Settings) (t : RepeatCeilings) (m : Image) (lt : start < stop) :
    (∀ b ∈ (classify s t m start stop).value.blocks, b.tag = .zero →
      ∀ a, b.start ≤ a → a < b.stop → m.read a = 0) ∧
    (∀ b ∈ (classify s t m start stop).value.blocks, b.tag = .text →
      findText s m .data b.start b.stop = [⟨b.start, b.stop⟩] ∨
        findText s m .code b.start b.stop = [⟨b.start, b.stop⟩]) ∧
    (∀ b ∈ (classify s t m start stop).value.blocks, b.tag = .code →
      (∃ i ∈ instructions t m start stop, i.isTerminal = true ∧ i.stop = b.stop) ∧
      (∀ a, b.start ≤ a → a < b.stop → (sweep t m start stop).value.tagAt? a = some .code) ∧
      findText s m .code b.start b.stop = []) := by
  refine ⟨?_, ?_, ?_⟩
  · intro b hb tag a above below
    exact read_eq_zero_of_zero lt hb tag above below
  · intro b hb tag
    obtain ⟨context, found⟩ := findText_of_text lt hb tag
    cases context with
    | data => exact .inl found
    | code => exact .inr found
  · intro b hb tag
    refine ⟨endsTerminal_of_code lt hb tag, ?_, findText_of_code lt hb tag⟩
    intro a above below
    exact tagAt?_swept_of_code lt hb tag above below

/-- Zeros before a routine, a text that runs into the next routine, and a text among bytes. -/
def interleaved : Image :=
  ⟨0, #[0x00, 0x00, 0x3E, 0x07, 0xC9, 0x48, 0x45, 0x4C, 0x4C, 0x4F, 0x57, 0x4F, 0x52, 0x4C, 0x44,
    0x48, 0x45, 0x4C, 0x4C, 0x4F, 0x3E, 0x01, 0xC9, 0xFF, 0x48, 0x45, 0x4C, 0x4C, 0x4F, 0x01],
    by decide⟩

/-- The text takes the first byte of a load with it, and what is left of the routine is still
code. -/
theorem classify_tags_sound_interleaved :
    (classify .usual .usual interleaved 0 30).value.blocks =
        [⟨0, 2, .zero⟩, ⟨2, 5, .code⟩, ⟨5, 21, .text⟩, ⟨21, 23, .code⟩, ⟨23, 24, .bytes⟩,
          ⟨24, 29, .text⟩, ⟨29, 30, .bytes⟩] ∧
      interleaved.read 1 = 0 ∧
      (findText .usual interleaved .data 24 29 = [⟨24, 29⟩] ∨
        findText .usual interleaved .code 24 29 = [⟨24, 29⟩]) ∧
      (∃ i ∈ instructions .usual interleaved 0 30, i.isTerminal = true ∧ i.stop = 23) ∧
      (sweep .usual interleaved 0 30).value.tagAt? 21 = some .code ∧
      findText .usual interleaved .code 21 23 = [] := by
  have blocks : (classify .usual .usual interleaved 0 30).value.blocks =
      [⟨0, 2, .zero⟩, ⟨2, 5, .code⟩, ⟨5, 21, .text⟩, ⟨21, 23, .code⟩, ⟨23, 24, .bytes⟩,
        ⟨24, 29, .text⟩, ⟨29, 30, .bytes⟩] := by decide +kernel
  obtain ⟨zeros, texts, codes⟩ :=
    classify_tags_sound .usual .usual interleaved (show 0 < 30 by decide)
  rw [blocks] at zeros texts codes
  obtain ⟨ends, swept, plain⟩ := codes ⟨21, 23, .code⟩ (by decide) rfl
  exact ⟨blocks, zeros ⟨0, 2, .zero⟩ (by decide) rfl 1 (by decide) (by decide),
    texts ⟨24, 29, .text⟩ (by decide) rfl, ends, swept 21 (by decide) (by decide), plain⟩

end Heuristic

end MemoryAtlas
