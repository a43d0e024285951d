import MemoryAtlas.Proofs.Listing
import MemoryAtlas.Proofs.MarkedBlocks
import MemoryAtlas.Proofs.Traced.Stages

/-!
# Data with a trace is what its tag says

Unclassified blocks are resolved by a scan for text: the spans it finds are text, and what they
leave is bytes. A scan of such a piece by itself, with other ends, finds the same: all of a text and
nothing in what is left. Bytes that turn out to be zeros only are then marked as zeros, so that
every block of bytes that remains holds something else.

## Main results

* `Traced.mem_blocks_classifyUnknown`: the blocks of a map with its unclassified blocks resolved.
* `Traced.mem_blocks_resolved`: data is text that a scan finds, or bytes between such texts.
* `Traced.classify_data_exact`: text, bytes and zeros of the result are what their tags say.
-/

namespace MemoryAtlas.Traced

open Z80 TagMap

variable {s : Settings} {t : RepeatCeilings} {m : Image} {tags : TagMap} {b c : Block}
  {start stop : Nat} {blocks : List Span}

/-- A block is resolved by boundaries inside of it. -/
theorem sets_resolution (hb : b ∈ tags.blocks) :
    b.Sets (.assign b.start .bytes :: markText s m b.span) := by
  intro e mem
  rcases List.mem_cons.1 mem with rfl | mem
  · exact ⟨b.start, .bytes, rfl, Nat.le_refl _, start_lt_stop_of_mem_blocks hb⟩
  · obtain ⟨x, u, rfl, above, below, -⟩ := mem_markText mem
    exact ⟨x, u, rfl, above, below⟩

/-- The blocks of a map with its unclassified blocks resolved: those that were classified before,
and of each unclassified block its texts, and what they leave as bytes. -/
theorem mem_blocks_classifyUnknown (hc : c ∈ (tags.edit (classifyUnknown s m tags)).blocks) :
    c ∈ tags.blocks ∧ c.tag ≠ .unknown ∨ ∃ b ∈ tags.blocks, b.tag = .unknown ∧
      (c.tag = .text ∧ c.span ∈ textInData s m b.span ∨
        Gap b.span (textInData s m b.span) c.span ∧ c.tag = .bytes) := by
  have refines : Refines
      (fun b => if b.tag = .unknown then .assign b.start .bytes :: markText s m b.span else [])
      tags (tags.edit (classifyUnknown s m tags)) :=
    refines_edit_blocksTagged fun _ hb _ => sets_resolution hb
  obtain ⟨b, hb, above, below, inside⟩ := refines.mem_blocks_iff.1 hc
  split at inside
  · next unknown =>
    -- The block counts as bytes before its text is marked.
    have separated : Separated b.span (textInData s m b.span) := separated_findText
    have marked := markedIn_textBoundaries (mem_blocks_insert_start hb .bytes) rfl separated
    exact .inr ⟨b, hb, unknown, (marked.mem_blocks_iff separated above below).1 inside⟩
  · next known =>
    have lt := start_lt_stop_of_mem_blocks hc
    obtain rfl : c = b :=
      eq_of_mem_of_mem (a := c.start) inside hb (Nat.le_refl _) lt above (by omega)
    exact .inl ⟨hb, known⟩

/-- Before zeros are marked, data is text that a scan finds in some range, or bytes between the
texts of one. -/
theorem mem_blocks_resolved (hb : b ∈ (resolved s t m start stop blocks).blocks) :
    b.tag = .code ∨ b.tag = .limit ∨ ∃ range : Span,
      b.tag = .text ∧ b.span ∈ textInData s m range ∨
        Gap range (textInData s m range) b.span ∧ b.tag = .bytes := by
  rcases mem_blocks_classifyUnknown hb with ⟨old, known⟩ | ⟨c, -, -, data⟩
  -- What was classified before is code, as there is no other tag until then.
  · rcases unresolved_merged _ _ (get?_start_of_mem_blocks old) with code | unknown | limit
    · exact .inl code
    · exact absurd unknown known
    · exact .inr (.inl limit)
  · exact .inr (.inr ⟨c.span, data⟩)

theorem findText_of_text_resolved (hb : b ∈ (resolved s t m start stop blocks).blocks)
    (text : b.tag = .text) : findText s m .data b.start b.stop = [b.span] := by
  rcases mem_blocks_resolved hb with code | limit | ⟨range, ⟨-, mem⟩ | ⟨-, bytes⟩⟩
  · simp [text] at code
  · simp [text] at limit
  · exact findText_of_mem mem
  · simp [text] at bytes

theorem findText_of_bytes_resolved (hb : b ∈ (resolved s t m start stop blocks).blocks)
    (bytes : b.tag = .bytes) : findText s m .data b.start b.stop = [] := by
  rcases mem_blocks_resolved hb with code | limit | ⟨range, ⟨text, -⟩ | ⟨gap, -⟩⟩
  · simp [bytes] at code
  · simp [bytes] at limit
  · simp [bytes] at text
  · exact gap.findText_eq_nil

/-- Until zeros are marked no block is one of zeros. -/
theorem tag_ne_zero_resolved (hb : b ∈ (resolved s t m start stop blocks).blocks) :
    b.tag ≠ .zero := by
  rcases mem_blocks_resolved hb with code | limit | ⟨range, ⟨text, -⟩ | ⟨-, bytes⟩⟩
  · simp [code]
  · simp [limit]
  · simp [text]
  · simp [bytes]

/-- Data is what its tag says, whatever has run: a scan of a text as data finds just that text; a
scan of bytes or zeros finds none; zeros are zeros; and bytes are not all zeros. -/
theorem classify_data_exact (s : Settings) (t : RepeatCeilings) (m : Image) (start stop : Nat)
    (blocks : List Span) :
    ∀ b ∈ (classify s t m start stop blocks).value.blocks,
      (b.tag = .text → findText s m .data b.start b.stop = [⟨b.start, b.stop⟩]) ∧
      (b.tag = .bytes ∨ b.tag = .zero → findText s m .data b.start b.stop = []) ∧
      (b.tag = .zero → ∀ a, b.start ≤ a → a < b.stop → m.read a = 0) ∧
      (b.tag = .bytes → ∃ a, b.start ≤ a ∧ a < b.stop ∧ m.read a ≠ 0) := by
  intro c hc
  rw [value_classify] at hc
  obtain ⟨b, hb, starts, stops, marked⟩ := mem_blocks_markZeroFill hc
  rw [← starts, ← stops]
  rcases marked with ⟨zero, bytes, fill⟩ | ⟨same, plain⟩
  · -- A block of zeros was one of bytes.
    refine ⟨fun text => ?_, fun _ => findText_of_bytes_resolved hb bytes,
      fun _ => Image.isZeroFill_iff.1 fill, fun bytes' => ?_⟩
    · simp [zero] at text
    · simp [zero] at bytes'
  · rw [same]
    refine ⟨findText_of_text_resolved hb, ?_, fun zero => absurd zero (tag_ne_zero_resolved hb),
      fun bytes => ?_⟩
    · rintro (bytes | zero)
      · exact findText_of_bytes_resolved hb bytes
      · exact absurd zero (tag_ne_zero_resolved hb)
    · -- Were all of them zeros, they would have been marked.
      by_contra zeros
      have fill : m.isZeroFill b.start b.stop = true := by
        refine Image.isZeroFill_iff.2 fun a above below => ?_
        by_contra ne
        exact zeros ⟨a, above, below, ne⟩
      rw [plain bytes] at fill
      cases fill

/-- A return, a text and zeros, another return and a byte. -/
def assorted : Image :=
  ⟨0, #[0xC9, 0x48, 0x45, 0x4C, 0x4C, 0x4F, 0x00, 0x00, 0xC9, 0xFF], by decide⟩

/-- With the returns executed nothing else is code, and the rest is text, zeros and bytes. -/
theorem blocks_assorted :
    (classify .usual .usual assorted 0 10 [⟨0, 1⟩, ⟨8, 9⟩]).value.blocks =
      [⟨0, 1, .code⟩, ⟨1, 6, .text⟩, ⟨6, 8, .zero⟩, ⟨8, 9, .code⟩, ⟨9, 10, .bytes⟩] := by
  have closed : extend .usual assorted 10 (seeded 0 10 [⟨0, 1⟩, ⟨8, 9⟩]) = none := by
    rw [extend, Option.map_eq_none_iff]
    decide +kernel
  have unreferenced : promote .usual assorted 10 (seeded 0 10 [⟨0, 1⟩, ⟨8, 9⟩]) = none := by
    rw [promote, Option.map_eq_none_iff, entryPoint?_build]
    decide +kernel
  have grown : promoted .usual assorted 0 10 [⟨0, 1⟩, ⟨8, 9⟩] =
      seeded 0 10 [⟨0, 1⟩, ⟨8, 9⟩] := by
    rw [promoted, promoteAll, extended, extendAll, fixpoint_of_none closed, Logged.value_pure,
      fixpoint_of_none unreferenced, Logged.value_pure]
  have apart : merge .usual assorted (divided .usual assorted 0 10 [⟨0, 1⟩, ⟨8, 9⟩]) = none := by
    rw [divided, grown, merge, Option.map_eq_none_iff]
    decide +kernel
  rw [value_classify, resolved, merged, mergeAll, fixpoint_of_none apart, Logged.value_pure,
    divided, grown]
  decide +kernel

/-- A scan of the text finds it, and a scan of the zeros or of the byte finds none. -/
theorem classify_data_exact_assorted :
    findText .usual assorted .data 1 6 = [⟨1, 6⟩] ∧ findText .usual assorted .data 6 8 = [] ∧
      assorted.read 7 = 0 ∧ findText .usual assorted .data 9 10 = [] ∧
      ∃ a, 9 ≤ a ∧ a < 10 ∧ assorted.read a ≠ 0 := by
  have exact := classify_data_exact .usual .usual assorted 0 10 [⟨0, 1⟩, ⟨8, 9⟩]
  rw [blocks_assorted] at exact
  obtain ⟨text, -⟩ := exact ⟨1, 6, .text⟩ (by decide)
  obtain ⟨-, none, zeros, -⟩ := exact ⟨6, 8, .zero⟩ (by decide)
  obtain ⟨-, none', -, byte⟩ := exact ⟨9, 10, .bytes⟩ (by decide)
  exact ⟨text rfl, none (.inr rfl), zeros rfl 7 (by decide) (by decide), none' (.inl rfl),
    byte rfl⟩

end MemoryAtlas.Traced
