import MemoryAtlas.Proofs.TagMap.ByBlock
import MemoryAtlas.Proofs.TextScan

/-!
# Blocks that marks make

Marking text cuts a block at both ends of each span of text. The spans become blocks of text, and
what they leave of the block keeps its tag, except that code before a text becomes bytes. Marking
zeros cuts nothing: blocks of bytes that hold zeros only become blocks of zeros.

## Main definitions

* `TagMap.MarkedIn`: in a range, the map is cut at spans of text, with given tags in between.
* `textsOf`, `marksOf`, `leftTag`: the text of a block, the edits that mark it and the tag of what
  is left.

## Main results

* `TagMap.MarkedIn.mem_blocks_iff`: the blocks of such a range are the spans and the gaps.
* `refines_marks`, `TagMap.Refines.mem_blocks_iff_marked`: the blocks of a map with all its text
  marked.
* `mem_blocks_markZeroFill`: the blocks of a map with its zeros marked.
-/

namespace MemoryAtlas

variable {s : Settings} {m : Image} {old new tags : TagMap} {f : Block → List Edit} {b c : Block}
  {x stop : Nat} {u : Tag} {range span last : Span} {spans : List Span} {left : Nat → Tag}

theorem Separated.stop_le_getLast? (h : Separated range spans) (found : spans.getLast? = some last)
    (mem : span ∈ spans) : span.stop ≤ last.stop := by
  obtain ⟨init, rfl⟩ := List.getLast?_eq_some_iff.1 found
  have bounds := h.within last (by simp)
  rcases List.mem_append.1 mem with mem | mem
  · have := (List.pairwise_append.1 h.pairwise).2.2 span mem last List.mem_cons_self
    omega
  · rw [List.mem_singleton.1 mem]

/-! ### Ranges cut at spans of text -/

namespace TagMap

/-- In the range, the boundaries are its start and the ends of the spans. Text starts where a span
does, and at the other boundaries what `left` says. -/
structure MarkedIn (tags : TagMap) (range : Span) (spans : List Span) (left : Nat → Tag) :
    Prop where
  /-- Text at the start of a span. -/
  text : ∀ span ∈ spans, tags.get? span.start = some .text
  /-- What is left starts with the range or where a span ends. -/
  rest : ∀ x, range.start ≤ x → x < range.stop →
    (x = range.start ∨ ∃ span ∈ spans, span.stop = x) → (∀ span ∈ spans, span.start ≠ x) →
    tags.get? x = some (left x)
  /-- No other boundary in the range. -/
  none : ∀ x, range.start < x → x < range.stop →
    (∀ span ∈ spans, span.start ≠ x ∧ span.stop ≠ x) → tags.get? x = none
  /-- The end of the range is a boundary. -/
  stop : (tags.get? range.stop).isSome

namespace MarkedIn

/-- There is no boundary inside of a span. -/
theorem get?_eq_none_of_inside (h : tags.MarkedIn range spans left)
    (separated : Separated range spans) (mem : span ∈ spans) (above : span.start < x)
    (below : x < span.stop) : tags.get? x = .none := by
  have bounds := separated.within span mem
  refine h.none x (by omega) (by omega) fun other mem' => ?_
  have bounds' := separated.within other mem'
  rcases separated.apart mem mem' with rfl | lt | lt
  · omega
  · omega
  · omega

/-- The end of a span is a boundary. -/
theorem isSome_get?_stop (h : tags.MarkedIn range spans left) (separated : Separated range spans)
    (mem : span ∈ spans) : (tags.get? span.stop).isSome := by
  have bounds := separated.within span mem
  rcases Nat.eq_or_lt_of_le bounds.2.2 with eq | lt
  · rw [eq]
    exact h.stop
  · rw [h.rest span.stop (by omega) lt (.inr ⟨span, mem, rfl⟩) fun other mem' =>
      separated.start_ne_stop mem' mem]
    rfl

/-- A span of text is a block. -/
theorem mem_blocks_of_text (h : tags.MarkedIn range spans left) (separated : Separated range spans)
    (mem : b.span ∈ spans) (tag : b.tag = .text) : b ∈ tags.blocks := by
  refine TagMap.mem_blocks_iff.2 ⟨?_, (separated.within _ mem).2.1, ?_, fun a above below => ?_⟩
  · rw [tag]
    exact h.text _ mem
  · exact Option.isSome_iff_exists.1 (h.isSome_get?_stop separated mem)
  · exact h.get?_eq_none_of_inside separated mem above below

/-- A gap between spans is a block. -/
theorem mem_blocks_of_gap (h : tags.MarkedIn range spans left) (separated : Separated range spans)
    (gap : Gap range spans b.span) (tag : b.tag = left b.start) : b ∈ tags.blocks := by
  obtain ⟨above, below⟩ := gap.bounds separated
  have nonempty : b.start < b.stop := gap.nonempty
  have apart : ∀ span ∈ spans, span.stop ≤ b.start ∨ b.stop ≤ span.start := gap.apart
  dsimp only [Block.span] at above below
  refine TagMap.mem_blocks_iff.2 ⟨?_, nonempty, ?_, fun a lower upper => ?_⟩
  · rw [tag]
    refine h.rest _ above (by omega) gap.first fun span mem same => ?_
    have := separated.within span mem
    have := apart span mem
    omega
  · rcases gap.last with eq | ⟨span, mem, eq⟩
    · have stop := h.stop
      rw [← eq] at stop
      exact Option.isSome_iff_exists.1 stop
    · have start := h.text span mem
      rw [eq] at start
      exact ⟨_, start⟩
  · refine h.none a (by omega) (by omega) fun span mem => ?_
    have := separated.within span mem
    have := apart span mem
    omega

/-- The blocks of the range are the spans, with text, and the gaps, with what is left. -/
theorem mem_blocks_iff (h : tags.MarkedIn range spans left) (separated : Separated range spans)
    (lower : range.start ≤ b.start) (upper : b.stop ≤ range.stop) :
    b ∈ tags.blocks ↔
      (b.tag = .text ∧ b.span ∈ spans) ∨ (Gap range spans b.span ∧ b.tag = left b.start) := by
  constructor
  · intro hb
    obtain ⟨key, lt, ⟨_, stop⟩, none⟩ := TagMap.mem_blocks_iff.1 hb
    -- A boundary lies at or before the start of the block, or at or after its end.
    have beside : ∀ x, (tags.get? x).isSome → x ≤ b.start ∨ b.stop ≤ x := by
      intro x some
      by_contra inside
      rw [none x (by omega) (by omega)] at some
      cases some
    -- The ends of the block are boundaries, so neither lies inside of a span.
    have outside : ∀ span ∈ spans, ∀ x, (tags.get? x).isSome → x ≤ span.start ∨ span.stop ≤ x := by
      intro span mem x some
      by_contra inside
      rw [h.get?_eq_none_of_inside separated mem (by omega) (by omega)] at some
      cases some
    have start_beside : ∀ span ∈ spans, span.start ≤ b.start ∨ b.stop ≤ span.start :=
      fun span mem => beside span.start (by simp [h.text span mem])
    by_cases text : ∃ span ∈ spans, span.start = b.start
    · obtain ⟨span, mem, eq⟩ := text
      have bounds := separated.within span mem
      have same : b.span = span := by
        have := outside span mem b.stop (by simp [stop])
        have := beside span.stop (h.isSome_get?_stop separated mem)
        have stops : b.stop = span.stop := by omega
        rw [Block.span, ← eq, stops]
      refine .inl ⟨?_, same ▸ mem⟩
      have tag := h.text span mem
      rw [eq, key] at tag
      exact Option.some.inj tag
    · have distinct : ∀ span ∈ spans, span.start ≠ b.start := by
        intro span mem eq
        exact text ⟨span, mem, eq⟩
      have first : b.start = range.start ∨ ∃ span ∈ spans, span.stop = b.start := by
        by_contra neither
        rw [not_or] at neither
        rw [h.none b.start (by omega) (by omega) fun span mem =>
          ⟨distinct span mem, fun eq => neither.2 ⟨span, mem, eq⟩⟩] at key
        cases key
      have apart : ∀ span ∈ spans, span.stop ≤ b.start ∨ b.stop ≤ span.start := by
        intro span mem
        have := start_beside span mem
        have := outside span mem b.start (by simp [key])
        have := distinct span mem
        omega
      have last : b.stop = range.stop ∨ ∃ span ∈ spans, span.start = b.stop := by
        by_contra neither
        rw [not_or] at neither
        rw [h.none b.stop (by omega) (by omega) fun span mem =>
          ⟨fun eq => neither.2 ⟨span, mem, eq⟩, fun eq => ?_⟩] at stop
        · cases stop
        · have := apart span mem
          have := separated.within span mem
          omega
      refine .inr ⟨⟨lt, first, last, apart⟩, ?_⟩
      have tag := h.rest b.start lower (by omega) first distinct
      rw [key] at tag
      exact Option.some.inj tag
  · rintro (⟨tag, mem⟩ | ⟨gap, tag⟩)
    · exact h.mem_blocks_of_text separated mem tag
    · exact h.mem_blocks_of_gap separated gap tag

end MarkedIn

end TagMap

/-! ### The edits that mark text -/

theorem assign_mem_textBoundaries :
    .assign x u ∈ textBoundaries stop spans ↔ ∃ span ∈ spans,
      (span.start = x ∧ u = .text) ∨ (span.stop = x ∧ x < stop ∧ u = .bytes) := by
  simp only [textBoundaries, List.mem_flatMap, List.mem_cons]
  refine exists_congr fun span => and_congr_right fun _ => ?_
  constructor
  · rintro (eq | mem)
    · cases eq
      exact .inl ⟨rfl, rfl⟩
    · split at mem
      · next lt =>
        cases List.mem_singleton.1 mem
        exact .inr ⟨rfl, lt, rfl⟩
      · cases mem
  · rintro (⟨rfl, rfl⟩ | ⟨rfl, lt, rfl⟩)
    · exact .inl rfl
    · rw [if_pos lt]
      exact .inr List.mem_cons_self

theorem clear_notMem_textBoundaries : .clear x ∉ textBoundaries stop spans := by
  intro mem
  obtain ⟨span, -, mem⟩ := List.mem_flatMap.1 mem
  split at mem <;> simp at mem

/-- Text set in a block of bytes. -/
theorem markedIn_textBoundaries (hb : b ∈ old.blocks) (tag : b.tag = .bytes)
    (separated : Separated b.span spans) :
    (old.edit (textBoundaries b.stop spans)).MarkedIn b.span spans fun _ => .bytes where
  text span mem := by
    have start : .assign span.start .text ∈ textBoundaries b.stop spans :=
      assign_mem_textBoundaries.2 ⟨span, mem, .inl ⟨rfl, rfl⟩⟩
    obtain ⟨u, set, key⟩ := TagMap.exists_get?_edit (m := old) start clear_notMem_textBoundaries
    -- No span ends where another one starts, so the boundary is set to text only.
    obtain ⟨other, mem', ⟨-, rfl⟩ | ⟨same, -⟩⟩ := assign_mem_textBoundaries.1 set
    · exact key
    · exact absurd same.symm (separated.start_ne_stop mem mem')
  rest x above below first distinct := by
    by_cases ends : ∃ span ∈ spans, span.stop = x
    · obtain ⟨span, mem, rfl⟩ := ends
      obtain ⟨u, set, key⟩ := TagMap.exists_get?_edit (m := old)
        (assign_mem_textBoundaries.2 ⟨span, mem, .inr ⟨rfl, below, rfl⟩⟩)
        clear_notMem_textBoundaries
      obtain ⟨other, mem', ⟨same, -⟩ | ⟨-, -, rfl⟩⟩ := assign_mem_textBoundaries.1 set
      · exact absurd same (distinct other mem')
      · exact key
    · obtain rfl : x = b.start := first.resolve_right ends
      rw [TagMap.get?_edit_of_forall_ne (fun u set => ?_) clear_notMem_textBoundaries, ← tag]
      · exact TagMap.get?_start_of_mem_blocks hb
      · obtain ⟨span, mem, ⟨same, -⟩ | ⟨same, -⟩⟩ := assign_mem_textBoundaries.1 set
        · exact distinct span mem same
        · exact ends ⟨span, mem, same⟩
  none x above below distinct := by
    rw [TagMap.get?_edit_of_forall_ne (fun u set => ?_) clear_notMem_textBoundaries]
    · exact TagMap.get?_eq_none_of_mem_blocks hb above below
    · obtain ⟨span, mem, ⟨same, -⟩ | ⟨same, -⟩⟩ := assign_mem_textBoundaries.1 set
      · exact (distinct span mem).1 same
      · exact (distinct span mem).2 same
  stop := by
    obtain ⟨v, key⟩ := TagMap.get?_stop_of_mem_blocks hb
    exact TagMap.isSome_get?_edit (by simp [Block.span, key]) clear_notMem_textBoundaries

/-- Code opened again after the last text. -/
theorem TagMap.MarkedIn.reopen (h : tags.MarkedIn range spans fun _ => .bytes)
    (separated : Separated range spans) (found : spans.getLast? = some last) :
    (tags.edit (if last.stop < range.stop then [.assign last.stop .code] else [])).MarkedIn range
      spans fun x => if ∃ span ∈ spans, x < span.stop then .bytes else .code := by
  have mem := List.mem_of_getLast? found
  have bounds := separated.within last mem
  have greatest : ∀ span ∈ spans, span.stop ≤ last.stop := fun _ =>
    separated.stop_le_getLast? found
  have elsewhere : ∀ x, x ≠ last.stop →
      (tags.edit (if last.stop < range.stop then [.assign last.stop .code] else [])).get? x =
        tags.get? x := by
    intro x ne
    refine get?_edit_of_forall_ne (fun u set => ?_) fun cleared => ?_
    · split at set
      · simp [ne] at set
      · cases set
    · split at cleared <;> simp at cleared
  refine ⟨fun span mem' => ?_, fun x above below first distinct => ?_,
    fun x above below distinct => ?_, ?_⟩
  · rw [elsewhere _ (separated.start_ne_stop mem' mem)]
    exact h.text span mem'
  · by_cases same : x = last.stop
    · subst same
      rw [if_pos below, if_neg fun ⟨span, mem', lt⟩ => Nat.not_lt.2 (greatest span mem') lt]
      simp [edit, apply]
    · -- What starts elsewhere starts before the end of the last text.
      have lt : x < last.stop := by
        rcases first with rfl | ⟨span, mem', rfl⟩
        · omega
        · exact Nat.lt_of_le_of_ne (greatest span mem') same
      rw [elsewhere x same, h.rest x above below first distinct, if_pos ⟨last, mem, lt⟩]
  · rw [elsewhere x fun same => (distinct last mem).2 same.symm]
    exact h.none x above below distinct
  · refine isSome_get?_edit h.stop fun cleared => ?_
    split at cleared <;> simp at cleared

/-- A block whose start is set to another tag. -/
theorem TagMap.mem_blocks_insert_start (hb : b ∈ old.blocks) (u : Tag) :
    { b with tag := u } ∈ TagMap.blocks (old.insert b.start u) := by
  obtain ⟨-, lt, stop, none⟩ := TagMap.mem_blocks_iff.1 hb
  refine TagMap.mem_blocks_iff.2 ⟨by simp, lt, ?_, fun a above below => ?_⟩
  · simpa [SortedMap.get?_insert, Nat.ne_of_gt lt] using stop
  · rw [SortedMap.get?_insert, if_neg (Nat.ne_of_gt above)]
    exact none a above below

/-! ### The text of a block -/

/-- The text of a block, if text is looked for in it. -/
def textsOf (s : Settings) (m : Image) (b : Block) : List Span :=
  match b.tag with
  | .bytes => textInData s m b.span
  | .code => textInCode s m b.span
  | _ => []

/-- The edits that mark the text of a block. -/
def marksOf (s : Settings) (m : Image) (b : Block) : List Edit :=
  match b.tag with
  | .bytes => markText s m b.span
  | .code => markTextInCode s m b.span
  | _ => []

/-- The tag of what is left of a block from an address on: that of the block, but bytes where text
follows in a block of code. -/
def leftTag (b : Block) (spans : List Span) (x : Nat) : Tag :=
  if b.tag = .code ∧ ∃ span ∈ spans, x < span.stop then .bytes else b.tag

theorem marksOf_eq_nil (none : ∀ a, b.start ≤ a → a < b.stop → s.isTextByte (m.read a) = false) :
    marksOf s m b = [] := by
  have data : textInData s m b.span = [] := findText_eq_nil none
  have code : textInCode s m b.span = [] := findText_eq_nil none
  unfold marksOf
  split
  · rw [markText, data]
    rfl
  · rw [markTextInCode, code]
    rfl
  · rfl

theorem separated_textsOf : Separated b.span (textsOf s m b) := by
  rw [textsOf]
  split
  · exact separated_findText
  · exact separated_findText
  · exact ⟨fun _ mem => absurd mem List.not_mem_nil, .nil⟩

theorem within_textsOf {span : Span} (mem : span ∈ textsOf s m b) :
    b.start ≤ span.start ∧ span.start < span.stop ∧ span.stop ≤ b.stop :=
  separated_textsOf.within span mem

theorem sets_marksOf : b.Sets (marksOf s m b) := by
  intro e mem
  rw [marksOf] at mem
  split at mem
  · obtain ⟨x, u, rfl, above, below, -⟩ := mem_markText mem
    exact ⟨x, u, rfl, above, below⟩
  · obtain ⟨x, u, rfl, above, below, -⟩ := mem_markTextInCode mem
    exact ⟨x, u, rfl, above, below⟩
  · cases mem

/-- A block without text in it. -/
theorem markedIn_of_nil (hb : b ∈ tags.blocks) : tags.MarkedIn b.span [] (leftTag b []) where
  text _ mem := absurd mem List.not_mem_nil
  rest x above below first _ := by
    obtain rfl : x = b.start := first.resolve_right fun ⟨_, mem, _⟩ => absurd mem List.not_mem_nil
    rw [leftTag, if_neg fun ⟨_, _, mem, _⟩ => absurd mem List.not_mem_nil]
    exact TagMap.get?_start_of_mem_blocks hb
  none x above below _ := TagMap.get?_eq_none_of_mem_blocks hb above below
  stop := by
    obtain ⟨v, key⟩ := TagMap.get?_stop_of_mem_blocks hb
    simp [Block.span, key]

/-- Text marked in a block of code. -/
theorem markedIn_markTextInCode (hb : b ∈ old.blocks) (tag : b.tag = .code) :
    (old.edit (markTextInCode s m b.span)).MarkedIn b.span (textInCode s m b.span)
      (leftTag b (textInCode s m b.span)) := by
  have separated : Separated b.span (textInCode s m b.span) := separated_findText
  rw [markTextInCode]
  cases found : (textInCode s m b.span).getLast? with
  | none =>
    rw [List.getLast?_eq_none_iff.1 found]
    exact markedIn_of_nil hb
  | some last =>
    dsimp only
    -- With the block set to bytes, its text is marked as that of data; then code is opened again.
    have marked := markedIn_textBoundaries (TagMap.mem_blocks_insert_start hb .bytes) rfl separated
    have left : leftTag b (textInCode s m b.span) = fun x =>
        if ∃ span ∈ textInCode s m b.span, x < span.stop then .bytes else .code := by
      funext x
      simp only [leftTag, tag, true_and]
    rw [TagMap.edit_append, left]
    exact marked.reopen separated found

/-- The edits that mark the text of a block. -/
theorem markedIn_marksOf (hb : b ∈ old.blocks) :
    (old.edit (marksOf s m b)).MarkedIn b.span (textsOf s m b) (leftTag b (textsOf s m b)) := by
  rw [marksOf, textsOf]
  split
  · next tag =>
    have left : leftTag b (textInData s m b.span) = fun _ => .bytes := by
      funext x
      rw [leftTag, if_neg (by simp [tag]), tag]
    rw [left]
    exact markedIn_textBoundaries hb tag separated_findText
  · next tag => exact markedIn_markTextInCode hb tag
  · exact markedIn_of_nil hb

/-- The blocks of a map with all its text marked: the spans of text of each block, and what they
leave of it. -/
theorem TagMap.Refines.mem_blocks_iff_marked (h : Refines (marksOf s m) old new) :
    c ∈ new.blocks ↔ ∃ b ∈ old.blocks, (c.tag = .text ∧ c.span ∈ textsOf s m b) ∨
      (Gap b.span (textsOf s m b) c.span ∧ c.tag = leftTag b (textsOf s m b) c.start) := by
  rw [h.mem_blocks_iff]
  refine exists_congr fun b => and_congr_right fun hb => ?_
  have separated : Separated b.span (textsOf s m b) := separated_textsOf
  constructor
  · rintro ⟨above, below, hc⟩
    exact ((markedIn_marksOf hb).mem_blocks_iff separated above below).1 hc
  · intro parts
    have bounds : b.start ≤ c.start ∧ c.stop ≤ b.stop := by
      rcases parts with ⟨-, mem⟩ | ⟨gap, -⟩
      · exact ⟨(separated.within _ mem).1, (separated.within _ mem).2.2⟩
      · exact gap.bounds separated
    exact ⟨bounds.1, bounds.2,
      ((markedIn_marksOf hb).mem_blocks_iff separated bounds.1 bounds.2).2 parts⟩

/-- A block of the marked map with an address in an old block is a part of that block. -/
theorem TagMap.Refines.parts_of_mem (h : Refines (marksOf s m) old new) (hb : b ∈ old.blocks)
    (hc : c ∈ new.blocks) (above : b.start ≤ x) (below : x < b.stop) (lower : c.start ≤ x)
    (upper : x < c.stop) :
    b.start ≤ c.start ∧ c.stop ≤ b.stop ∧ ((c.tag = .text ∧ c.span ∈ textsOf s m b) ∨
      (Gap b.span (textsOf s m b) c.span ∧ c.tag = leftTag b (textsOf s m b) c.start)) := by
  obtain ⟨d, hd, first, last, hc'⟩ := h.mem_blocks_iff.1 hc
  obtain rfl := eq_of_mem_of_mem hb hd above below (by omega) (by omega)
  exact ⟨first, last, ((markedIn_marksOf hb).mem_blocks_iff separated_textsOf first last).1 hc'⟩

theorem sets_markText (tag : b.tag = .bytes) : b.Sets (markText s m b.span) := by
  have sets : b.Sets (marksOf s m b) := sets_marksOf
  rwa [marksOf, tag] at sets

theorem sets_markTextInCode (tag : b.tag = .code) : b.Sets (markTextInCode s m b.span) := by
  have sets : b.Sets (marksOf s m b) := sets_marksOf
  rwa [marksOf, tag] at sets

/-- Marking the text of data makes no code. -/
theorem code_of_code_markText
    (h : TagMap.Refines (fun b => if b.tag = .bytes then markText s m b.span else []) old new)
    (hb : b ∈ old.blocks) (hc : c ∈ new.blocks) (above : b.start ≤ c.start)
    (below : c.start < b.stop) (tag : c.tag = .code) : b.tag = .code := by
  obtain ⟨d, hd, lower, upper, hc'⟩ := h.mem_blocks_iff.1 hc
  have lt := TagMap.start_lt_stop_of_mem_blocks hc
  obtain rfl := TagMap.eq_of_mem_of_mem hb hd above below lower (by omega)
  rcases TagMap.get?_edit_eq_some (TagMap.get?_start_of_mem_blocks hc') with key | set
  · -- An old boundary inside of the old block can only be its start.
    rcases Nat.eq_or_lt_of_le above with same | inside
    · rw [← same, TagMap.get?_start_of_mem_blocks hb] at key
      rw [Option.some.inj key, tag]
    · rw [TagMap.get?_eq_none_of_mem_blocks hb inside below] at key
      cases key
  · rw [tag] at set
    split at set
    · obtain ⟨x, u, eq, -, -, text | bytes⟩ := mem_markText set
      · cases eq
        cases text
      · cases eq
        cases bytes
    · cases set

/-- Text marked in all data and then in all code: what is done in data makes no code and leaves code
as it was, so every block is marked as it stood. -/
theorem refines_marks (s : Settings) (m : Image) (old : TagMap) :
    let data := old.edit ((old.blocksTagged .bytes).flatMap fun b => markText s m b.span)
    TagMap.Refines (marksOf s m) old
      (data.edit ((data.blocksTagged .code).flatMap fun b => markTextInCode s m b.span)) := by
  intro data
  have first : TagMap.Refines (fun b => if b.tag = .bytes then markText s m b.span else []) old
      data := TagMap.refines_edit_blocksTagged fun _ _ => sets_markText
  have second : TagMap.Refines (fun b => if b.tag = .code then markTextInCode s m b.span else [])
      data _ := TagMap.refines_edit_blocksTagged fun _ _ => sets_markTextInCode
  refine ⟨fun b _ => sets_marksOf, fun b hb x above below => ?_, fun x outside => ?_⟩
  · by_cases code : b.tag = .code
    · -- Code is still the same block, and marked now.
      have unmarked : (if b.tag = .bytes then markText s m b.span else []) = [] :=
        if_neg (by simp [code])
      have kept := first.mem_blocks_of_nil hb unmarked
      have same := first.inside b hb x above below
      rw [unmarked] at same
      rw [second.inside b kept x above below, if_pos code, marksOf, code]
      exact TagMap.get?_edit_congr same
    · -- What is made of other blocks is not marked again.
      have marks : (if b.tag = .bytes then markText s m b.span else []) = marksOf s m b := by
        rw [marksOf]
        split <;> simp_all
      rw [← marks, ← first.inside b hb x above below]
      by_cases inside : ∃ c ∈ data.blocks, c.start ≤ x ∧ x < c.stop
      · obtain ⟨c, hc, lower, upper⟩ := inside
        obtain ⟨d, hd, above', below', -⟩ := first.mem_blocks_iff.1 hc
        obtain rfl := TagMap.eq_of_mem_of_mem hb hd above below (by omega) (by omega)
        rw [second.inside c hc x lower upper, if_neg fun tag => code
          (code_of_code_markText first hb hc above' (by omega) tag)]
        rfl
      · exact second.outside x fun c hc holds => inside ⟨c, hc, holds⟩
  · rw [second.outside x fun c hc holds => ?_, first.outside x outside]
    obtain ⟨d, hd, above, below, -⟩ := first.mem_blocks_iff.1 hc
    exact outside d hd ⟨by omega, by omega⟩

/-! ### Zeros -/

theorem Image.isZeroFill_iff {start stop : Nat} :
    m.isZeroFill start stop = true ↔ ∀ a, start ≤ a → a < stop → m.read a = 0 := by
  simp only [isZeroFill, slice, List.all_eq_true, List.mem_map, List.mem_range'_1, beq_iff_eq]
  constructor
  · intro zeros a above below
    by_cases inside : a < addressSpace
    · exact zeros _ ⟨a, by omega, rfl⟩
    · exact m.read_eq_zero_of_le (Nat.not_lt.1 inside)
  · rintro zeros _ ⟨a, bounds, rfl⟩
    exact zeros a bounds.1 (by omega)

theorem markZeroFill_eq_flatMap (m : Image) (tags : TagMap) :
    markZeroFill m tags = (tags.blocksTagged .bytes).flatMap fun b =>
      if m.isZeroFill b.start b.stop then [.assign b.start .zero] else [] := by
  rw [markZeroFill, zeroFillBlocks]
  induction tags.blocksTagged .bytes with
  | nil => rfl
  | cons b rest ih =>
    rw [List.flatMap_cons, ← ih, List.filter_cons]
    split <;> rfl

theorem refines_markZeroFill (m : Image) (old : TagMap) :
    TagMap.Refines
      (fun b => if b.tag = .bytes then
        if m.isZeroFill b.start b.stop then [.assign b.start .zero] else [] else [])
      old (old.edit (markZeroFill m old)) := by
  rw [markZeroFill_eq_flatMap]
  refine TagMap.refines_edit_blocksTagged fun b hb _ e mem => ?_
  split at mem
  · exact ⟨b.start, .zero, List.mem_singleton.1 mem, Nat.le_refl _,
      TagMap.start_lt_stop_of_mem_blocks hb⟩
  · cases mem

/-- The blocks of a map with its zeros marked: a block of bytes with zeros only is now one of zeros,
and all others are as they were. -/
theorem mem_blocks_markZeroFill (hc : c ∈ (old.edit (markZeroFill m old)).blocks) :
    ∃ b ∈ old.blocks, b.start = c.start ∧ b.stop = c.stop ∧
      (c.tag = .zero ∧ b.tag = .bytes ∧ m.isZeroFill b.start b.stop = true ∨
        c.tag = b.tag ∧ (b.tag = .bytes → m.isZeroFill b.start b.stop = false)) := by
  obtain ⟨b, hb, above, below, hc'⟩ := (refines_markZeroFill m old).mem_blocks_iff.1 hc
  have lt := TagMap.start_lt_stop_of_mem_blocks hc
  refine ⟨b, hb, ?_⟩
  by_cases zeros : b.tag = .bytes ∧ m.isZeroFill b.start b.stop = true
  · rw [if_pos zeros.1, if_pos zeros.2] at hc'
    have marked := TagMap.mem_blocks_insert_start hb .zero
    have same := TagMap.eq_of_mem_of_mem (a := c.start) marked hc' above
      (Nat.lt_of_lt_of_le lt below) (Nat.le_refl _) lt
    rw [← same]
    exact ⟨rfl, rfl, .inl ⟨rfl, zeros⟩⟩
  · have unmarked : (if b.tag = .bytes then
        if m.isZeroFill b.start b.stop = true then [Edit.assign b.start .zero] else []
        else []) = [] := by
      split
      · next tag => exact if_neg fun fill => zeros ⟨tag, fill⟩
      · rfl
    rw [unmarked] at hc'
    obtain rfl := TagMap.eq_of_mem_of_mem (a := c.start) hb hc' above (Nat.lt_of_lt_of_le lt below)
      (Nat.le_refl _) lt
    refine ⟨rfl, rfl, .inr ⟨rfl, fun tag => ?_⟩⟩
    exact Bool.eq_false_iff.2 fun fill => zeros ⟨tag, fill⟩

end MemoryAtlas
