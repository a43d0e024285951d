import MemoryAtlas.Proofs.Marking
import MemoryAtlas.Proofs.Relocation.TagMap

/-!
# Marking in another place

Text and zeros are found by looking at the bytes of a range alone. Where the same bytes stand
elsewhere, the same text and zeros are found there.

## Main results

* `findText_relocated`: the text of a range.
* `markText_relocated`, `markTextInCode_relocated`, `markZeroFill_relocated`: the edits that mark
  what it holds.
-/

namespace MemoryAtlas

variable {s : Settings} {m m' : Image} {context : TextContext} {p p' : Nat → Bool}
  {d a start stop : Nat} {range : Span} {tags : TagMap}

theorem filter_map_of_mem {α β : Type} {f : α → β} {q : α → Bool} {q' : β → Bool} {l : List α}
    (same : ∀ x ∈ l, q' (f x) = q x) : (l.map f).filter q' = (l.filter q).map f := by
  rw [List.filter_map]
  exact congrArg (List.map f) (List.filter_congr same)

/-! ### Text -/

theorem runEnd_shift (same : ∀ x, a ≤ x → x < stop → p' (x + d) = p x) :
    runEnd p' (stop + d) (a + d) = runEnd p stop a + d := by
  fun_induction runEnd p stop a with
  | case1 a lt holds ih =>
    rw [runEnd, if_pos (Nat.add_lt_add_right lt d), same a (Nat.le_refl a) lt, if_pos holds,
      Nat.add_right_comm, ih fun x above below => same x (Nat.le_of_succ_le above) below]
  | case2 a lt fails =>
    rw [runEnd, if_pos (Nat.add_lt_add_right lt d), same a (Nat.le_refl a) lt, if_neg fails]
  | case3 a ge => rw [runEnd, if_neg (by omega)]

theorem startsRun_shift (same : ∀ x, start ≤ x → x < stop → p' (x + d) = p x)
    (above : start ≤ a) (below : a < stop) :
    startsRun p' (start + d) (a + d) = startsRun p start a := by
  rw [startsRun, startsRun, same a above below]
  rcases Nat.eq_or_lt_of_le above with rfl | later
  · simp
  · -- Behind the start of the range there is one more address before it in the range.
    have before := same (a - 1) (by omega) (by omega)
    rw [← Nat.sub_add_comm (by omega : 1 ≤ a)] at before
    have apart : (a + d == start + d) = (a == start) := by simp
    rw [before, apart]

/-- The longest runs with a property stand where the property does. -/
theorem longestRuns_shift (same : ∀ x, start ≤ x → x < stop → p' (x + d) = p x) :
    longestRuns p' (start + d) (stop + d) = (longestRuns p start stop).map (Span.shift d) := by
  have addresses : List.range' (start + d) (stop + d - (start + d)) =
      (List.range' start (stop - start)).map (· + d) := by
    rw [Nat.add_sub_add_right, Nat.add_comm start d, ← List.map_add_range']
    exact List.map_congr_left fun x _ => Nat.add_comm d x
  have starts : ∀ x ∈ List.range' start (stop - start),
      startsRun p' (start + d) (x + d) = startsRun p start x := by
    intro x mem
    obtain ⟨above, below⟩ := List.mem_range'_1.1 mem
    exact startsRun_shift same above (by omega)
  rw [longestRuns, longestRuns, runsFrom, runsFrom, addresses, filter_map_of_mem starts,
    List.map_map, List.map_map]
  refine List.map_congr_left fun x mem => ?_
  obtain ⟨above, -⟩ := List.mem_range'_1.1 (List.mem_of_mem_filter mem)
  rw [Function.comp_apply, Function.comp_apply, Span.shift,
    runEnd_shift fun y lower upper => same y (Nat.le_trans above lower) upper]

theorem isText_relocated (h : m.Relocated m' d range.start range.stop) :
    isText s m' context (range.shift d) = isText s m context range := by
  simp only [isText, Span.shift, h.slice, Nat.add_sub_add_right]

/-- The text of a range stands where its bytes do. -/
theorem findText_relocated (h : m.Relocated m' d start stop) :
    findText s m' context (start + d) (stop + d) =
      (findText s m context start stop).map (Span.shift d) := by
  have texts : ∀ run ∈ longestRuns (fun a => s.isTextByte (m.read a)) start stop,
      isText s m' context (run.shift d) = isText s m context run := by
    intro run mem
    obtain ⟨lower, -, upper⟩ := bounds_of_mem_longestRuns mem
    exact isText_relocated (h.mono lower upper)
  have runs : longestRuns (fun a => s.isTextByte (m'.read a)) (start + d) (stop + d) =
      (longestRuns (fun a => s.isTextByte (m.read a)) start stop).map (Span.shift d) :=
    longestRuns_shift fun x above below => by rw [h.read x above below]
  rw [findText, findText, runs, filter_map_of_mem texts]

theorem textBoundaries_shift (spans : List Span) :
    textBoundaries (stop + d) (spans.map (Span.shift d)) =
      (textBoundaries stop spans).map (Edit.shift d) := by
  rw [textBoundaries, textBoundaries, List.flatMap_map, List.map_flatMap]
  refine List.flatMap_congr fun span _ => ?_
  simp only [Span.shift, List.map_cons, Edit.shift, Nat.add_lt_add_iff_right, List.cons.injEq,
    true_and]
  split <;> rfl

theorem markText_relocated (h : m.Relocated m' d range.start range.stop) :
    markText s m' (range.shift d) = (markText s m range).map (Edit.shift d) := by
  rw [markText, markText, textInData, textInData, ← textBoundaries_shift, ← findText_relocated h]
  rfl

theorem markTextInCode_relocated (h : m.Relocated m' d range.start range.stop) :
    markTextInCode s m' (range.shift d) = (markTextInCode s m range).map (Edit.shift d) := by
  have texts : textInCode s m' (range.shift d) = (textInCode s m range).map (Span.shift d) :=
    findText_relocated h
  simp only [markTextInCode, texts, List.getLast?_map]
  cases (textInCode s m range).getLast? with
  | none => rfl
  | some last =>
    simp only [Option.map_some, Span.shift, List.map_append, List.map_cons, Edit.shift,
      ← textBoundaries_shift, Nat.add_lt_add_iff_right]
    split <;> rfl

/-! ### Zeros -/

theorem isZeroFill_relocated (h : m.Relocated m' d start stop) :
    m'.isZeroFill (start + d) (stop + d) = m.isZeroFill start stop := by
  rw [Image.isZeroFill, Image.isZeroFill, h.slice]

/-- Blocks of zeros are marked where their bytes stand. -/
theorem markZeroFill_relocated (h : ∀ b ∈ tags.blocks, m.Relocated m' d b.start b.stop) :
    markZeroFill m' (tags.shift d) = (markZeroFill m tags).map (Edit.shift d) := by
  have zeros : ∀ b ∈ tags.blocksTagged .bytes,
      m'.isZeroFill (b.shift d).start (b.shift d).stop = m.isZeroFill b.start b.stop :=
    fun b mem => isZeroFill_relocated (h b (List.mem_of_mem_filter mem))
  rw [markZeroFill, markZeroFill, zeroFillBlocks, zeroFillBlocks, TagMap.blocksTagged_shift,
    filter_map_of_mem zeros, List.map_map, List.map_map]
  rfl

end MemoryAtlas
