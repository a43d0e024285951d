import MemoryAtlas.Marking

/-!
# Marks stay in their block

Text is found inside the range that is searched, so the edits that mark it set boundaries of that
range only, and no boundary of code but the one that reopens code after the last text.

## Main results

* `bounds_of_mem_findText`: a span of text is not empty and lies in the range.
* `mem_markText`, `mem_markTextInCode`: the boundaries that marking sets.
-/

namespace MemoryAtlas

variable {s : Settings} {m : Image} {context : TextContext} {p : Nat → Bool}
  {a start stop : Nat} {range span : Span} {spans : List Span} {e : Edit}

theorem le_runEnd : a ≤ runEnd p stop a := by
  fun_induction runEnd p stop a with
  | case1 a lt holds ih => exact Nat.le_trans (Nat.le_succ a) ih
  | case2 a lt fails => exact Nat.le_refl a
  | case3 a ge => exact Nat.le_refl a

theorem runEnd_le (le : a ≤ stop) : runEnd p stop a ≤ stop := by
  fun_induction runEnd p stop a with
  | case1 a lt holds ih => exact ih lt
  | case2 a lt fails => exact le
  | case3 a ge => exact le

theorem lt_runEnd (lt : a < stop) (holds : p a = true) : a < runEnd p stop a := by
  rw [runEnd, if_pos lt, if_pos holds]
  exact le_runEnd

/-- A longest run is not empty and lies in the range. -/
theorem bounds_of_mem_longestRuns (h : span ∈ longestRuns p start stop) :
    start ≤ span.start ∧ span.start < span.stop ∧ span.stop ≤ stop := by
  obtain ⟨a, mem, rfl⟩ := List.mem_map.1 h
  obtain ⟨mem, starts⟩ := List.mem_filter.1 mem
  obtain ⟨lower, upper⟩ := List.mem_range'_1.1 mem
  rw [startsRun, Bool.and_eq_true] at starts
  have below : a < stop := by omega
  exact ⟨lower, lt_runEnd below starts.1, runEnd_le (Nat.le_of_lt below)⟩

/-- A span of text is not empty and lies in the range. -/
theorem bounds_of_mem_findText (h : span ∈ findText s m context start stop) :
    start ≤ span.start ∧ span.start < span.stop ∧ span.stop ≤ stop :=
  bounds_of_mem_longestRuns (List.mem_filter.1 h).1

/-- Around text only boundaries of text and bytes are set, from the first text on and below the end
of the range. -/
theorem mem_textBoundaries (h : e ∈ textBoundaries stop spans)
    (bounds : ∀ span ∈ spans, start ≤ span.start ∧ span.start < span.stop ∧ span.stop ≤ stop) :
    ∃ x u, e = .assign x u ∧ start ≤ x ∧ x < stop ∧ (u = .text ∨ u = .bytes) := by
  obtain ⟨span, mem, h⟩ := List.mem_flatMap.1 h
  have := bounds span mem
  rcases List.mem_cons.1 h with rfl | h
  · exact ⟨span.start, .text, rfl, by omega, by omega, .inl rfl⟩
  · split at h
    · next lt =>
      rw [List.mem_singleton.1 h]
      exact ⟨span.stop, .bytes, rfl, by omega, lt, .inr rfl⟩
    · cases h

/-- Marking the text of data sets boundaries of text and bytes in the range. -/
theorem mem_markText (h : e ∈ markText s m range) :
    ∃ x u, e = .assign x u ∧ range.start ≤ x ∧ x < range.stop ∧ (u = .text ∨ u = .bytes) :=
  mem_textBoundaries h fun _ mem => bounds_of_mem_findText mem

/-- Marking the text of code sets boundaries in the range, of which none is an end or left
unclassified. -/
theorem mem_markTextInCode (h : e ∈ markTextInCode s m range) :
    ∃ x u, e = .assign x u ∧ range.start ≤ x ∧ x < range.stop ∧
      (u = .text ∨ u = .bytes ∨ u = .code) := by
  have bounds : ∀ span ∈ textInCode s m range, range.start ≤ span.start ∧ span.start < span.stop ∧
      span.stop ≤ range.stop := fun _ mem => bounds_of_mem_findText mem
  rw [markTextInCode] at h
  split at h
  · cases h
  · next last found =>
    have := bounds last (List.mem_of_getLast? found)
    rcases List.mem_append.1 h with h | h
    · rcases List.mem_cons.1 h with rfl | h
      · exact ⟨range.start, .bytes, rfl, by omega, by omega, .inr (.inl rfl)⟩
      · obtain ⟨x, u, rfl, lower, upper, tag⟩ := mem_textBoundaries h bounds
        exact ⟨x, u, rfl, lower, upper, tag.imp_right .inl⟩
    · split at h
      · next lt =>
        rw [List.mem_singleton.1 h]
        exact ⟨last.stop, .code, rfl, by omega, lt, .inr (.inr rfl)⟩
      · cases h

/-- Blocks of bytes are marked as zeros at their starts. -/
theorem mem_markZeroFill {tags : TagMap} (h : e ∈ markZeroFill m tags) :
    ∃ b ∈ tags.blocks, b.tag = .bytes ∧ e = .assign b.start .zero := by
  obtain ⟨b, mem, rfl⟩ := List.mem_map.1 h
  obtain ⟨mem, bytes⟩ := List.mem_filter.1 (List.mem_filter.1 mem).1
  exact ⟨b, mem, beq_iff_eq.1 bytes, rfl⟩

end MemoryAtlas
