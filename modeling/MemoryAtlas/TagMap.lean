import MemoryAtlas.SortedMap
import MemoryAtlas.Record

/-!
# Tag maps

A tag map divides memory into blocks. Its keys are the boundaries, and the tag of a boundary holds
from there to the next one; the last boundary only ends the last block.

Every change of a map is a list of edits. The new map and the report of the change are both read
off the same list.

## Main definitions

* `TagMap.blocks`, `TagMap.tagAt?`: what the boundaries mean.
* `TagMap.edit`: the map after a list of edits; `TagMap.perform` reports them too.
* `TagMap.removeWithin`: the map without the boundaries strictly between two addresses.

## Main results

* `TagMap.get?_start_of_mem_blocks`, `TagMap.get?_stop_of_mem_blocks`,
  `TagMap.get?_eq_none_of_mem_blocks`: a block lies between two boundaries with none inside.
-/

namespace MemoryAtlas

/-- The boundaries of blocks with their tags. -/
abbrev TagMap := SortedMap Nat Tag

namespace TagMap

/-- The block between two boundaries. -/
def between (lower upper : Nat × Tag) : Block := ⟨lower.1, upper.1, lower.2⟩

/-- The blocks, ascending: one from each boundary to the next. -/
def blocks (m : TagMap) : List Block := List.zipWith between m.entries m.entries.tail

/-- The blocks with a given tag, ascending. -/
def blocksTagged (m : TagMap) (t : Tag) : List Block := m.blocks.filter (·.tag == t)

/-- The tag that holds at an address: that of the last boundary at or below it. -/
def tagAt? (m : TagMap) (a : Nat) : Option Tag :=
  (m.entries.filter (·.1 ≤ a)).getLast?.map (·.2)

/-- Whether some boundary is not classified. -/
def hasUnknown (m : TagMap) : Bool := m.entries.any (·.2 == .unknown)

/-- The boundaries strictly between two addresses, ascending. -/
def within (m : TagMap) (lo hi : Nat) : List (Nat × Tag) :=
  m.entries.filter fun e => lo < e.1 && e.1 < hi

/-! ### Edits -/

/-- The map after one edit. -/
def apply (m : TagMap) : Edit → TagMap
  | .assign a t => m.insert a t
  | .clear a => m.erase a

/-- The map after a list of edits. -/
def edit (m : TagMap) (edits : List Edit) : TagMap := edits.foldl apply m

/-- A list of edits, reported. -/
def perform (m : TagMap) (edits : List Edit) : Logged TagMap :=
  ⟨m.edit edits, edits.map .edited⟩

/-- The edits that set a list of boundaries. -/
def assignments (boundaries : List (Nat × Tag)) : List Edit :=
  boundaries.map fun e => .assign e.1 e.2

/-- The edits that remove every boundary strictly between two addresses. -/
def clearWithin (m : TagMap) (lo hi : Nat) : List Edit := (m.within lo hi).map fun e => .clear e.1

/-- The map without the boundaries strictly between two addresses, and the tag of the lowest of
them. -/
def removeWithin (m : TagMap) (lo hi : Nat) : Logged (Option Tag × TagMap) := do
  let removed ← m.perform (m.clearWithin lo hi)
  return ((m.within lo hi).head?.map (·.2), removed)

/-- The edits that make one block out of an empty map. -/
def rangeEdits (start stop : Nat) (t : Tag) : List Edit := [.assign start t, .assign stop .limit]

@[simp]
theorem edit_nil (m : TagMap) : m.edit [] = m := rfl

@[simp]
theorem edit_cons (m : TagMap) (e : Edit) (edits : List Edit) :
    m.edit (e :: edits) = (m.apply e).edit edits := rfl

@[simp]
theorem edit_append (m : TagMap) (first second : List Edit) :
    m.edit (first ++ second) = (m.edit first).edit second :=
  List.foldl_append ..

@[simp]
theorem value_perform (m : TagMap) (edits : List Edit) :
    (m.perform edits).value = m.edit edits := rfl

@[simp]
theorem events_perform (m : TagMap) (edits : List Edit) :
    (m.perform edits).events = edits.map .edited := rfl

theorem perform_append (m : TagMap) (first second : List Edit) :
    m.perform (first ++ second) = m.perform first >>= fun now => now.perform second := by
  rw [perform, edit_append, List.map_append]
  rfl

/-! ### Blocks lie between boundaries -/

theorem mem_zipWith_between {l : List (Nat × Tag)} {b : Block}
    (h : b ∈ List.zipWith between l l.tail) :
    ∃ before after upper, l = before ++ (b.start, b.tag) :: (b.stop, upper) :: after := by
  induction l with
  | nil => simp at h
  | cons x rest ih =>
    cases rest with
    | nil => simp at h
    | cons y rest =>
      rcases List.mem_cons.1 h with rfl | h
      · exact ⟨[], rest, y.2, rfl⟩
      · obtain ⟨before, after, upper, eq⟩ := ih h
        exact ⟨x :: before, after, upper, by rw [eq]; rfl⟩

/-- A block of a map is a pair of neighbouring boundaries. -/
theorem exists_append_of_mem_blocks {m : TagMap} {b : Block} (h : b ∈ m.blocks) :
    ∃ before after upper,
      m.entries = before ++ (b.start, b.tag) :: (b.stop, upper) :: after :=
  mem_zipWith_between h

theorem get?_start_of_mem_blocks {m : TagMap} {b : Block} (h : b ∈ m.blocks) :
    m.get? b.start = some b.tag := by
  obtain ⟨before, after, upper, eq⟩ := exists_append_of_mem_blocks h
  rw [SortedMap.get?_eq_some_iff, eq]
  simp

theorem get?_stop_of_mem_blocks {m : TagMap} {b : Block} (h : b ∈ m.blocks) :
    ∃ upper, m.get? b.stop = some upper := by
  obtain ⟨before, after, upper, eq⟩ := exists_append_of_mem_blocks h
  refine ⟨upper, ?_⟩
  rw [SortedMap.get?_eq_some_iff, eq]
  simp

/-- No boundary lies inside a block. -/
theorem get?_eq_none_of_mem_blocks {m : TagMap} {b : Block} (h : b ∈ m.blocks) {a : Nat}
    (above : b.start < a) (below : a < b.stop) : m.get? a = none := by
  obtain ⟨before, after, upper, eq⟩ := exists_append_of_mem_blocks h
  have sorted := m.ascending
  rw [eq] at sorted
  rw [Option.eq_none_iff_forall_ne_some]
  intro t ht
  rw [SortedMap.get?_eq_some_iff, eq] at ht
  simp only [List.pairwise_append, List.pairwise_cons, List.mem_cons] at sorted
  obtain ⟨-, ⟨-, later, -⟩, earlier⟩ := sorted
  rcases List.mem_append.1 ht with h | h
  · have := earlier _ h _ (.inl rfl)
    simp only at this
    omega
  · rcases List.mem_cons.1 h with h | h
    · cases h
      omega
    · rcases List.mem_cons.1 h with h | h
      · cases h
        omega
      · have := later _ h
        simp only at this
        omega

/-- A block holds at least one address. -/
theorem start_lt_stop_of_mem_blocks {m : TagMap} {b : Block} (h : b ∈ m.blocks) :
    b.start < b.stop := by
  obtain ⟨before, after, upper, eq⟩ := exists_append_of_mem_blocks h
  have sorted := m.ascending
  rw [eq] at sorted
  simp only [List.pairwise_append, List.pairwise_cons, List.mem_cons] at sorted
  exact sorted.2.1.1 _ (.inl rfl)

end TagMap

end MemoryAtlas
