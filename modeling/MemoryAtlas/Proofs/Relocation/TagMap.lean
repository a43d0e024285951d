import Mathlib.Data.List.Basic
import MemoryAtlas.Proofs.Relocation.Decoding
import MemoryAtlas.Proofs.TagMap.WellFormed

/-!
# Maps moved to higher addresses

A map, its blocks and its edits can all be moved up by the same number of addresses. Everything that
is done with a map then moves along.

## Main definitions

* `TagMap.shift`, `Block.shift`, `Span.shift`, `Edit.shift`: the same, `d` addresses higher.

## Main results

* `TagMap.shift_edit`: edits move along with their map.
* `TagMap.blocks_shift`: so do blocks.
* `TagMap.flatMap_shift`: and the edits that follow from them block by block.
* `Image.Relocated.block`: the bytes of a block stand elsewhere if those of its range do.
-/

namespace MemoryAtlas

variable {tags : TagMap} {d a : Nat} {u : Tag}

/-- The range `d` addresses higher. -/
def Span.shift (d : Nat) (s : Span) : Span := ⟨s.start + d, s.stop + d⟩

/-- The block `d` addresses higher. -/
def Block.shift (d : Nat) (b : Block) : Block := ⟨b.start + d, b.stop + d, b.tag⟩

/-- The edit of the boundary `d` addresses higher. -/
def Edit.shift (d : Nat) : Edit → Edit
  | .assign a t => .assign (a + d) t
  | .clear a => .clear (a + d)

/-- The boundary `d` addresses higher. -/
def shiftEntry (d : Nat) (e : Nat × Tag) : Nat × Tag := (e.1 + d, e.2)

namespace TagMap

/-- The map with every boundary `d` addresses higher. -/
def shift (d : Nat) (tags : TagMap) : TagMap where
  entries := tags.entries.map (shiftEntry d)
  ascending := List.pairwise_map.2 (tags.ascending.imp fun lt => Nat.add_lt_add_right lt d)

theorem map_insertEntry (d a : Nat) (u : Tag) (l : List (Nat × Tag)) :
    (SortedMap.insertEntry a u l).map (shiftEntry d) =
      SortedMap.insertEntry (a + d) u (l.map (shiftEntry d)) := by
  induction l with
  | nil => rfl
  | cons e rest ih =>
    simp only [SortedMap.insertEntry, List.map_cons, shiftEntry, Nat.add_lt_add_iff_right,
      Nat.add_right_cancel_iff]
    split
    · rfl
    · split
      · rfl
      · rw [List.map_cons, ih]
        rfl

theorem shift_insert : shift d (tags.insert a u) = (tags.shift d).insert (a + d) u :=
  SortedMap.ext (map_insertEntry d a u tags.entries)

theorem shift_erase : shift d (tags.erase a) = (tags.shift d).erase (a + d) := by
  apply SortedMap.ext
  simp only [shift, SortedMap.erase, SortedMap.filter, List.filter_map]
  congr 2
  funext e
  simp [shiftEntry]

/-- Edits move along with their map. -/
theorem shift_edit (edits : List Edit) :
    (tags.edit edits).shift d = (tags.shift d).edit (edits.map (Edit.shift d)) := by
  induction edits generalizing tags with
  | nil => rfl
  | cons e rest ih =>
    rw [edit_cons, ih, List.map_cons, edit_cons]
    cases e with
    | assign a u => rw [apply, shift_insert]; rfl
    | clear a => rw [apply, shift_erase]; rfl

theorem blocks_shift : (tags.shift d).blocks = tags.blocks.map (Block.shift d) := by
  simp only [blocks, shift, ← List.map_tail, List.zipWith_map, List.map_zipWith]
  rfl

theorem blocksTagged_shift :
    (tags.shift d).blocksTagged u = (tags.blocksTagged u).map (Block.shift d) := by
  rw [blocksTagged, blocks_shift, List.filter_map]
  rfl

/-- What follows block by block moves along with the blocks. -/
theorem flatMap_shift {f g : Block → List Edit} {l : List Block}
    (same : ∀ b ∈ l, g (b.shift d) = (f b).map (Edit.shift d)) :
    (l.map (Block.shift d)).flatMap g = (l.flatMap f).map (Edit.shift d) := by
  rw [List.flatMap_map, List.map_flatMap]
  exact List.flatMap_congr same

end TagMap

theorem Image.Relocated.block {m m' : Image} {start stop : Nat} {b : Block}
    (h : m.Relocated m' d start stop) (wellFormed : tags.WellFormed start stop)
    (hb : b ∈ tags.blocks) : m.Relocated m' d b.start b.stop := by
  obtain ⟨lower, -, upper, -⟩ := wellFormed.of_mem_blocks hb
  exact h.mono lower upper

end MemoryAtlas
