import Mathlib.Data.List.Nodup
import MemoryAtlas.Proofs.TagMap.InOrder
import MemoryAtlas.Proofs.TagMap.WellFormed

/-!
# Edits block by block

Most phases of classification go through the blocks of a map and set boundaries inside of each, and
what they do to a block follows from that block alone. So the new map can be told block by block: it
has every old boundary, and inside of an old block it is what the edits of that block make of it.

## Main definitions

* `Block.Sets`: edits that set boundaries inside of a block.
* `TagMap.Refines`: a map that is another one, changed block by block.

## Main results

* `TagMap.refines_edit_flatMap`: the edits of all blocks, one block after the other, refine a map.
* `TagMap.Refines.mem_blocks_iff`: the blocks of the refined map, block by block.
-/

namespace MemoryAtlas

variable {b c : Block} {edits : List Edit} {x : Nat} {u : Tag}

/-- The edits set boundaries inside of the block, and do nothing else. -/
def Block.Sets (b : Block) (edits : List Edit) : Prop :=
  ∀ e ∈ edits, ∃ x u, e = .assign x u ∧ b.start ≤ x ∧ x < b.stop

theorem Block.sets_nil (b : Block) : b.Sets [] := by
  intro e mem
  cases mem

theorem Block.Sets.clear_notMem (h : b.Sets edits) (x : Nat) : .clear x ∉ edits := by
  intro mem
  obtain ⟨y, u, eq, -⟩ := h _ mem
  cases eq

theorem Block.Sets.bounds (h : b.Sets edits) (mem : .assign x u ∈ edits) :
    b.start ≤ x ∧ x < b.stop := by
  obtain ⟨y, v, eq, bounds⟩ := h _ mem
  cases eq
  exact bounds

namespace TagMap

variable {old new m n : TagMap} {f : Block → List Edit}

/-! ### One edit after the other -/

/-- What edits make of a boundary depends on what it was. -/
theorem get?_edit_congr (same : m.get? x = n.get? x) :
    (m.edit edits).get? x = (n.edit edits).get? x := by
  induction edits generalizing m n with
  | nil => exact same
  | cons e edits ih =>
    refine ih ?_
    cases e with
    | assign y v => rw [apply, apply, SortedMap.get?_insert, SortedMap.get?_insert, same]
    | clear y => rw [apply, apply, SortedMap.get?_erase, SortedMap.get?_erase, same]

/-- A boundary that is removed and not set is gone. -/
theorem get?_edit_of_clear (cleared : .clear x ∈ edits) (unset : ∀ u, .assign x u ∉ edits) :
    (m.edit edits).get? x = none := by
  cases key : (m.edit edits).get? x with
  | none => rfl
  | some u =>
    obtain ⟨before, after, rfl⟩ := List.append_of_mem cleared
    rw [edit_append, edit_cons] at key
    rcases get?_edit_eq_some key with key | set
    · simp [apply] at key
    · exact absurd (List.mem_append_right _ (List.mem_cons_of_mem _ set)) (unset u)

/-- Edits of other blocks leave a boundary as it is. -/
theorem get?_edit_flatMap_of_forall {blocks : List Block} (sets : ∀ b ∈ blocks, b.Sets (f b))
    (apart : ∀ b ∈ blocks, ¬ (b.start ≤ x ∧ x < b.stop)) :
    (m.edit (blocks.flatMap f)).get? x = m.get? x := by
  refine get?_edit_of_forall_ne (fun v mem => ?_) fun mem => ?_
  · obtain ⟨b, hb, mem⟩ := List.mem_flatMap.1 mem
    exact apart b hb ((sets b hb).bounds mem)
  · obtain ⟨b, hb, mem⟩ := List.mem_flatMap.1 mem
    exact (sets b hb).clear_notMem x mem

theorem flatMap_blocksTagged (m : TagMap) (u : Tag) (f : Block → List Edit) :
    (m.blocksTagged u).flatMap f = m.blocks.flatMap fun b => if b.tag = u then f b else [] := by
  rw [blocksTagged]
  induction m.blocks with
  | nil => rfl
  | cons b rest ih =>
    rw [List.flatMap_cons, ← ih]
    by_cases tag : b.tag = u
    · rw [List.filter_cons_of_pos (by simpa using tag), List.flatMap_cons, if_pos tag]
    · rw [List.filter_cons_of_neg (by simpa using tag), if_neg tag]
      rfl

/-! ### Refined maps -/

/-- The new map is the old one with the edits of each block made inside of that block. -/
structure Refines (f : Block → List Edit) (old new : TagMap) : Prop where
  /-- The edits of a block set boundaries inside of it. -/
  sets : ∀ b ∈ old.blocks, b.Sets (f b)
  /-- Inside of a block its own edits count. -/
  inside : ∀ b ∈ old.blocks, ∀ x, b.start ≤ x → x < b.stop →
    new.get? x = (old.edit (f b)).get? x
  /-- Outside of all blocks nothing changes. -/
  outside : ∀ x, (∀ b ∈ old.blocks, ¬ (b.start ≤ x ∧ x < b.stop)) → new.get? x = old.get? x

/-- The edits of all blocks, one block after the other, refine a map. -/
theorem refines_edit_flatMap (sets : ∀ b ∈ old.blocks, b.Sets (f b)) :
    Refines f old (old.edit (old.blocks.flatMap f)) where
  sets := sets
  inside b hb x above below := by
    -- Among the edits, those of the blocks before and after this one do not concern the address.
    obtain ⟨before, after, eq⟩ := List.append_of_mem hb
    have distinct := nodup_blocks old
    rw [eq, List.nodup_middle, List.nodup_cons, List.mem_append, not_or] at distinct
    have apart : ∀ d ∈ old.blocks, d ≠ b → ¬ (d.start ≤ x ∧ x < d.stop) := by
      rintro d hd ne ⟨lower, upper⟩
      exact ne (eq_of_mem_of_mem hd hb lower upper above below)
    have first : ∀ d ∈ before, d ∈ old.blocks ∧ d ≠ b := by
      intro d hd
      refine ⟨by rw [eq]; exact List.mem_append_left _ hd, ?_⟩
      rintro rfl
      exact distinct.1.1 hd
    have last : ∀ d ∈ after, d ∈ old.blocks ∧ d ≠ b := by
      intro d hd
      refine ⟨by rw [eq]; exact List.mem_append_right _ (List.mem_cons_of_mem _ hd), ?_⟩
      rintro rfl
      exact distinct.1.2 hd
    rw [eq, List.flatMap_append, List.flatMap_cons, edit_append, edit_append,
      get?_edit_flatMap_of_forall (fun d hd => sets d (last d hd).1)
        fun d hd => apart d (last d hd).1 (last d hd).2]
    exact get?_edit_congr (get?_edit_flatMap_of_forall (fun d hd => sets d (first d hd).1)
      fun d hd => apart d (first d hd).1 (first d hd).2)
  outside x apart := get?_edit_flatMap_of_forall sets apart

/-- The blocks of one tag, edited one after the other, refine a map. -/
theorem refines_edit_blocksTagged (sets : ∀ b ∈ old.blocks, b.tag = u → b.Sets (f b)) :
    Refines (fun b => if b.tag = u then f b else []) old
      (old.edit ((old.blocksTagged u).flatMap f)) := by
  rw [flatMap_blocksTagged]
  refine refines_edit_flatMap fun b hb => ?_
  split
  · next tag => exact sets b hb tag
  · exact b.sets_nil

namespace Refines

/-- Old boundaries stay. -/
theorem isSome_get? (h : Refines f old new) (key : (old.get? x).isSome) : (new.get? x).isSome := by
  by_cases inside : ∃ b ∈ old.blocks, b.start ≤ x ∧ x < b.stop
  · obtain ⟨b, hb, above, below⟩ := inside
    rw [h.inside b hb x above below]
    exact isSome_get?_edit key ((h.sets b hb).clear_notMem x)
  · rw [h.outside x fun b hb holds => inside ⟨b, hb, holds⟩]
    exact key

/-- The blocks of the refined map are those that the edits of each block make of it. -/
theorem mem_blocks_iff (h : Refines f old new) :
    c ∈ new.blocks ↔ ∃ b ∈ old.blocks, b.start ≤ c.start ∧ c.stop ≤ b.stop ∧
      c ∈ (old.edit (f b)).blocks := by
  constructor
  · intro hc
    obtain ⟨key, lt, ⟨upper, stop⟩, none⟩ := TagMap.mem_blocks_iff.1 hc
    have inside : ∃ b ∈ old.blocks, b.start ≤ c.start ∧ c.start < b.stop := by
      by_contra outside
      -- Then the block starts at an old boundary, and as there is a later one, at an old block.
      have start := key
      rw [h.outside _ fun b hb holds => outside ⟨b, hb, holds⟩] at start
      have later : ∃ j, c.start < j ∧ (old.get? j).isSome := by
        by_cases inner : ∃ b ∈ old.blocks, b.start ≤ c.stop ∧ c.stop < b.stop
        · obtain ⟨b, hb, -, below⟩ := inner
          obtain ⟨v, key'⟩ := get?_stop_of_mem_blocks hb
          exact ⟨b.stop, by omega, by simp [key']⟩
        · rw [h.outside _ fun b hb holds => inner ⟨b, hb, holds⟩] at stop
          exact ⟨c.stop, lt, by simp [stop]⟩
      obtain ⟨b, hb, same, -, below⟩ :=
        exists_mem_blocks ⟨Nat.le_refl _, fun j _ _ => by omega⟩ start later
      exact outside ⟨b, hb, Nat.le_of_eq same, below⟩
    obtain ⟨b, hb, above, below⟩ := inside
    obtain ⟨v, key'⟩ := get?_stop_of_mem_blocks hb
    have kept := h.isSome_get? (x := b.stop) (by simp [key'])
    -- The end of the old block is still a boundary, so the new block does not go over it.
    have le : c.stop ≤ b.stop := by
      by_contra over_
      rw [none b.stop below (by omega)] at kept
      cases kept
    refine ⟨b, hb, above, le, TagMap.mem_blocks_iff.2 ⟨?_, lt, ?_, fun a lower upper => ?_⟩⟩
    · rw [← h.inside b hb _ above below, key]
    · rcases Nat.eq_or_lt_of_le le with same | inner
      · rw [same]
        exact Option.isSome_iff_exists.1
          (isSome_get?_edit (by simp [key']) ((h.sets b hb).clear_notMem _))
      · exact ⟨upper, by rw [← h.inside b hb _ (by omega) inner, stop]⟩
    · rw [← h.inside b hb a (by omega) (by omega)]
      exact none a lower upper
  · rintro ⟨b, hb, above, le, hc⟩
    obtain ⟨key, lt, ⟨upper, stop⟩, none⟩ := TagMap.mem_blocks_iff.1 hc
    refine TagMap.mem_blocks_iff.2 ⟨?_, lt, ?_, fun a lower upper => ?_⟩
    · rw [h.inside b hb _ above (by omega), key]
    · rcases Nat.eq_or_lt_of_le le with same | inner
      · obtain ⟨v, key'⟩ := get?_stop_of_mem_blocks hb
        rw [same]
        exact Option.isSome_iff_exists.1 (h.isSome_get? (by simp [key']))
      · exact ⟨upper, by rw [h.inside b hb _ (by omega) inner, stop]⟩
    · rw [h.inside b hb a (by omega) (by omega)]
      exact none a lower upper

/-- A block without edits stays as it is. -/
theorem mem_blocks_of_nil (h : Refines f old new) (hb : b ∈ old.blocks) (nil : f b = []) :
    b ∈ new.blocks :=
  h.mem_blocks_iff.2 ⟨b, hb, Nat.le_refl _, Nat.le_refl _, by rwa [nil]⟩

end Refines

end TagMap

end MemoryAtlas
