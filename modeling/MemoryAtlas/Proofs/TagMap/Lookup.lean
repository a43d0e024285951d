import Mathlib.Data.Nat.Find
import MemoryAtlas.TagMap

/-!
# Tag maps through their look-ups

A change of a tag map is known by what it does to each look-up. This file says what the blocks of a
map and the tag at an address are in terms of look-ups, so that later arguments never touch the list
of boundaries.

## Main definitions

* `TagMap.Governs`: no boundary lies after `k` up to `a`, so a boundary at `k` decides the tag at
  `a`.

## Main results

* `TagMap.mem_blocks_iff`: a block lies between two boundaries with none inside, and every such
  pair of boundaries makes a block.
* `TagMap.tagAt?_eq_some_iff`: the tag at an address is that of the boundary that governs it.
* `TagMap.tagAt?_insert_of_governs`, `TagMap.tagAt?_insert_of_not_governs`: what a new boundary does
  to the tag at each address; `TagMap.tagAt?_erase_of_governs`,
  `TagMap.tagAt?_erase_of_not_governs`: the same for the boundary after a block that is removed.
-/

namespace MemoryAtlas.TagMap

variable {m : TagMap} {b c : Block} {a k x : Nat} {t u : Tag}

/-! ### Blocks -/

theorem between_mem_zipWith (before after : List (Nat × Tag)) (lower upper : Nat × Tag) :
    between lower upper ∈ List.zipWith between (before ++ lower :: upper :: after)
      (before ++ lower :: upper :: after).tail := by
  induction before with
  | nil => exact List.mem_cons_self
  | cons first before ih =>
    cases before with
    | nil => exact List.mem_cons_of_mem _ ih
    | cons second before => exact List.mem_cons_of_mem _ ih

/-- A block is a pair of boundaries with none in between. -/
theorem mem_blocks_iff :
    b ∈ m.blocks ↔ m.get? b.start = some b.tag ∧ b.start < b.stop ∧
      (∃ upper, m.get? b.stop = some upper) ∧
        ∀ a, b.start < a → a < b.stop → m.get? a = none := by
  constructor
  · intro h
    exact ⟨get?_start_of_mem_blocks h, start_lt_stop_of_mem_blocks h, get?_stop_of_mem_blocks h,
      fun a above below => get?_eq_none_of_mem_blocks h above below⟩
  · rintro ⟨lower, lt, ⟨upper, hstop⟩, none⟩
    obtain ⟨before, rest, entries⟩ := List.append_of_mem (SortedMap.get?_eq_some_iff.1 lower)
    have sorted := m.ascending
    rw [entries, List.pairwise_append, List.pairwise_cons] at sorted
    obtain ⟨-, ⟨above, tail⟩, earlier⟩ := sorted
    -- Of the entries before and after the start, the stop can only be among those after it.
    have later : (b.stop, upper) ∈ rest := by
      have mem := SortedMap.get?_eq_some_iff.1 hstop
      rw [entries] at mem
      rcases List.mem_append.1 mem with mem | mem
      · have := earlier _ mem _ List.mem_cons_self
        simp only at this
        omega
      · rcases List.mem_cons.1 mem with same | mem
        · have := congrArg Prod.fst same
          simp only at this
          omega
        · exact mem
    cases rest with
    | nil => simp at later
    | cons next rest =>
      -- The boundary after the start is the stop: one before it would lie inside.
      have first : next.1 = b.stop := by
        rcases List.mem_cons.1 later with same | mem
        · exact (congrArg Prod.fst same).symm
        · have below := (List.pairwise_cons.1 tail).1 _ mem
          have get : m.get? next.1 = some next.2 := by
            rw [SortedMap.get?_eq_some_iff, entries]
            simp
          rw [none next.1 (above next List.mem_cons_self) below] at get
          cases get
      have block : between (b.start, b.tag) next = b := by
        rw [between, first]
      rw [blocks, entries, ← block]
      exact between_mem_zipWith before rest _ next

/-- The tag and the end of a block follow from its start. -/
theorem eq_of_mem_blocks (hb : b ∈ m.blocks) (hc : c ∈ m.blocks) (start : b.start = c.start) :
    b = c := by
  obtain ⟨lowerB, ltB, ⟨upperB, stopB⟩, noneB⟩ := mem_blocks_iff.1 hb
  obtain ⟨lowerC, ltC, ⟨upperC, stopC⟩, noneC⟩ := mem_blocks_iff.1 hc
  have tag : b.tag = c.tag := by
    rw [start, lowerC] at lowerB
    exact (Option.some.inj lowerB).symm
  have stop : b.stop = c.stop := by
    rcases Nat.lt_trichotomy b.stop c.stop with lt | eq | gt
    · rw [noneC b.stop (by omega) lt] at stopB
      cases stopB
    · exact eq
    · rw [noneB c.stop (by omega) gt] at stopC
      cases stopC
  cases b
  cases c
  simp_all

theorem stop_eq_start_of_mem_zip {l : List (Nat × Tag)} {pair : Block × Block}
    (h : pair ∈ (List.zipWith between l l.tail).zip (List.zipWith between l l.tail).tail) :
    pair.1.stop = pair.2.start := by
  induction l with
  | nil => simp at h
  | cons first rest ih =>
    match rest, ih, h with
    | [], _, h => simp at h
    | [second], _, h => simp at h
    | second :: third :: rest, ih, h =>
      rcases List.mem_cons.1 h with rfl | h
      · rfl
      · exact ih h

/-- Neighbouring blocks share a boundary. -/
theorem neighbours_of_mem_zip {pair : Block × Block} (h : pair ∈ m.blocks.zip m.blocks.tail) :
    pair.1 ∈ m.blocks ∧ pair.2 ∈ m.blocks ∧ pair.1.stop = pair.2.start := by
  obtain ⟨first, second⟩ := List.of_mem_zip h
  exact ⟨first, List.mem_of_mem_tail second, stop_eq_start_of_mem_zip h⟩

/-! ### The boundary that governs an address -/

/-- No boundary lies after `k` up to `a`. -/
def Governs (m : TagMap) (k a : Nat) : Prop := k ≤ a ∧ ∀ j, k < j → j ≤ a → m.get? j = none

theorem Governs.le (h : m.Governs k a) : k ≤ a := h.1

/-- The start of a block governs the addresses of the block. -/
theorem governs_of_mem_blocks (hb : b ∈ m.blocks) (above : b.start ≤ a) (below : a < b.stop) :
    m.Governs b.start a :=
  ⟨above, fun _ lower upper => get?_eq_none_of_mem_blocks hb lower (by omega)⟩

/-- A boundary below the end of a block lies at or below its start. -/
theorem le_start_of_isSome (hb : b ∈ m.blocks) (key : (m.get? k).isSome) (lt : k < b.stop) :
    k ≤ b.start := by
  by_contra above
  rw [get?_eq_none_of_mem_blocks hb (by omega) lt] at key
  cases key

/-- An address lies in one block only. -/
theorem eq_of_mem_of_mem (hb : b ∈ m.blocks) (hc : c ∈ m.blocks) (aboveB : b.start ≤ a)
    (belowB : a < b.stop) (aboveC : c.start ≤ a) (belowC : a < c.stop) : b = c := by
  have keyB := get?_start_of_mem_blocks hb
  have keyC := get?_start_of_mem_blocks hc
  refine eq_of_mem_blocks hb hc (Nat.le_antisymm ?_ ?_)
  · exact le_start_of_isSome hc (by simp [keyB]) (by omega)
  · exact le_start_of_isSome hb (by simp [keyC]) (by omega)

theorem le_of_mem_getLast? {l : List (Nat × Tag)} (sorted : l.Pairwise fun x y => x.1 < y.1)
    {last e : Nat × Tag} (found : l.getLast? = some last) (mem : e ∈ l) : e.1 ≤ last.1 := by
  obtain ⟨init, rfl⟩ := List.getLast?_eq_some_iff.1 found
  rcases List.mem_append.1 mem with mem | mem
  · exact Nat.le_of_lt ((List.pairwise_append.1 sorted).2.2 e mem last List.mem_cons_self)
  · exact Nat.le_of_eq (congrArg Prod.fst (List.mem_singleton.1 mem))

/-- The tag at an address is that of the boundary that governs it. -/
theorem tagAt?_eq_some_iff :
    m.tagAt? a = some t ↔ ∃ k, m.Governs k a ∧ m.get? k = some t := by
  have sorted : (m.entries.filter (·.1 ≤ a)).Pairwise fun x y => x.1 < y.1 := m.ascending.filter _
  -- The entries up to the address are sorted, so their last one is the boundary that governs it.
  have mem : ∀ {j u}, (j, u) ∈ m.entries.filter (·.1 ≤ a) ↔ m.get? j = some u ∧ j ≤ a := by
    intro j u
    rw [List.mem_filter, SortedMap.get?_eq_some_iff, decide_eq_true_iff]
  rw [tagAt?, Option.map_eq_some_iff]
  constructor
  · rintro ⟨last, found, rfl⟩
    obtain ⟨key, le⟩ := mem.1 (List.mem_of_getLast? found)
    refine ⟨last.1, ⟨le, fun j above below => ?_⟩, key⟩
    rw [Option.eq_none_iff_forall_ne_some]
    intro u hj
    have := le_of_mem_getLast? sorted found (mem.2 ⟨hj, below⟩)
    simp only at this
    omega
  · rintro ⟨k, ⟨le, none⟩, key⟩
    have inside := mem.2 ⟨key, le⟩
    cases found : (m.entries.filter (·.1 ≤ a)).getLast? with
    | none =>
      rw [List.getLast?_eq_none_iff.1 found] at inside
      cases inside
    | some last =>
      obtain ⟨key', le'⟩ := mem.1 (List.mem_of_getLast? found)
      have upper := le_of_mem_getLast? sorted found inside
      have same : last.1 = k := by
        rcases Nat.eq_or_lt_of_le upper with eq | lt
        · exact eq.symm
        · rw [none _ lt le'] at key'
          cases key'
      rw [same, key] at key'
      exact ⟨last, rfl, (Option.some.inj key').symm⟩

theorem Governs.tagAt?_eq (h : m.Governs k a) (key : m.get? k = some t) : m.tagAt? a = some t :=
  tagAt?_eq_some_iff.2 ⟨k, h, key⟩

/-- With no boundary between them, two addresses have the same tag. -/
theorem Governs.tagAt?_eq_tagAt? (h : m.Governs x a) : m.tagAt? a = m.tagAt? x := by
  ext t
  rw [tagAt?_eq_some_iff, tagAt?_eq_some_iff]
  constructor
  · rintro ⟨k, ⟨le, none⟩, key⟩
    have : k ≤ x := by
      by_contra above
      rw [h.2 k (by omega) le] at key
      cases key
    exact ⟨k, ⟨this, fun j lower upper => none j lower (Nat.le_trans upper h.le)⟩, key⟩
  · rintro ⟨k, ⟨le, none⟩, key⟩
    refine ⟨k, ⟨Nat.le_trans le h.le, fun j lower upper => ?_⟩, key⟩
    by_cases above : x < j
    · exact h.2 j above upper
    · exact none j lower (by omega)

/-- The tag at an address of a block is that of the block. -/
theorem tagAt?_of_mem_blocks (hb : b ∈ m.blocks) (above : b.start ≤ a) (below : a < b.stop) :
    m.tagAt? a = some b.tag :=
  (governs_of_mem_blocks hb above below).tagAt?_eq (get?_start_of_mem_blocks hb)

/-- The tag at a boundary is its own. -/
theorem tagAt?_of_get? (key : m.get? a = some t) : m.tagAt? a = some t :=
  Governs.tagAt?_eq ⟨Nat.le_refl a, fun _ above below => by omega⟩ key

/-- From any boundary on there is a tag. -/
theorem isSome_tagAt? (key : m.get? k = some t) (le : k ≤ a) : (m.tagAt? a).isSome := by
  have mem : (k, t) ∈ m.entries.filter (·.1 ≤ a) :=
    List.mem_filter.2 ⟨SortedMap.get?_eq_some_iff.1 key, decide_eq_true le⟩
  rw [tagAt?, List.getLast?_eq_some_getLast (List.ne_nil_of_mem mem)]
  rfl

/-- A governed address lies in a block, if a boundary lies above it. -/
theorem exists_mem_blocks (h : m.Governs k a) (key : m.get? k = some t)
    (upper : ∃ j, a < j ∧ (m.get? j).isSome) :
    ∃ b ∈ m.blocks, b.start = k ∧ b.tag = t ∧ a < b.stop := by
  -- The block ends at the least boundary above the address.
  obtain ⟨above, bound⟩ := Nat.find_spec upper
  refine ⟨⟨k, Nat.find upper, t⟩, ?_, rfl, rfl, above⟩
  refine mem_blocks_iff.2 ⟨key, Nat.lt_of_le_of_lt h.le above, Option.isSome_iff_exists.1 bound, ?_⟩
  intro j lower below
  by_cases le : j ≤ a
  · exact h.2 j lower le
  · have := Nat.find_min upper below
    simpa [Nat.lt_of_not_le le] using this

/-- An address between two boundaries lies in a block. -/
theorem exists_mem_blocks_of_le (key : m.get? k = some t) (le : k ≤ a)
    (upper : ∃ j, a < j ∧ (m.get? j).isSome) : ∃ b ∈ m.blocks, b.start ≤ a ∧ a < b.stop := by
  -- The boundary that the tag at the address comes from starts the block.
  obtain ⟨u, found⟩ := Option.isSome_iff_exists.1 (isSome_tagAt? key le)
  obtain ⟨j, governs, key⟩ := tagAt?_eq_some_iff.1 found
  obtain ⟨b, hb, rfl, -, below⟩ := exists_mem_blocks governs key upper
  exact ⟨b, hb, governs.le, below⟩

/-! ### A boundary set or removed -/

/-- Where a new boundary governs, its tag holds. -/
theorem tagAt?_insert_of_governs (h : m.Governs x a) : tagAt? (m.insert x u) a = some u := by
  refine tagAt?_eq_some_iff.2 ⟨x, ⟨h.le, fun j above below => ?_⟩, by simp⟩
  rw [SortedMap.get?_insert, if_neg (by omega)]
  exact h.2 j above below

/-- Where a new boundary does not govern, the tag is as before. -/
theorem tagAt?_insert_of_not_governs (h : ¬ m.Governs x a) :
    tagAt? (m.insert x u) a = m.tagAt? a := by
  -- The same boundaries govern the address in both maps.
  have governs : ∀ k t, Governs (m.insert x u) k a ∧ (m.insert x u).get? k = some t ↔
      m.Governs k a ∧ m.get? k = some t := by
    intro k t
    constructor
    · rintro ⟨⟨le, none⟩, key⟩
      have old : ∀ j, k < j → j ≤ a → m.get? j = .none := by
        intro j above below
        have := none j above below
        rw [SortedMap.get?_insert] at this
        split at this
        · cases this
        · exact this
      by_cases same : k = x
      · exact absurd (same ▸ ⟨le, old⟩) h
      · rw [SortedMap.get?_insert, if_neg same] at key
        exact ⟨⟨le, old⟩, key⟩
    · rintro ⟨⟨le, none⟩, key⟩
      -- The new boundary lies at or below `k`, or above the address.
      have apart : k ≠ x ∧ ∀ j, k < j → j ≤ a → j ≠ x := by
        constructor
        · rintro rfl
          exact h ⟨le, none⟩
        · rintro j above below rfl
          exact h ⟨below, fun i lower upper => none i (by omega) upper⟩
      refine ⟨⟨le, fun j above below => ?_⟩, ?_⟩
      · rw [SortedMap.get?_insert, if_neg (apart.2 j above below)]
        exact none j above below
      · rw [SortedMap.get?_insert, if_neg apart.1]
        exact key
  ext t
  rw [tagAt?_eq_some_iff, tagAt?_eq_some_iff]
  exact exists_congr fun k => governs k t

/-- A boundary set to the tag that holds there changes no tag. -/
theorem tagAt?_insert_of_tagAt? (same : m.tagAt? x = some u) :
    tagAt? (m.insert x u) a = m.tagAt? a := by
  by_cases governs : m.Governs x a
  · rw [tagAt?_insert_of_governs governs, governs.tagAt?_eq_tagAt?, same]
  · exact tagAt?_insert_of_not_governs governs

/-- Where the boundary after a block governed, the tag of the block holds once it is removed. -/
theorem tagAt?_erase_of_governs (hb : b ∈ m.blocks) (h : m.Governs b.stop a) :
    tagAt? (m.erase b.stop) a = some b.tag := by
  obtain ⟨key, lt, -, none⟩ := mem_blocks_iff.1 hb
  have := h.le
  refine tagAt?_eq_some_iff.2 ⟨b.start, ⟨by omega, fun j above below => ?_⟩, ?_⟩
  · rw [SortedMap.get?_erase]
    split
    · rfl
    · rcases Nat.lt_or_ge j b.stop with lt | ge
      · exact none j above lt
      · exact h.2 j (by omega) below
  · rw [SortedMap.get?_erase, if_neg (by omega)]
    exact key

/-- Where a boundary did not govern, its removal changes nothing. -/
theorem tagAt?_erase_of_not_governs (h : ¬ m.Governs x a) :
    tagAt? (m.erase x) a = m.tagAt? a := by
  by_cases key : m.get? x = none
  · have same : m.erase x = m := by
      refine SortedMap.ext_get? fun j => ?_
      rw [SortedMap.get?_erase]
      split
      · next eq => rw [eq, key]
      · rfl
    rw [same]
  · -- Removal is undone by an insertion, which changes nothing there either.
    have restored : (m.erase x).insert x ((m.get? x).getD default) = m := by
      refine SortedMap.ext_get? fun j => ?_
      rw [SortedMap.get?_insert, SortedMap.get?_erase]
      split
      · next eq =>
        obtain ⟨t, get⟩ := Option.ne_none_iff_exists'.1 key
        rw [eq, get]
        rfl
      · rfl
    have not : ¬ Governs (m.erase x) x a := by
      rintro ⟨le, none⟩
      refine h ⟨le, fun j above below => ?_⟩
      have := none j above below
      rwa [SortedMap.get?_erase, if_neg (by omega)] at this
    rw [← tagAt?_insert_of_not_governs not, restored]

/-- The boundary between two blocks of one tag can be removed without changing a tag. -/
theorem tagAt?_erase_of_mem_blocks (hb : b ∈ m.blocks) (hc : c ∈ m.blocks)
    (shared : b.stop = c.start) (same : b.tag = c.tag) :
    tagAt? (m.erase c.start) a = m.tagAt? a := by
  have key := get?_start_of_mem_blocks hc
  rw [← shared] at key ⊢
  by_cases governs : m.Governs b.stop a
  · rw [tagAt?_erase_of_governs hb governs, governs.tagAt?_eq key, same]
  · exact tagAt?_erase_of_not_governs governs

end MemoryAtlas.TagMap
