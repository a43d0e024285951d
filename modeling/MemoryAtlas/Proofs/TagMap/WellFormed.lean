import MemoryAtlas.Proofs.TagMap.Lookup

/-!
# Well-formed tag maps

A map of a range has its first boundary at the start of the range and its last at the end, and the
end alone has the tag for ends. An edit inside the range keeps this: it sets a boundary below the
end to a tag of a block, or removes a boundary between the two ends. So a phase of classification
keeps maps well-formed as soon as all of its edits are inside the range.

## Main definitions

* `TagMap.WellFormed`: the map covers a range and nothing else.
* `Edit.Inside`: the edit concerns the inside of a range.

## Main results

* `TagMap.wellFormed_iff`: well-formedness in terms of look-ups.
* `TagMap.WellFormed.edit`: edits inside the range keep a map well-formed.
* `TagMap.WellFormed.exists_mem_blocks`: every address of the range lies in a block.
-/

namespace MemoryAtlas

namespace TagMap

variable {m : TagMap} {b : Block} {start stop a : Nat} {t : Tag} {edits : List Edit}

/-- The first boundary of the map is `start`, the last is `stop`, and `stop` alone is tagged as an
end. -/
structure WellFormed (m : TagMap) (start stop : Nat) : Prop where
  /-- The first boundary. -/
  first : m.keys.head? = some start
  /-- The last boundary and its tag. -/
  last : m.entries.getLast? = some (stop, .limit)
  /-- No other boundary is an end. -/
  sole : ∀ e ∈ m.entries, e.2 = .limit → e.1 = stop

instance : Decidable (m.WellFormed start stop) :=
  decidable_of_iff (m.keys.head? = some start ∧ m.entries.getLast? = some (stop, .limit) ∧
      ∀ e ∈ m.entries, e.2 = .limit → e.1 = stop)
    ⟨fun h => ⟨h.1, h.2.1, h.2.2⟩, fun h => ⟨h.first, h.last, h.sole⟩⟩

theorem keys_head?_eq_some_iff :
    m.keys.head? = some start ↔
      (∃ t, m.get? start = some t) ∧ ∀ a t, m.get? a = some t → start ≤ a := by
  obtain ⟨entries, sorted⟩ := m
  cases entries with
  | nil => simp [SortedMap.keys, SortedMap.get?, SortedMap.lookup]
  | cons e rest =>
    have above := (List.pairwise_cons.1 sorted).1
    simp only [SortedMap.keys, List.map_cons, List.head?_cons, Option.some.injEq,
      SortedMap.get?_eq_some_iff, List.mem_cons]
    constructor
    · rintro rfl
      refine ⟨⟨e.2, .inl rfl⟩, ?_⟩
      rintro a t (same | mem)
      · exact Nat.le_of_eq (congrArg Prod.fst same).symm
      · exact Nat.le_of_lt (above _ mem)
    · rintro ⟨⟨t, same | mem⟩, least⟩
      · exact (congrArg Prod.fst same).symm
      · have := least e.1 e.2 (.inl rfl)
        have := above _ mem
        simp only at this
        omega

theorem entries_getLast?_eq_some_iff :
    m.entries.getLast? = some (stop, t) ↔
      m.get? stop = some t ∧ ∀ a u, m.get? a = some u → a ≤ stop := by
  constructor
  · intro last
    refine ⟨SortedMap.get?_eq_some_iff.2 (List.mem_of_getLast? last), fun a u key => ?_⟩
    exact le_of_mem_getLast? m.ascending last (SortedMap.get?_eq_some_iff.1 key)
  · rintro ⟨key, greatest⟩
    have mem := SortedMap.get?_eq_some_iff.1 key
    cases found : m.entries.getLast? with
    | none =>
      rw [List.getLast?_eq_none_iff.1 found] at mem
      cases mem
    | some last =>
      have key' := SortedMap.get?_eq_some_iff.2 (List.mem_of_getLast? found)
      have le := greatest last.1 last.2 key'
      have ge := le_of_mem_getLast? m.ascending found mem
      have same : last.1 = stop := Nat.le_antisymm le ge
      rw [same, key] at key'
      rw [← same, Option.some.inj key']

/-- Well-formedness in terms of look-ups. -/
theorem wellFormed_iff :
    m.WellFormed start stop ↔ (∃ t, m.get? start = some t) ∧ m.get? stop = some .limit ∧
      (∀ a t, m.get? a = some t → start ≤ a ∧ a ≤ stop) ∧
        ∀ a, m.get? a = some .limit → a = stop := by
  constructor
  · rintro ⟨first, last, sole⟩
    obtain ⟨key, least⟩ := keys_head?_eq_some_iff.1 first
    obtain ⟨key', greatest⟩ := entries_getLast?_eq_some_iff.1 last
    exact ⟨key, key', fun a t h => ⟨least a t h, greatest a t h⟩,
      fun a h => sole _ (SortedMap.get?_eq_some_iff.1 h) rfl⟩
  · rintro ⟨key, key', bounds, sole⟩
    refine ⟨keys_head?_eq_some_iff.2 ⟨key, fun a t h => (bounds a t h).1⟩,
      entries_getLast?_eq_some_iff.2 ⟨key', fun a t h => (bounds a t h).2⟩, ?_⟩
    rintro ⟨a, t⟩ mem rfl
    exact sole a (SortedMap.get?_eq_some_iff.2 mem)

namespace WellFormed

theorem get?_start (h : m.WellFormed start stop) : ∃ t, m.get? start = some t :=
  (wellFormed_iff.1 h).1

theorem get?_stop (h : m.WellFormed start stop) : m.get? stop = some .limit :=
  (wellFormed_iff.1 h).2.1

theorem bounds (h : m.WellFormed start stop) (key : m.get? a = some t) : start ≤ a ∧ a ≤ stop :=
  (wellFormed_iff.1 h).2.2.1 a t key

theorem eq_stop (h : m.WellFormed start stop) (key : m.get? a = some .limit) : a = stop :=
  (wellFormed_iff.1 h).2.2.2 a key

/-- A boundary with the tag of a block lies below the end. -/
theorem lt_stop (h : m.WellFormed start stop) (key : m.get? a = some t) (tag : t ≠ .limit) :
    a < stop := by
  refine Nat.lt_of_le_of_ne (h.bounds key).2 ?_
  rintro rfl
  rw [h.get?_stop] at key
  exact tag (Option.some.inj key).symm

/-- An address with the tag of a block lies in the range. -/
theorem bounds_of_tagAt? (h : m.WellFormed start stop) (found : m.tagAt? a = some t)
    (tag : t ≠ .limit) : start ≤ a ∧ a < stop := by
  obtain ⟨k, governs, key⟩ := tagAt?_eq_some_iff.1 found
  refine ⟨Nat.le_trans (h.bounds key).1 governs.le, Nat.lt_of_not_le fun le => ?_⟩
  -- The end of the range would come between the address and its boundary.
  have none := governs.2 stop (h.lt_stop key tag) le
  rw [h.get?_stop] at none
  cases none

/-- A block lies in the range and is no end. -/
theorem of_mem_blocks (h : m.WellFormed start stop) (hb : b ∈ m.blocks) :
    start ≤ b.start ∧ b.start < b.stop ∧ b.stop ≤ stop ∧ b.tag ≠ .limit := by
  have lt := start_lt_stop_of_mem_blocks hb
  obtain ⟨upper, key⟩ := get?_stop_of_mem_blocks hb
  have lower := get?_start_of_mem_blocks hb
  refine ⟨(h.bounds lower).1, lt, (h.bounds key).2, fun tag => ?_⟩
  rw [tag] at lower
  have := h.eq_stop lower
  have := (h.bounds key).2
  omega

/-- Without a boundary inside, the range is one block. -/
theorem entries_eq_pair (h : m.WellFormed start stop) (lt : start < stop)
    (key : m.get? start = some t) (none : ∀ a, start < a → a < stop → m.get? a = none) :
    m.entries = [(start, t), (stop, .limit)] := by
  have sorted : [(start, t), (stop, Tag.limit)].Pairwise fun x y => x.1 < y.1 := by simpa using lt
  have same : m = ⟨_, sorted⟩ := by
    refine SortedMap.ext_get? fun a => Option.ext fun u => ?_
    rw [SortedMap.get?_eq_some_iff (m := ⟨_, sorted⟩), List.mem_cons, List.mem_singleton,
      Prod.mk.injEq, Prod.mk.injEq]
    constructor
    · intro found
      have bounds := h.bounds found
      rcases Nat.eq_or_lt_of_le bounds.1 with rfl | above
      · rw [key] at found
        exact .inl ⟨rfl, (Option.some.inj found).symm⟩
      · rcases Nat.eq_or_lt_of_le bounds.2 with rfl | below
        · rw [h.get?_stop] at found
          exact .inr ⟨rfl, (Option.some.inj found).symm⟩
        · rw [none a above below] at found
          cases found
    · rintro (⟨rfl, rfl⟩ | ⟨rfl, rfl⟩)
      · exact key
      · exact h.get?_stop
  rw [same]

/-- Every address of the range lies in a block. -/
theorem exists_mem_blocks (h : m.WellFormed start stop) (above : start ≤ a) (below : a < stop) :
    ∃ b ∈ m.blocks, b.start ≤ a ∧ a < b.stop := by
  obtain ⟨t, key⟩ := h.get?_start
  exact exists_mem_blocks_of_le key above ⟨stop, below, by simp [h.get?_stop]⟩

end WellFormed

/-! ### Edits -/

/-- A boundary of an edited map is as it was or set by an edit. -/
theorem get?_edit_eq_some (key : (m.edit edits).get? a = some t) :
    m.get? a = some t ∨ .assign a t ∈ edits := by
  induction edits generalizing m with
  | nil => exact .inl key
  | cons e edits ih =>
    rcases ih key with key | mem
    · cases e with
      | assign x u =>
        rw [apply, SortedMap.get?_insert] at key
        split at key
        · next same =>
          cases key
          exact .inr (by simp [same])
        · exact .inl key
      | clear x =>
        rw [apply, SortedMap.get?_erase] at key
        split at key
        · cases key
        · exact .inl key
    · exact .inr (List.mem_cons_of_mem _ mem)

/-- A boundary that no edit removes is still there. -/
theorem isSome_get?_edit (key : (m.get? a).isSome) (kept : .clear a ∉ edits) :
    ((m.edit edits).get? a).isSome := by
  induction edits generalizing m with
  | nil => exact key
  | cons e edits ih =>
    rw [List.mem_cons, not_or] at kept
    refine ih ?_ kept.2
    cases e with
    | assign x u =>
      rw [apply, SortedMap.get?_insert]
      split
      · rfl
      · exact key
    | clear x =>
      rw [apply, SortedMap.get?_erase, if_neg fun same => kept.1 (by rw [same])]
      exact key

/-- A boundary that no edit concerns is as it was. -/
theorem get?_edit_of_forall_ne (unset : ∀ t, .assign a t ∉ edits) (kept : .clear a ∉ edits) :
    (m.edit edits).get? a = m.get? a := by
  induction edits generalizing m with
  | nil => rfl
  | cons e edits ih =>
    rw [List.mem_cons, not_or] at kept
    rw [edit_cons, ih (fun t mem => unset t (List.mem_cons_of_mem _ mem)) kept.2]
    cases e with
    | assign x u =>
      rw [apply, SortedMap.get?_insert, if_neg]
      rintro rfl
      exact unset u List.mem_cons_self
    | clear x =>
      rw [apply, SortedMap.get?_erase, if_neg]
      rintro rfl
      exact kept.1 rfl

/-- A boundary that is set and not removed has a tag that was set. -/
theorem exists_get?_edit (set : .assign a t ∈ edits) (kept : .clear a ∉ edits) :
    ∃ u, .assign a u ∈ edits ∧ (m.edit edits).get? a = some u := by
  induction edits generalizing m t with
  | nil => cases set
  | cons e edits ih =>
    rw [List.mem_cons, not_or] at kept
    -- The last edit that sets the boundary decides.
    by_cases later : ∃ u, .assign a u ∈ edits
    · obtain ⟨u, mem⟩ := later
      obtain ⟨v, mem, key⟩ := ih mem kept.2
      exact ⟨v, List.mem_cons_of_mem _ mem, key⟩
    · rcases List.mem_cons.1 set with rfl | mem
      · refine ⟨t, List.mem_cons_self, ?_⟩
        rw [edit_cons, get?_edit_of_forall_ne (fun u mem => later ⟨u, mem⟩) kept.2, apply,
          SortedMap.get?_insert, if_pos rfl]
      · exact absurd ⟨t, mem⟩ later

end TagMap

/-- The edit sets a boundary of a block in the range, or removes one between its ends. -/
def Edit.Inside (start stop : Nat) : Edit → Prop
  | .assign a t => start ≤ a ∧ a < stop ∧ t ≠ .limit
  | .clear a => start < a ∧ a < stop

/-- Edits inside the range keep a map well-formed. -/
theorem TagMap.WellFormed.edit {m : TagMap} {start stop : Nat} {edits : List Edit}
    (h : m.WellFormed start stop) (inside : ∀ e ∈ edits, e.Inside start stop) :
    (m.edit edits).WellFormed start stop := by
  -- Both ends of the range keep their boundaries: neither is removed, and the end is not set.
  have cleared : ∀ a, .clear a ∈ edits → start < a ∧ a < stop := fun a mem => inside _ mem
  have assigned : ∀ a t, .assign a t ∈ edits → start ≤ a ∧ a < stop ∧ t ≠ .limit :=
    fun a t mem => inside _ mem
  obtain ⟨t, first⟩ := h.get?_start
  refine wellFormed_iff.2 ⟨?_, ?_, fun a t key => ?_, fun a key => ?_⟩
  · refine Option.isSome_iff_exists.1 (isSome_get?_edit (by simp [first]) fun mem => ?_)
    have := cleared _ mem
    omega
  · rw [get?_edit_of_forall_ne (fun t mem => ?_) fun mem => ?_]
    · exact h.get?_stop
    · have := assigned _ _ mem
      omega
    · have := cleared _ mem
      omega
  · rcases get?_edit_eq_some key with key | mem
    · exact h.bounds key
    · have := assigned _ _ mem
      omega
  · rcases get?_edit_eq_some key with key | mem
    · exact h.eq_stop key
    · exact absurd rfl (assigned _ _ mem).2.2

end MemoryAtlas
