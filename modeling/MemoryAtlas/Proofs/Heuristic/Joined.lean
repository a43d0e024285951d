import MemoryAtlas.Proofs.Phases.Inside
import MemoryAtlas.Proofs.TagMap.ByBlock

/-!
# Joined data

Joining data goes by runs of boundaries, but its effect can be told at each boundary: it is removed
if there is data on both sides of it, and the first block of data that loses the boundary after it
becomes bytes. So no two blocks of data are neighbours any more, and every other block is as it was.

## Main definitions

* `Heuristic.DataMeet`: there is data on both sides of a boundary.

## Main results

* `Heuristic.clear_mem_mergeData`, `Heuristic.assign_mem_mergeData`: the edits that join data.
* `Heuristic.mem_blocks_joined`: where the blocks come from.
* `Heuristic.not_dataMeet_joined`, `Heuristic.joined_apart`: no two neighbours are data.
* `Heuristic.mergeData_eq_nil`: where no two neighbours are data there is nothing to join.
-/

namespace MemoryAtlas.Heuristic

open TagMap

variable {tags : TagMap} {b c : Block} {x : Nat} {u : Tag} {first d e : Nat × Tag}
  {rest run : List (Nat × Tag)}

/-- Data ends and starts at a boundary. -/
def DataMeet (tags : TagMap) (x : Nat) : Prop :=
  (∃ b ∈ tags.blocks, b.stop = x ∧ b.tag.isData = true) ∧
    ∃ u, tags.get? x = some u ∧ u.isData = true

/-! ### Runs of data -/

theorem between_mem_blocks (before after : List (Nat × Tag))
    (entries : tags.entries = before ++ d :: e :: after) : between d e ∈ tags.blocks := by
  rw [blocks, entries]
  exact between_mem_zipWith before after d e

theorem exists_append_of_mem_dataRuns (mem : run ∈ dataRuns tags.entries) :
    ∃ before after, tags.entries = before ++ (run ++ after) := by
  obtain ⟨before, after, eq⟩ := List.append_of_mem mem
  refine ⟨before.flatten, after.flatten, ?_⟩
  rw [← flatten_dataRuns tags.entries, eq, List.flatten_append, List.flatten_cons]

/-- Every boundary is in a run. -/
theorem exists_mem_dataRuns (key : tags.get? x = some u) :
    ∃ first rest, first :: rest ∈ dataRuns tags.entries ∧ (first = (x, u) ∨ (x, u) ∈ rest) := by
  have mem := SortedMap.get?_eq_some_iff.1 key
  rw [← flatten_dataRuns tags.entries] at mem
  obtain ⟨run, hrun, mem⟩ := List.mem_flatten.1 mem
  cases run with
  | nil => cases mem
  | cons first rest => exact ⟨first, rest, hrun, (List.mem_cons.1 mem).imp_left Eq.symm⟩

/-- A later boundary of a run ends a block of data of that run, and starts another one. -/
theorem exists_block_of_mem_tail (mem : first :: rest ∈ dataRuns tags.entries) (he : e ∈ rest) :
    ∃ d ∈ first :: rest, between d e ∈ tags.blocks ∧ d.2.isData = true ∧ e.2.isData = true := by
  obtain ⟨earlier, later, rfl⟩ := List.append_of_mem he
  -- The boundary before it in the run.
  obtain ⟨init, d, eq⟩ : ∃ init d, first :: earlier = init ++ [d] :=
    ⟨_, _, (List.dropLast_append_getLast (List.cons_ne_nil first earlier)).symm⟩
  have run : first :: (earlier ++ e :: later) = init ++ d :: e :: later := by
    rw [← List.cons_append, eq, List.append_assoc, List.singleton_append]
  have chain := List.isChain_of_mem_splitBy mem
  obtain ⟨before, after, entries⟩ := exists_append_of_mem_dataRuns mem
  rw [run] at chain entries ⊢
  have data := (List.isChain_cons_cons.1 (List.isChain_append.1 chain).2.1).1
  rw [Bool.and_eq_true] at data
  refine ⟨d, by simp, ?_, data⟩
  exact between_mem_blocks (before ++ init) (later ++ after) (by simp [entries])

theorem dataMeet_of_mem_tail (mem : first :: rest ∈ dataRuns tags.entries) (he : e ∈ rest) :
    DataMeet tags e.1 := by
  obtain ⟨d, -, hb, data, data'⟩ := exists_block_of_mem_tail mem he
  obtain ⟨before, after, entries⟩ := exists_append_of_mem_dataRuns mem
  refine ⟨⟨_, hb, rfl, data⟩, e.2, SortedMap.get?_eq_some_iff.2 ?_, data'⟩
  rw [entries]
  simp [he]

/-- Only one block ends at a boundary. -/
theorem eq_of_stop_eq_stop (hb : b ∈ tags.blocks) (hc : c ∈ tags.blocks) (same : b.stop = c.stop) :
    b = c := by
  have ltB := start_lt_stop_of_mem_blocks hb
  have ltC := start_lt_stop_of_mem_blocks hc
  exact eq_of_mem_of_mem (a := b.stop - 1) hb hc (by omega) (by omega) (by omega) (by omega)

/-- No block ends at the first boundary. -/
theorem stop_ne_of_entries_cons (entries : tags.entries = first :: rest) (hb : b ∈ tags.blocks) :
    b.stop ≠ first.1 := by
  have sorted := tags.ascending
  have mem := SortedMap.get?_eq_some_iff.1 (get?_start_of_mem_blocks hb)
  have lt := start_lt_stop_of_mem_blocks hb
  rw [entries] at sorted mem
  rcases List.mem_cons.1 mem with rfl | mem
  · exact Nat.ne_of_gt lt
  · exact Nat.ne_of_gt (Nat.lt_trans ((List.pairwise_cons.1 sorted).1 _ mem) lt)

/-- Data does not meet where a run starts. -/
theorem not_dataMeet_of_head (mem : first :: rest ∈ dataRuns tags.entries) :
    ¬ DataMeet tags first.1 := by
  rintro ⟨⟨b, hb, stop, data⟩, u, key, data'⟩
  obtain ⟨earlier, later, eq⟩ := List.append_of_mem mem
  have entries : tags.entries = earlier.flatten ++ first :: (rest ++ later.flatten) := by
    rw [← flatten_dataRuns tags.entries, eq, List.flatten_append, List.flatten_cons,
      List.cons_append]
  have tag : first.2 = u := by
    have key' : tags.get? first.1 = some first.2 :=
      SortedMap.get?_eq_some_iff.2 (by rw [entries]; simp)
    rw [key] at key'
    exact (Option.some.inj key').symm
  rcases List.eq_nil_or_concat earlier with rfl | ⟨init, before, rfl⟩
  · -- Before the first run there is no block.
    exact stop_ne_of_entries_cons entries hb stop
  · -- The last boundary of the run before starts the block that ends here.
    have outer : (dataRuns tags.entries).IsChain _ := List.isChain_getLast_head_splitBy _ _
    rw [eq, List.concat_eq_append, List.append_assoc] at outer
    obtain ⟨nonempty, _, apart⟩ :=
      (List.isChain_cons_cons.1 (List.isChain_append.1 outer).2.1).1
    rw [List.head_cons, Bool.and_eq_false_iff] at apart
    have parts := List.dropLast_append_getLast nonempty
    have ends : between (before.getLast nonempty) first ∈ tags.blocks := by
      refine between_mem_blocks (init.flatten ++ before.dropLast) (rest ++ later.flatten) ?_
      rw [entries, List.concat_eq_append, List.flatten_append, List.flatten_singleton]
      conv_lhs => rw [← parts]
      simp
    have before_data : (before.getLast nonempty).2 = b.tag :=
      congrArg Block.tag (eq_of_stop_eq_stop ends hb stop.symm)
    rw [before_data, tag, data, data'] at apart
    rcases apart with h | h <;> cases h

/-! ### The edits that join data -/

/-- The boundaries where data meets are removed. -/
theorem clear_mem_mergeData : .clear x ∈ mergeData tags ↔ DataMeet tags x := by
  constructor
  · intro mem
    obtain ⟨run, hrun, mem⟩ := List.mem_flatMap.1 mem
    cases run with
    | nil => cases mem
    | cons first rest =>
      obtain ⟨e, he, mem⟩ := List.mem_flatMap.1 mem
      simp only [List.mem_cons, reduceCtorEq, Edit.clear.injEq, List.not_mem_nil, or_false,
        false_or] at mem
      rw [mem]
      exact dataMeet_of_mem_tail hrun he
  · intro meet
    obtain ⟨u, key, -⟩ := meet.2
    obtain ⟨first, rest, hrun, rfl | mem⟩ := exists_mem_dataRuns key
    · exact absurd meet (not_dataMeet_of_head hrun)
    · exact List.mem_flatMap.2 ⟨_, hrun, List.mem_flatMap.2 ⟨_, mem, by simp⟩⟩

/-- A boundary is set to bytes if it stays and the one after it goes. -/
theorem assign_mem_mergeData :
    .assign x u ∈ mergeData tags ↔
      u = .bytes ∧ ¬ DataMeet tags x ∧ ∃ b ∈ tags.blocks, b.start = x ∧ DataMeet tags b.stop := by
  constructor
  · intro mem
    obtain ⟨run, hrun, mem⟩ := List.mem_flatMap.1 mem
    cases run with
    | nil => cases mem
    | cons first rest =>
      obtain ⟨e, he, mem⟩ := List.mem_flatMap.1 mem
      simp only [List.mem_cons, reduceCtorEq, Edit.assign.injEq, List.not_mem_nil, or_false] at mem
      obtain ⟨rfl, rfl⟩ := mem
      refine ⟨rfl, not_dataMeet_of_head hrun, ?_⟩
      obtain ⟨second, later, rfl⟩ := List.exists_cons_of_ne_nil (List.ne_nil_of_mem he)
      obtain ⟨before, after, entries⟩ := exists_append_of_mem_dataRuns hrun
      exact ⟨_, between_mem_blocks before (later ++ after) entries, rfl,
        dataMeet_of_mem_tail hrun List.mem_cons_self⟩
  · rintro ⟨rfl, stays, b, hb, rfl, meet⟩
    -- The boundary after the block is in a run, and the one before it there is that of the block.
    obtain ⟨v, key, -⟩ := meet.2
    obtain ⟨first, rest, hrun, rfl | mem⟩ := exists_mem_dataRuns key
    · exact absurd meet (not_dataMeet_of_head hrun)
    · obtain ⟨d, hd, hc, -⟩ := exists_block_of_mem_tail hrun mem
      have same : d.1 = b.start := congrArg Block.start (eq_of_stop_eq_stop hc hb rfl)
      rcases List.mem_cons.1 hd with rfl | hd
      · exact List.mem_flatMap.2 ⟨_, hrun, List.mem_flatMap.2 ⟨_, mem, by simp [same]⟩⟩
      · exact absurd (same ▸ dataMeet_of_mem_tail hrun hd) stays

/-! ### The blocks of the joined map -/

theorem get?_joined_of_meet (meet : DataMeet tags x) :
    (tags.edit (mergeData tags)).get? x = none :=
  get?_edit_of_clear (clear_mem_mergeData.2 meet) fun _ set =>
    (assign_mem_mergeData.1 set).2.1 meet

theorem get?_joined_of_meet_stop (stays : ¬ DataMeet tags b.start) (hb : b ∈ tags.blocks)
    (meet : DataMeet tags b.stop) : (tags.edit (mergeData tags)).get? b.start = some .bytes := by
  obtain ⟨u, set, key⟩ := exists_get?_edit (m := tags)
    (assign_mem_mergeData.2 ⟨rfl, stays, b, hb, rfl, meet⟩)
    fun mem => stays (clear_mem_mergeData.1 mem)
  rwa [(assign_mem_mergeData.1 set).1] at key

theorem get?_joined_of_stays (stays : ¬ DataMeet tags x)
    (alone : ∀ b ∈ tags.blocks, b.start = x → ¬ DataMeet tags b.stop) :
    (tags.edit (mergeData tags)).get? x = tags.get? x := by
  refine get?_edit_of_forall_ne (fun u set => ?_) fun mem => stays (clear_mem_mergeData.1 mem)
  obtain ⟨-, -, b, hb, start, meet⟩ := assign_mem_mergeData.1 set
  exact alone b hb start meet

/-- The block before data that meets other data is data. -/
theorem DataMeet.isData (meet : DataMeet tags b.stop) (hb : b ∈ tags.blocks) :
    b.tag.isData = true := by
  obtain ⟨⟨c, hc, stop, data⟩, -⟩ := meet
  rwa [eq_of_stop_eq_stop hb hc stop.symm]

/-- A boundary of the joined map was there, data does not meet at it, and it is data only if it
was. -/
theorem of_get?_joined (key : (tags.edit (mergeData tags)).get? x = some u) :
    ¬ DataMeet tags x ∧ ∃ v, tags.get? x = some v ∧ (u.isData = true → v.isData = true) := by
  have stays : ¬ DataMeet tags x := by
    intro meet
    rw [get?_joined_of_meet meet] at key
    cases key
  refine ⟨stays, ?_⟩
  rcases get?_edit_eq_some key with key | set
  · exact ⟨u, key, id⟩
  · obtain ⟨-, -, b, hb, rfl, meet⟩ := assign_mem_mergeData.1 set
    exact ⟨b.tag, get?_start_of_mem_blocks hb, fun _ => meet.isData hb⟩

/-- Boundaries where no data meets stay. -/
theorem isSome_get?_joined (key : (tags.get? x).isSome) (stays : ¬ DataMeet tags x) :
    ((tags.edit (mergeData tags)).get? x).isSome :=
  isSome_get?_edit key fun mem => stays (clear_mem_mergeData.1 mem)

/-- A boundary with a later one starts a block. -/
theorem exists_block_of_get? (key : tags.get? x = some u) {y : Nat} (later : (tags.get? y).isSome)
    (lt : x < y) : ∃ b ∈ tags.blocks, b.start = x ∧ b.tag = u ∧ b.stop ≤ y := by
  obtain ⟨b, hb, rfl, tag, -⟩ := exists_mem_blocks (k := x) (a := x)
    ⟨Nat.le_refl x, fun j _ _ => by omega⟩ key ⟨y, lt, later⟩
  refine ⟨b, hb, rfl, tag, ?_⟩
  by_contra inside
  have := le_start_of_isSome hb later (by omega)
  omega

/-- A boundary with an earlier one ends a block. -/
theorem exists_block_of_get?_stop (key : tags.get? x = some u) {y : Nat}
    (earlier : (tags.get? y).isSome) (lt : y < x) :
    ∃ b ∈ tags.blocks, b.stop = x ∧ y ≤ b.start := by
  obtain ⟨v, earlier⟩ := Option.isSome_iff_exists.1 earlier
  obtain ⟨before, after, entries⟩ := List.append_of_mem (SortedMap.get?_eq_some_iff.1 key)
  have mem := SortedMap.get?_eq_some_iff.1 earlier
  have sorted := tags.ascending
  rw [entries] at sorted mem
  obtain ⟨-, above, -⟩ := List.pairwise_append.1 sorted
  -- The earlier boundary comes before in the list, so the last one there is not below it.
  have mem : (y, v) ∈ before := by
    rcases List.mem_append.1 mem with mem | mem
    · exact mem
    · rcases List.mem_cons.1 mem with same | mem
      · cases same
        omega
      · have := (List.pairwise_cons.1 above).1 _ mem
        simp only at this
        omega
  obtain ⟨init, last, rfl⟩ : ∃ init last, before = init ++ [last] :=
    ⟨_, _, (List.dropLast_append_getLast (List.ne_nil_of_mem mem)).symm⟩
  refine ⟨_, between_mem_blocks init after (by simpa using entries), rfl, ?_⟩
  exact le_of_mem_getLast? (List.pairwise_append.1 sorted).1 List.getLast?_concat mem

/-- A block of the joined map is a block as it was, or bytes that start with two blocks of data. -/
theorem mem_blocks_joined (hc : c ∈ (tags.edit (mergeData tags)).blocks) :
    c ∈ tags.blocks ∨ c.tag = .bytes ∧ ∃ b ∈ tags.blocks, ∃ d ∈ tags.blocks,
      b.start = c.start ∧ d.start = b.stop ∧ d.stop ≤ c.stop ∧
        b.tag.isData = true ∧ d.tag.isData = true := by
  obtain ⟨key, lt, ⟨w, stop⟩, none⟩ := mem_blocks_iff.1 hc
  obtain ⟨stays, u, old, -⟩ := of_get?_joined key
  obtain ⟨-, v, later, -⟩ := of_get?_joined stop
  obtain ⟨b, hb, start, -, le⟩ := exists_block_of_get? old (by simp [later]) lt
  rw [← start] at stays key
  have ltB := start_lt_stop_of_mem_blocks hb
  by_cases meet : DataMeet tags b.stop
  · -- The boundary after the first block is removed, so the block after that is part of it too.
    have tag := get?_joined_of_meet_stop stays hb meet
    rw [key] at tag
    refine .inr ⟨Option.some.inj tag, b, hb, ?_⟩
    have ne : b.stop ≠ c.stop := by
      intro same
      rw [← same, get?_joined_of_meet meet] at stop
      cases stop
    obtain ⟨u', key', data⟩ := meet.2
    obtain ⟨d, hd, start', tag', le'⟩ := exists_block_of_get? key' (by simp [later])
      (Nat.lt_of_le_of_ne le ne)
    exact ⟨d, hd, start, start', le', meet.isData hb, tag' ▸ data⟩
  · -- The boundary after it stays, so it is a block as before.
    have kept := isSome_get?_joined (x := b.stop) (by
      obtain ⟨u', key'⟩ := get?_stop_of_mem_blocks hb
      simp [key']) meet
    have stops : b.stop = c.stop := by
      by_contra ne
      rw [none b.stop (by omega) (by omega)] at kept
      cases kept
    have tag := get?_joined_of_stays stays fun b' hb' same => by rwa [eq_of_mem_blocks hb' hb same]
    rw [key, get?_start_of_mem_blocks hb] at tag
    refine .inl ?_
    have same : c = b := by
      cases b
      cases c
      simp_all
    rwa [same]

/-- In the joined map data meets nowhere. -/
theorem not_dataMeet_joined (x : Nat) : ¬ DataMeet (tags.edit (mergeData tags)) x := by
  rintro ⟨⟨b, hb, rfl, data⟩, w, next, data'⟩
  obtain ⟨key, lt, -, none⟩ := mem_blocks_iff.1 hb
  obtain ⟨-, u, old, isData⟩ := of_get?_joined key
  obtain ⟨stays, v, old', isData'⟩ := of_get?_joined next
  -- The block that ended there is part of the first one, so it is data.
  obtain ⟨a, ha, stop, above⟩ := exists_block_of_get?_stop old' (y := b.start) (by simp [old]) lt
  refine stays ⟨⟨a, ha, stop, ?_⟩, v, old', isData' data'⟩
  have start := get?_start_of_mem_blocks ha
  rcases Nat.eq_or_lt_of_le above with same | inside
  · rw [← same, old] at start
    rw [← Option.some.inj start]
    exact isData data
  · -- Its start was removed.
    have ltA := start_lt_stop_of_mem_blocks ha
    have gone := none a.start inside (by omega)
    by_contra plain
    have meets : ¬ DataMeet tags a.start := by
      rintro ⟨-, w, key', data''⟩
      rw [start] at key'
      exact plain (by rw [Option.some.inj key', data''])
    have := isSome_get?_joined (by simp [start]) meets
    rw [gone] at this
    cases this

/-- In the joined map, no two neighbours are data. -/
theorem joined_apart (hb : b ∈ (tags.edit (mergeData tags)).blocks)
    (hc : c ∈ (tags.edit (mergeData tags)).blocks) (next : b.stop = c.start)
    (data : b.tag.isData = true) : c.tag.isData = false := by
  by_contra data'
  rw [Bool.not_eq_false] at data'
  exact not_dataMeet_joined c.start ⟨⟨b, hb, next, data⟩, c.tag, get?_start_of_mem_blocks hc, data'⟩

/-- Where data meets nowhere there is nothing to join. -/
theorem mergeData_eq_nil (apart : ∀ x, ¬ DataMeet tags x) : mergeData tags = [] := by
  refine List.eq_nil_iff_forall_not_mem.2 fun e mem => ?_
  cases e with
  | assign x u =>
    obtain ⟨-, -, b, -, -, meet⟩ := assign_mem_mergeData.1 mem
    exact apart b.stop meet
  | clear x => exact apart x (clear_mem_mergeData.1 mem)

end MemoryAtlas.Heuristic
