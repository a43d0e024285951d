import MemoryAtlas.Proofs.Heuristic.Joined
import MemoryAtlas.Proofs.Heuristic.OnePass

/-!
# Joined runs of data

Joining data goes through the boundaries once and looks at pairs of neighbours, but what it does is
told by longest runs: the boundaries of a longest run of two or more become one, its first, which is
bytes; all others stay as they are. So every address that was data is data still, and nothing else
changes its tag.

## Main definitions

* `Heuristic.LongestDataRun`: neighbouring boundaries of data, with no data next to them.

## Main results

* `Heuristic.LongestDataRun.mem_dataRuns`, `Heuristic.exists_longest_of_mem_dataRuns`: the runs that
  are joined are the longest ones.
* `Heuristic.get?_joined_head`, `Heuristic.get?_joined_tail`, `Heuristic.get?_joined_of_alone`: what
  becomes of a boundary.
* `Heuristic.tagAt?_joined`: the tag at an address.
* `Heuristic.mergeData_joins_runs`: all of it.
-/

namespace MemoryAtlas.Heuristic

open TagMap

variable {tags : TagMap} {x a : Nat} {first d e : Nat × Tag}
  {before run rest after : List (Nat × Tag)}

/-! ### Longest runs -/

/-- The boundaries of `run` are neighbours and data, and no data is next to them. -/
structure LongestDataRun (tags : TagMap) (before run after : List (Nat × Tag)) : Prop where
  /-- The boundaries stand next to each other. -/
  entries : tags.entries = before ++ (run ++ after)
  /-- All of them are data. -/
  data : ∀ e ∈ run, e.2.isData = true
  /-- The boundary before them is not. -/
  first : ∀ e ∈ before.getLast?, e.2.isData = false
  /-- The boundary after them is not. -/
  last : ∀ e ∈ after.head?, e.2.isData = false

/-- A longest run is cut out as it is. -/
theorem LongestDataRun.mem_dataRuns (h : LongestDataRun tags before (first :: rest) after) :
    first :: rest ∈ dataRuns tags.entries := by
  have chain : (first :: rest).IsChain fun d e => (d.2.isData && e.2.isData) = true := by
    refine List.isChain_iff_forall_rel_of_append_cons_cons.2 fun d e init tail eq => ?_
    rw [h.data d (by simp [eq]), h.data e (by simp [eq])]
    rfl
  rw [dataRuns, h.entries, List.splitBy_append, List.splitBy_append,
    List.splitBy_of_isChain (List.cons_ne_nil _ _) chain]
  · simp
  · intro d _ e next
    rw [h.last e next, Bool.and_false]
  · intro d next e _
    rw [h.first d next, Bool.false_and]

theorem isData_of_mem_dataRuns (mem : first :: rest ∈ dataRuns tags.entries) (ne : rest ≠ [])
    (he : e ∈ first :: rest) : e.2.isData = true := by
  obtain ⟨second, later, rfl⟩ := List.exists_cons_of_ne_nil ne
  have chain := List.isChain_of_mem_splitBy mem
  rcases List.mem_cons.1 he with rfl | he
  · exact (Bool.and_eq_true_iff.1 (List.isChain_cons_cons.1 chain).1).1
  · obtain ⟨-, -, -, -, data⟩ := exists_block_of_mem_tail mem he
    exact data

/-- Where a run starts, it and the boundary before it are not both data. -/
theorem not_isData_of_head (init tail : List (Nat × Tag)) (mem : e :: rest ∈ dataRuns tags.entries)
    (entries : tags.entries = init ++ d :: e :: tail) :
    ¬ (d.2.isData = true ∧ e.2.isData = true) := by
  rintro ⟨data, data'⟩
  have key : tags.get? e.1 = some e.2 := SortedMap.get?_eq_some_iff.2 (by simp [entries])
  exact not_dataMeet_of_head mem
    ⟨⟨_, between_mem_blocks init tail entries, rfl, data⟩, e.2, key, data'⟩

/-- A run of two or more boundaries that is cut out is a longest one. -/
theorem exists_longest_of_mem_dataRuns (mem : first :: rest ∈ dataRuns tags.entries)
    (ne : rest ≠ []) :
    ∃ before after, LongestDataRun tags before (first :: rest) after := by
  have data := fun e => isData_of_mem_dataRuns (e := e) mem ne
  obtain ⟨earlier, later, eq⟩ := List.append_of_mem mem
  have entries : tags.entries = earlier.flatten ++ ((first :: rest) ++ later.flatten) := by
    rw [← flatten_dataRuns tags.entries, eq, List.flatten_append, List.flatten_cons]
  refine ⟨earlier.flatten, later.flatten, entries, data, fun d found => ?_, fun e found => ?_⟩
  · obtain ⟨init, eq'⟩ := List.getLast?_eq_some_iff.1 found
    have apart := not_isData_of_head (d := d) init (rest ++ later.flatten) mem
      (by rw [entries, eq']; simp)
    rw [Bool.eq_false_iff]
    exact fun data' => apart ⟨data', data first List.mem_cons_self⟩
  · obtain ⟨tail, eq'⟩ := List.head?_eq_some_iff.1 found
    -- Another run starts after this one.
    have next : ∃ tail', e :: tail' ∈ dataRuns tags.entries := by
      cases later with
      | nil => cases eq'
      | cons run later =>
        have hrun : run ∈ dataRuns tags.entries := by simp [eq]
        obtain ⟨e', tail', rfl⟩ :=
          List.exists_cons_of_ne_nil (List.ne_nil_of_mem_splitBy hrun)
        cases eq'
        exact ⟨tail', hrun⟩
    obtain ⟨tail', hrun⟩ := next
    obtain ⟨init, last, parts⟩ : ∃ init last, first :: rest = init ++ [last] :=
      ⟨_, _, (List.dropLast_append_getLast (List.cons_ne_nil first rest)).symm⟩
    have apart := not_isData_of_head (d := last) (earlier.flatten ++ init) tail hrun
      (by rw [entries, eq', parts]; simp)
    rw [Bool.eq_false_iff]
    exact fun data' => apart ⟨data last (by simp [parts]), data'⟩

/-! ### What becomes of a boundary -/

/-- The first boundary of a run becomes bytes. -/
theorem get?_joined_head (mem : first :: rest ∈ dataRuns tags.entries) (ne : rest ≠ []) :
    (tags.edit (mergeData tags)).get? first.1 = some .bytes := by
  obtain ⟨second, later, rfl⟩ := List.exists_cons_of_ne_nil ne
  obtain ⟨before, after, entries⟩ := exists_append_of_mem_dataRuns mem
  have hb : between first second ∈ tags.blocks :=
    between_mem_blocks before (later ++ after) entries
  exact get?_joined_of_meet_stop (not_dataMeet_of_head mem) hb
    (dataMeet_of_mem_tail mem List.mem_cons_self)

/-- The other boundaries of a run are removed. -/
theorem get?_joined_tail (mem : first :: rest ∈ dataRuns tags.entries) (he : e ∈ rest) :
    (tags.edit (mergeData tags)).get? e.1 = none :=
  get?_joined_of_meet (dataMeet_of_mem_tail mem he)

/-- A boundary in no run of two or more stays as it is. -/
theorem get?_joined_of_alone (mem : e ∈ tags.entries)
    (alone : ∀ first rest, first :: rest ∈ dataRuns tags.entries → rest ≠ [] → e ∉ first :: rest) :
    (tags.edit (mergeData tags)).get? e.1 = some e.2 := by
  have key : tags.get? e.1 = some e.2 := SortedMap.get?_eq_some_iff.2 mem
  rw [get?_joined_of_stays, key]
  · intro meet
    obtain ⟨first, rest, hrun, rfl | he⟩ := exists_mem_dataRuns key
    · exact not_dataMeet_of_head hrun meet
    · exact alone first rest hrun (List.ne_nil_of_mem he) (List.mem_cons_of_mem _ he)
  · -- The block that starts here would be followed by a later boundary of its run.
    intro b hb start meet
    obtain ⟨v, key', -⟩ := meet.2
    obtain ⟨first, rest, hrun, rfl | he⟩ := exists_mem_dataRuns key'
    · exact not_dataMeet_of_head hrun meet
    · obtain ⟨d, hd, hc, -⟩ := exists_block_of_mem_tail hrun he
      have starts : d.1 = e.1 := (congrArg Block.start (eq_of_stop_eq_stop hc hb rfl)).trans start
      have tag : tags.get? d.1 = some d.2 := get?_start_of_mem_blocks hc
      rw [starts, key] at tag
      have same : d = e := Prod.ext starts (Option.some.inj tag).symm
      exact alone first rest hrun (List.ne_nil_of_mem he) (same ▸ hd)

theorem get?_joined_eq_none (none : tags.get? x = none) :
    (tags.edit (mergeData tags)).get? x = .none := by
  cases key : (tags.edit (mergeData tags)).get? x with
  | none => rfl
  | some u =>
    obtain ⟨-, v, old, -⟩ := of_get?_joined key
    rw [none] at old
    cases old

/-! ### The tag at an address -/

/-- An address that a run of two or more governs is bytes. -/
theorem tagAt?_joined_of_mem (mem : first :: rest ∈ dataRuns tags.entries) (ne : rest ≠ [])
    (he : e ∈ first :: rest) (governs : tags.Governs e.1 a) :
    (tags.edit (mergeData tags)).tagAt? a = some .bytes := by
  obtain ⟨before, after, entries⟩ := exists_append_of_mem_dataRuns mem
  have sorted := tags.ascending
  rw [entries, List.pairwise_append, List.pairwise_append, List.pairwise_cons] at sorted
  obtain ⟨-, ⟨⟨above, -⟩, -, later⟩, earlier⟩ := sorted
  have le : first.1 ≤ e.1 := by
    rcases List.mem_cons.1 he with rfl | he
    · exact Nat.le_refl _
    · exact Nat.le_of_lt (above e he)
  refine Governs.tagAt?_eq ⟨Nat.le_trans le governs.le, fun j lower upper => ?_⟩
    (get?_joined_head mem ne)
  cases old : tags.get? j with
  | none => exact get?_joined_eq_none old
  | some v =>
    -- Of the boundaries after the first, those of the run are gone, and the others come too late.
    have mem' := SortedMap.get?_eq_some_iff.1 old
    rw [entries, List.mem_append, List.mem_append, List.mem_cons] at mem'
    rcases mem' with mem' | (rfl | mem') | mem'
    · exact absurd (earlier _ mem' first (by simp)) (Nat.lt_asymm lower)
    · exact absurd lower (Nat.lt_irrefl _)
    · exact get?_joined_tail mem mem'
    · rw [governs.2 j (later e he _ mem') upper] at old
      cases old

/-- An address that a boundary in no run governs keeps its tag. -/
theorem tagAt?_joined_of_alone (mem : e ∈ tags.entries)
    (alone : ∀ first rest, first :: rest ∈ dataRuns tags.entries → rest ≠ [] → e ∉ first :: rest)
    (governs : tags.Governs e.1 a) : (tags.edit (mergeData tags)).tagAt? a = some e.2 :=
  Governs.tagAt?_eq ⟨governs.le, fun j lower upper => get?_joined_eq_none (governs.2 j lower upper)⟩
    (get?_joined_of_alone mem alone)

/-- Joining turns data into data, and leaves all other tags. -/
theorem tagAt?_joined (tags : TagMap) (a : Nat) :
    (tags.edit (mergeData tags)).tagAt? a = tags.tagAt? a ∨
      (tags.edit (mergeData tags)).tagAt? a = some .bytes ∧
        (tags.tagAt? a).any Tag.isData = true := by
  cases old : tags.tagAt? a with
  | none =>
    -- Without a boundary up to the address there is none after joining.
    refine .inl ?_
    cases new : (tags.edit (mergeData tags)).tagAt? a with
    | none => rfl
    | some u =>
      obtain ⟨k, governs, key⟩ := tagAt?_eq_some_iff.1 new
      obtain ⟨-, v, key, -⟩ := of_get?_joined key
      have some := isSome_tagAt? key governs.le
      rw [old] at some
      cases some
  | some u =>
    obtain ⟨k, governs, key⟩ := tagAt?_eq_some_iff.1 old
    by_cases joined : ∃ first rest, first :: rest ∈ dataRuns tags.entries ∧ rest ≠ [] ∧
        (k, u) ∈ first :: rest
    · obtain ⟨first, rest, mem, ne, he⟩ := joined
      exact .inr ⟨tagAt?_joined_of_mem mem ne he governs, isData_of_mem_dataRuns mem ne he⟩
    · refine .inl (tagAt?_joined_of_alone (SortedMap.get?_eq_some_iff.1 key) ?_ governs)
      intro first rest mem ne he
      exact joined ⟨first, rest, mem, ne, he⟩

/-! ### The joined map -/

theorem isChain_joined (tags : TagMap) :
    (tags.edit (mergeData tags)).entries.IsChain
      fun d e => ¬ (d.2.isData = true ∧ e.2.isData = true) := by
  refine List.isChain_iff_forall_rel_of_append_cons_cons.2 fun d e init tail eq => ?_
  rintro ⟨data, data'⟩
  have key : (tags.edit (mergeData tags)).get? e.1 = some e.2 :=
    SortedMap.get?_eq_some_iff.2 (by simp [eq])
  exact not_dataMeet_joined e.1
    ⟨⟨_, between_mem_blocks init tail eq, rfl, data⟩, e.2, key, data'⟩

theorem mem_keys_of_mem_keys_joined (mem : x ∈ (tags.edit (mergeData tags)).keys) :
    x ∈ tags.keys := by
  obtain ⟨e, he, rfl⟩ := List.mem_map.1 mem
  obtain ⟨-, v, old, -⟩ := of_get?_joined (SortedMap.get?_eq_some_iff.2 he)
  exact List.mem_map.2 ⟨(e.1, v), SortedMap.get?_eq_some_iff.1 old, rfl⟩

/-- Joining data joins its longest runs, and does nothing else. One pass, which takes one boundary
at a time and changes the map as it goes, makes the same changes. Afterwards no two neighbours are
data, and no boundary is new. Of a longest run of two or more the first boundary is bytes and the
others are gone; every other boundary is as it was. So an address is data just if it was before,
keeps its tag if it was not, and there is nothing left to join. -/
theorem mergeData_joins_runs (tags : TagMap) :
    let new := tags.edit (mergeData tags)
    (tags.entries.foldl Joining.step ⟨none, pure tags⟩).tags = tags.perform (mergeData tags) ∧
    new.entries.IsChain (fun d e => ¬ (d.2.isData = true ∧ e.2.isData = true)) ∧
    (∀ x ∈ new.keys, x ∈ tags.keys) ∧
    (∀ before first second rest after,
      LongestDataRun tags before (first :: second :: rest) after →
        new.get? first.1 = some .bytes ∧ ∀ e ∈ second :: rest, new.get? e.1 = none) ∧
    (∀ e ∈ tags.entries,
      (∀ before run after, LongestDataRun tags before run after → 2 ≤ run.length → e ∉ run) →
        new.get? e.1 = some e.2) ∧
    (∀ a, (new.tagAt? a).any Tag.isData = (tags.tagAt? a).any Tag.isData ∧
      ((tags.tagAt? a).any Tag.isData = false → new.tagAt? a = tags.tagAt? a)) ∧
    mergeData new = [] := by
  intro new
  refine ⟨foldl_joiningStep tags, isChain_joined tags, fun x => mem_keys_of_mem_keys_joined,
    ?_, ?_, ?_, mergeData_eq_nil not_dataMeet_joined⟩
  · intro before first second rest after longest
    have mem := longest.mem_dataRuns
    exact ⟨get?_joined_head mem (List.cons_ne_nil _ _), fun e => get?_joined_tail mem⟩
  · intro e mem alone
    refine get?_joined_of_alone mem fun first rest hrun ne => ?_
    obtain ⟨before, after, longest⟩ := exists_longest_of_mem_dataRuns hrun ne
    have := List.length_pos_iff.2 ne
    exact alone before _ after longest (by rw [List.length_cons]; omega)
  · intro a
    rcases tagAt?_joined tags a with same | ⟨bytes, data⟩
    · exact ⟨by rw [same], fun _ => same⟩
    · refine ⟨by rw [bytes, data]; rfl, fun plain => ?_⟩
      rw [data] at plain
      cases plain

/-- Bytes and zeros at both ends of a range, with lone zeros between blocks of code. -/
def scattered : TagMap :=
  ⟨[(0, .bytes), (2, .zero), (4, .code), (5, .zero), (6, .code), (7, .zero), (8, .bytes),
    (9, .limit)], by decide⟩

/-- The two blocks in front become one of bytes, the lone zeros stay zeros, and code stays code. -/
theorem mergeData_joins_runs_scattered :
    (scattered.edit (mergeData scattered)).get? 0 = some .bytes ∧
      (scattered.edit (mergeData scattered)).get? 2 = none ∧
      (scattered.edit (mergeData scattered)).get? 5 = some .zero ∧
      (scattered.edit (mergeData scattered)).tagAt? 4 = some .code := by
  obtain ⟨-, -, -, runs, others, tags, -⟩ := mergeData_joins_runs scattered
  have front : LongestDataRun scattered [] [(0, .bytes), (2, .zero)]
      [(4, .code), (5, .zero), (6, .code), (7, .zero), (8, .bytes), (9, .limit)] :=
    ⟨rfl, by decide, by decide, by decide⟩
  obtain ⟨first, rest⟩ := runs _ _ _ _ _ front
  have lone : ∀ run ∈ dataRuns scattered.entries, 2 ≤ run.length → (5, Tag.zero) ∉ run := by decide
  refine ⟨first, rest (2, .zero) (by decide), others (5, .zero) (by decide) ?_,
    (tags 4).2 (by decide)⟩
  intro before run after longest long
  cases run with
  | nil => exact List.not_mem_nil
  | cons d later => exact lone _ longest.mem_dataRuns long

end MemoryAtlas.Heuristic
