import MemoryAtlas.Proofs.Phases.Inside
import MemoryAtlas.Proofs.TagMap.ByBlock
import MemoryAtlas.Proofs.Z80.Cuts

/-!
# The search for the end of a run of code

Every phase that makes code grow or cuts it up searches for the end of a run of code. What the
search yields and how it changes a map can be told from the instructions of the range and the map as
it was: the boundaries that a search removes lie inside of instructions that it has passed, so they
are never the ones it looks at afterwards.

## Main definitions

* `Traced.EndsRun`: an instruction that a run of code ends with.
* `Traced.search`: a search, one instruction at a time, that changes the map as it goes.
* `Traced.Straddled`, `Traced.lowestStraddled?`: the addresses inside of instructions, and the tag
  of the lowest boundary among them.

## Main results

* `Traced.get?_edit_findTerminal`: what a search makes of each boundary.
* `Traced.search_eq_findTerminal`: the two ways to search are the same.
* `Traced.findTerminal_meets_contract`: where a search ends and what it changes.
-/

namespace MemoryAtlas.Traced

open Z80 TagMap

variable {t : RepeatCeilings} {m : Image} {tags : TagMap} {start stop a b k : Nat}
  {run : List Instruction} {i last : Instruction} {tag kept : Option Tag} {u : Tag}

/-- An instruction ends a run of code: it is terminal, or code starts where it ends. -/
def EndsRun (tags : TagMap) (i : Instruction) : Prop :=
  i.isTerminal = true ∨ tags.get? i.stop = some .code

instance (tags : TagMap) (i : Instruction) : Decidable (EndsRun tags i) :=
  inferInstanceAs (Decidable (i.isTerminal = true ∨ tags.get? i.stop = some .code))

/-- An address lies strictly inside of one of the instructions. -/
def Straddled (l : List Instruction) (k : Nat) : Prop := ∃ i ∈ l, i.address < k ∧ k < i.stop

instance (l : List Instruction) (k : Nat) : Decidable (Straddled l k) :=
  inferInstanceAs (Decidable (∃ i ∈ l, i.address < k ∧ k < i.stop))

/-- The tag of the lowest boundary strictly inside of one of the instructions. -/
def lowestStraddled? (tags : TagMap) (l : List Instruction) : Option Tag :=
  (tags.entries.find? fun e => Straddled l e.1).map (·.2)

/-! ### The instructions that a search passes -/

theorem codeRun_of_forall (quiet : ∀ i ∈ instructions t m start stop, ¬ EndsRun tags i) :
    codeRun t m tags start stop = instructions t m start stop :=
  instructionsUntil_eq_instructions fun i mem => by simpa [EndsRun] using quiet i mem

theorem codeRun_of_append {before after : List Instruction}
    (walked : instructions t m start stop = before ++ i :: after)
    (quiet : ∀ j ∈ before, ¬ EndsRun tags j) (ends : EndsRun tags i) :
    codeRun t m tags start stop = before ++ [i] :=
  instructionsUntil_eq_append walked (fun j mem => by simpa [EndsRun] using quiet j mem)
    (by simpa [EndsRun] using ends)

theorem codeRun_of_endsRun (lt : a < stop) (ends : EndsRun tags (decode t m a stop)) :
    codeRun t m tags a stop = [decode t m a stop] := by
  rw [codeRun, instructionsUntil_of_lt _ t m lt, if_pos (by simpa [EndsRun] using ends)]

theorem codeRun_of_not_endsRun (lt : a < stop) (quiet : ¬ EndsRun tags (decode t m a stop)) :
    codeRun t m tags a stop =
      decode t m a stop :: codeRun t m tags (decode t m a stop).stop stop := by
  rw [codeRun, instructionsUntil_of_lt _ t m lt, if_neg (by simpa [EndsRun] using quiet), codeRun]

/-- Of the instructions that a search passes only the last may end the run. -/
theorem codeRun_spec (t : RepeatCeilings) (m : Image) (tags : TagMap) (lt : start < stop) :
    ∃ init last, codeRun t m tags start stop = init ++ [last] ∧ (∀ i ∈ init, ¬ EndsRun tags i) ∧
      Tiles start (init ++ [last]) last.stop := by
  obtain ⟨init, last, run, quiet, -, tiles⟩ := instructionsUntil_spec
    (fun i => i.isTerminal || tags.get? i.stop == some .code) t m lt
  exact ⟨init, last, run, fun i mem => by simpa [EndsRun] using quiet i mem, tiles⟩

theorem tiles_codeRun (lt : start < stop)
    (found : (codeRun t m tags start stop).getLast? = some last) :
    Tiles start (codeRun t m tags start stop) last.stop := by
  obtain ⟨init, last', run, -, tiles⟩ := codeRun_spec t m tags lt
  rw [run, List.getLast?_concat] at found
  rw [run, ← Option.some.inj found]
  exact tiles

/-! ### The boundaries that a search removes -/

theorem mem_absorbed_iff :
    (k, u) ∈ absorbed tags run ↔ tags.get? k = some u ∧ Straddled run k := by
  refine ⟨mem_absorbed, ?_⟩
  rintro ⟨key, i, mem, above, below⟩
  refine List.mem_flatMap.2 ⟨i, mem, List.mem_filter.2 ⟨SortedMap.get?_eq_some_iff.1 key, ?_⟩⟩
  simp [above, below]

/-- The boundaries removed are listed in ascending order. -/
theorem pairwise_absorbed (tiles : Tiles a run b) :
    (absorbed tags run).Pairwise fun x y => x.1 < y.1 := by
  refine List.pairwise_flatMap.2 ⟨fun i _ => tags.ascending.filter _, ?_⟩
  refine tiles.pairwise.imp fun {i j} le x hx y hy => ?_
  have below := (List.mem_filter.1 hx).2
  have above := (List.mem_filter.1 hy).2
  simp only [Bool.and_eq_true, decide_eq_true_eq] at below above
  omega

/-- The first boundary removed is the lowest. -/
theorem head?_absorbed (tiles : Tiles a run b) :
    (absorbed tags run).head?.map (·.2) = lowestStraddled? tags run := by
  -- Both lists are ascending, so they are the same map if they have the same entries.
  have same : (⟨absorbed tags run, pairwise_absorbed tiles⟩ : TagMap) =
      tags.filter fun e => Straddled run e.1 := by
    refine SortedMap.ext_get? fun k => Option.ext fun u => ?_
    rw [SortedMap.get?_eq_some_iff, SortedMap.get?_eq_some_iff]
    simp only [SortedMap.filter, List.mem_filter, decide_eq_true_eq, mem_absorbed_iff,
      SortedMap.get?_eq_some_iff]
  have entries : absorbed tags run = tags.entries.filter fun e => Straddled run e.1 :=
    congrArg SortedMap.entries same
  rw [entries, List.head?_filter, lowestStraddled?]

theorem get?_edit_absorbed :
    (tags.edit ((absorbed tags run).map fun e => .clear e.1)).get? k =
      if Straddled run k then none else tags.get? k := by
  have unset : ∀ u, .assign k u ∉ (absorbed tags run).map fun e => Edit.clear e.1 := by
    intro u mem
    obtain ⟨e, -, eq⟩ := List.mem_map.1 mem
    cases eq
  by_cases straddled : Straddled run k
  · rw [if_pos straddled]
    cases key : tags.get? k with
    | none =>
      rw [get?_edit_of_forall_ne unset fun mem => ?_, key]
      obtain ⟨⟨j, u⟩, removed, eq⟩ := List.mem_map.1 mem
      cases eq
      rw [(mem_absorbed_iff.1 removed).1] at key
      cases key
    | some u =>
      exact get?_edit_of_clear (List.mem_map.2 ⟨(k, u), mem_absorbed_iff.2 ⟨key, straddled⟩, rfl⟩)
        unset
  · rw [if_neg straddled, get?_edit_of_forall_ne unset fun mem => ?_]
    obtain ⟨⟨j, u⟩, removed, eq⟩ := List.mem_map.1 mem
    cases eq
    exact straddled (mem_absorbed_iff.1 removed).2

/-! ### The boundary that a search enters -/

/-- The boundary after a run is entered where there was none before the search and is none now. -/
theorem get?_edit_runBoundary {now : TagMap} (found : run.getLast? = some last)
    (fresh : tags.get? last.stop = none → now.get? last.stop = none) :
    (now.edit (runBoundary tags run stop tag)).get? k =
      if k = last.stop ∧ last.isTerminal = true ∧ last.stop < stop ∧ tags.get? last.stop = none then
        tag
      else now.get? k := by
  unfold runBoundary
  rw [found]
  cases tag with
  | none =>
    dsimp only
    split
    · next due =>
      rw [due.1, edit_nil]
      exact fresh due.2.2.2
    · rfl
  | some u =>
    dsimp only
    have enters : (last.isTerminal && last.stop < stop && !tags.contains last.stop) = true ↔
        last.isTerminal = true ∧ last.stop < stop ∧ tags.get? last.stop = none := by
      simp [SortedMap.contains, and_assoc]
    by_cases due : last.isTerminal = true ∧ last.stop < stop ∧ tags.get? last.stop = none
    · rw [if_pos (enters.2 due), edit_cons, edit_nil, apply, SortedMap.get?_insert]
      simp only [due, and_true]
    · rw [if_neg fun holds => due (enters.1 holds), if_neg fun holds => due holds.2, edit_nil]

/-- The last instruction that a search passes straddles no end, and neither do those before it. -/
theorem not_straddled_stop (tiles : Tiles a run last.stop) : ¬ Straddled run last.stop := by
  rintro ⟨i, mem, -, inside⟩
  have := (tiles.bounds mem).2.2
  omega

/-- What a search makes of each boundary: it enters one after a terminal instruction, and if it is
given no tag it removes those inside of the instructions that it passes. -/
theorem get?_edit_findTerminal (lt : start < stop)
    (found : (codeRun t m tags start stop).getLast? = some last) :
    (tags.edit (findTerminal t m tags start stop tag).edits).get? k =
      if k = last.stop ∧ last.isTerminal = true ∧ last.stop < stop ∧ tags.get? last.stop = none then
        tag.or (lowestStraddled? tags (codeRun t m tags start stop))
      else if tag = none ∧ Straddled (codeRun t m tags start stop) k then none
      else tags.get? k := by
  have tiles := tiles_codeRun lt found
  cases tag with
  | some u =>
    rw [findTerminal, get?_edit_runBoundary found id, Option.some_or]
    simp
  | none =>
    rw [findTerminal, edit_append, get?_edit_runBoundary found fun fresh => ?_, get?_edit_absorbed,
      head?_absorbed tiles, Option.none_or]
    · simp
    · rw [get?_edit_absorbed, if_neg (not_straddled_stop tiles), fresh]

theorem address_findTerminal (found : (codeRun t m tags start stop).getLast? = some last) :
    (findTerminal t m tags start stop tag).address = last.stop := by
  cases tag <;> simp only [findTerminal, found]

/-- A search advances. -/
theorem lt_address_findTerminal (t : RepeatCeilings) (m : Image) (tags : TagMap)
    (lt : start < stop) (tag : Option Tag) :
    start < (findTerminal t m tags start stop tag).address := by
  obtain ⟨init, last, run, -, tiles⟩ := codeRun_spec t m tags lt
  rw [address_findTerminal (by rw [run, List.getLast?_concat])]
  exact tiles.lt (by simp)

/-! ### The search, one instruction at a time -/

/-- The boundaries that are removed for one instruction: those inside of it, if no tag is given. -/
def removals (tag : Option Tag) (tags : TagMap) (i : Instruction) : List (Nat × Tag) :=
  if tag = none then absorbed tags [i] else []

/-- The map after a search has passed one instruction. -/
def passed (tag : Option Tag) (tags : TagMap) (i : Instruction) : TagMap :=
  tags.edit ((removals tag tags i).map fun e => .clear e.1)

/-- A search one instruction at a time. It changes the map as it goes, looks at the map as it then
is, and keeps the tag of the first boundary that it removes. -/
def search (t : RepeatCeilings) (m : Image) (stop : Nat) (tag kept : Option Tag) (tags : TagMap)
    (a : Nat) : Nat × TagMap :=
  if a < stop then
    let i := decode t m a stop
    let now := passed tag tags i
    let kept := kept.or ((removals tag tags i).head?.map (·.2))
    if EndsRun now i then (i.stop, now.edit (runBoundary now [i] stop (tag.or kept)))
    else search t m stop tag kept now i.stop
  else (a, tags)
termination_by stop - a
decreasing_by
  have := lt_stop_decode t m a stop
  omega

theorem straddled_cons : Straddled (i :: run) k ↔ Straddled [i] k ∨ Straddled run k := by
  simp [Straddled]

theorem absorbed_cons : absorbed tags (i :: run) = absorbed tags [i] ++ absorbed tags run := by
  simp [absorbed]

theorem ite_straddled_cons {p : Prop} [Decidable p] {x : Option Tag} :
    (if p ∧ Straddled run k then none else if p ∧ Straddled [i] k then none else x) =
      if p ∧ Straddled (i :: run) k then none else x := by
  have either : p ∧ Straddled (i :: run) k ↔ p ∧ Straddled run k ∨ p ∧ Straddled [i] k := by
    rw [straddled_cons, and_or_left, or_comm]
  by_cases later : p ∧ Straddled run k
  · rw [if_pos later, if_pos (either.2 (.inl later))]
  · simp only [either, later, false_or, if_false]

theorem get?_passed :
    (passed tag tags i).get? k = if tag = none ∧ Straddled [i] k then none else tags.get? k := by
  rw [passed, removals]
  split
  · next given => simp [get?_edit_absorbed, given]
  · next given => simp [given, edit_nil]

/-- What is removed for an instruction lies below its end. -/
theorem get?_passed_of_le (le : i.stop ≤ k) : (passed tag tags i).get? k = tags.get? k := by
  rw [get?_passed, if_neg]
  rintro ⟨-, j, mem, -, below⟩
  rw [List.mem_singleton.1 mem] at below
  omega

theorem endsRun_passed_iff : EndsRun (passed tag tags i) i ↔ EndsRun tags i := by
  rw [EndsRun, get?_passed_of_le (Nat.le_refl _), EndsRun]

/-- The rest of a search passes the same instructions. -/
theorem codeRun_passed :
    codeRun t m (passed tag tags i) i.stop stop = codeRun t m tags i.stop stop :=
  instructionsUntil_congr _ t m fun j later => by rw [get?_passed_of_le (Nat.le_of_lt later)]

/-- The rest of a search removes the same boundaries. -/
theorem absorbed_passed (tiles : Tiles i.stop run b) :
    absorbed (passed tag tags i) run = absorbed tags run := by
  refine List.flatMap_congr fun j mem => ?_
  have bounds := tiles.bounds mem
  -- Both are parts of ascending maps, so it is enough that the maps agree there.
  have same : (passed tag tags i).filter (fun e => j.address < e.1 && e.1 < j.stop) =
      tags.filter fun e => j.address < e.1 && e.1 < j.stop := by
    refine SortedMap.ext_get? fun k => Option.ext fun u => ?_
    rw [SortedMap.get?_eq_some_iff, SortedMap.get?_eq_some_iff]
    simp only [SortedMap.filter, List.mem_filter, Bool.and_eq_true, decide_eq_true_eq,
      ← SortedMap.get?_eq_some_iff]
    refine and_congr_left fun inside => ?_
    rw [get?_passed_of_le (by omega)]
  exact congrArg SortedMap.entries same

/-- The tag to enter, with one instruction passed: that of the lowest boundary is still the same. -/
theorem or_removals (tag kept : Option Tag) (tags : TagMap) (i : Instruction)
    (others : Option Tag) :
    tag.or ((kept.or ((removals tag tags i).head?.map (·.2))).or others) =
      tag.or (kept.or (((absorbed tags [i]).head?.map (·.2)).or others)) := by
  cases tag with
  | none => simp [removals, Option.or_assoc]
  | some u => simp

/-- Where a search ends and what it makes of each boundary, from any address on. -/
theorem search_spec (tag kept : Option Tag) (lt : a < stop)
    (found : (codeRun t m tags a stop).getLast? = some last) :
    (search t m stop tag kept tags a).1 = last.stop ∧
      ∀ k, (search t m stop tag kept tags a).2.get? k =
        if k = last.stop ∧ last.isTerminal = true ∧ last.stop < stop ∧
            tags.get? last.stop = none then
          tag.or (kept.or ((absorbed tags (codeRun t m tags a stop)).head?.map (·.2)))
        else if tag = none ∧ Straddled (codeRun t m tags a stop) k then none
        else tags.get? k := by
  -- Along the walk, for every map that the search may have come to and every tag it may have kept.
  induction a using walk_induction t m stop generalizing tags kept with
  | done a ge => omega
  | step a _ ih =>
    rw [search, if_pos lt]
    dsimp only
    by_cases ends : EndsRun tags (decode t m a stop)
    · rw [codeRun_of_endsRun lt ends] at found ⊢
      obtain rfl : decode t m a stop = last := by simpa using found
      rw [if_pos (endsRun_passed_iff.2 ends)]
      refine ⟨rfl, fun k => ?_⟩
      have entered := or_removals tag kept tags (decode t m a stop) none
      rw [Option.or_none, Option.or_none] at entered
      rw [get?_edit_runBoundary List.getLast?_singleton id, get?_passed_of_le (Nat.le_refl _),
        get?_passed, entered]
    · rw [codeRun_of_not_endsRun lt ends] at found ⊢
      rw [if_neg fun ends' => ends (endsRun_passed_iff.1 ends')]
      rcases Nat.eq_or_lt_of_le (stop_decode_le t m lt) with atEnd | below
      · -- The instruction reaches the end of the range, so it is the last.
        have done : codeRun t m tags (decode t m a stop).stop stop = [] :=
          instructionsUntil_of_le _ t m (Nat.le_of_eq atEnd.symm)
        rw [done] at found ⊢
        obtain rfl : decode t m a stop = last := by simpa using found
        rw [search, if_neg (by omega)]
        refine ⟨rfl, fun k => ?_⟩
        rw [if_neg fun due => ends (.inl due.2.1), get?_passed]
      · obtain ⟨init, last', run, -, tiles⟩ := codeRun_spec t m tags below
        rw [run, List.getLast?_cons_of_ne_nil (by simp), ← run] at found
        rw [← run] at tiles
        have bounds := tiles.bounds (List.mem_of_getLast? found)
        refine ⟨(ih _ below (by rw [codeRun_passed, found])).1, fun k => ?_⟩
        rw [(ih _ below (by rw [codeRun_passed, found])).2 k, codeRun_passed, absorbed_passed tiles,
          get?_passed_of_le (by omega), or_removals, get?_passed, ite_straddled_cons,
          ← Option.map_or, ← List.head?_append, ← absorbed_cons]

/-- A search that changes the map as it goes does what can be told from the map as it was. -/
theorem search_eq_findTerminal :
    search t m stop tag none tags start =
      ((findTerminal t m tags start stop tag).address,
        tags.edit (findTerminal t m tags start stop tag).edits) := by
  by_cases lt : start < stop
  · obtain ⟨init, last, run, -, -⟩ := codeRun_spec t m tags lt
    have found : (codeRun t m tags start stop).getLast? = some last := by
      rw [run, List.getLast?_concat]
    obtain ⟨address, changed⟩ := search_spec tag none lt found
    refine Prod.ext (address.trans (address_findTerminal found).symm) ?_
    refine SortedMap.ext_get? fun k => ?_
    rw [changed, get?_edit_findTerminal lt found, Option.none_or,
      head?_absorbed (tiles_codeRun lt found)]
  · have none : codeRun t m tags start stop = [] := instructionsUntil_of_le _ t m (by omega)
    rw [search, if_neg lt]
    cases tag <;> simp [findTerminal, none, absorbed, runBoundary]

/-! ### What a search does -/

/-- A search, one instruction at a time and on the map as it changes, does as `findTerminal` tells.
It ends with the first instruction that ends a run of code, or else at the end of the range. Given
no tag, it removes the boundaries strictly inside of the instructions up to there. After a terminal
instruction that ends below the end of the range, where there is no boundary, it enters one: with
the tag it is given, or else that of the lowest boundary removed, if there is either. Nothing else
changes, and a boundary where the search ends stays as it was. -/
theorem findTerminal_meets_contract (t : RepeatCeilings) (m : Image) (tags : TagMap)
    (lt : start < stop) (tag : Option Tag) :
    search t m stop tag none tags start =
      ((findTerminal t m tags start stop tag).address,
        tags.edit (findTerminal t m tags start stop tag).edits) ∧
    ((∀ i ∈ instructions t m start stop, ¬ EndsRun tags i) →
      (findTerminal t m tags start stop tag).address = stop ∧
      ∀ k, (tags.edit (findTerminal t m tags start stop tag).edits).get? k =
        if tag = none ∧ Straddled (instructions t m start stop) k then none else tags.get? k) ∧
    ∀ before i after, instructions t m start stop = before ++ i :: after →
      (∀ j ∈ before, ¬ EndsRun tags j) → EndsRun tags i →
      (findTerminal t m tags start stop tag).address = i.stop ∧
      (∀ k, (tags.edit (findTerminal t m tags start stop tag).edits).get? k =
        if k = i.stop ∧ i.isTerminal = true ∧ i.stop < stop ∧ tags.get? i.stop = none then
          tag.or (lowestStraddled? tags (before ++ [i]))
        else if tag = none ∧ Straddled (before ++ [i]) k then none
        else tags.get? k) ∧
      ∀ u, tags.get? i.stop = some u →
        (tags.edit (findTerminal t m tags start stop tag).edits).get? i.stop = some u := by
  refine ⟨search_eq_findTerminal, ?_, ?_⟩
  · intro quiet
    have walked : codeRun t m tags start stop = instructions t m start stop :=
      codeRun_of_forall quiet
    obtain ⟨last, found⟩ : ∃ last, (instructions t m start stop).getLast? = some last :=
      ⟨_, List.getLast?_eq_some_getLast (instructions_ne_nil t m lt)⟩
    have ends := (tiles_instructions t m (Nat.le_of_lt lt)).stop_getLast? found
    have goesOn := quiet last (List.mem_of_getLast? found)
    rw [← walked] at found
    refine ⟨(address_findTerminal found).trans ends, fun k => ?_⟩
    rw [get?_edit_findTerminal lt found, if_neg fun due => goesOn (.inl due.2.1), walked]
  · intro before i after walked quiet ends
    have run : codeRun t m tags start stop = before ++ [i] := codeRun_of_append walked quiet ends
    have found : (codeRun t m tags start stop).getLast? = some i := by
      rw [run, List.getLast?_concat]
    refine ⟨address_findTerminal found, fun k => ?_, fun u key => ?_⟩
    · rw [get?_edit_findTerminal lt found, run]
    · rw [get?_edit_findTerminal lt found, if_neg fun due => ?_,
        if_neg fun inside => not_straddled_stop (tiles_codeRun lt found) inside.2, key]
      rw [key] at due
      cases due.2.2.2

/-- A load that goes over two boundaries, and the return after it. -/
def absorbing : Image := ⟨0, #[0x21, 0x00, 0x00, 0xC9, 0x00], by decide⟩

/-- A map with both boundaries inside of the load. -/
def crossed : TagMap := .ofList [(0, .unknown), (1, .text), (2, .bytes), (8, .limit)]

/-- A search that is given no tag removes both boundaries and enters one after the return, with the
tag of the lower of the two. -/
theorem findTerminal_meets_contract_absorbing :
    (findTerminal .usual absorbing crossed 0 8 none).address = 4 ∧
      (crossed.edit (findTerminal .usual absorbing crossed 0 8 none).edits).get? 1 = none ∧
      (crossed.edit (findTerminal .usual absorbing crossed 0 8 none).edits).get? 2 = none ∧
      (crossed.edit (findTerminal .usual absorbing crossed 0 8 none).edits).get? 4 =
        some .text := by
  have walked : instructions .usual absorbing 0 8 = [decode .usual absorbing 0 8] ++
      decode .usual absorbing 3 8 :: instructions .usual absorbing 4 8 := by decide +kernel
  have goesOn : ∀ j ∈ [decode .usual absorbing 0 8], ¬ EndsRun crossed j := by
    unfold EndsRun
    decide +kernel
  have returns : EndsRun crossed (decode .usual absorbing 3 8) := .inl (by decide +kernel)
  obtain ⟨ends, changed, -⟩ :=
    (findTerminal_meets_contract .usual absorbing crossed (show 0 < 8 by decide) none).2.2 _ _ _
      walked goesOn returns
  refine ⟨ends, ?_, ?_, ?_⟩
  all_goals
    rw [changed]
    decide +kernel

end MemoryAtlas.Traced
