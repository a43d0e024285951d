import MemoryAtlas.Proofs.Coverage
import MemoryAtlas.Proofs.Relocation.Marking

/-!
# Classification without a trace, in another place

Without a trace, classification looks at the bytes of the range alone, and does not care where they
stand: the same bytes elsewhere, in whatever surroundings, get the same map, moved along.

The instructions of the two ranges resemble each other, so they are cut into segments and streaks in
the same places. They may differ in the ceiling of the last one, if it ends at the end of the range
and is not terminal. Then it belongs to the last streak of a segment without terminal instruction,
and that streak is not judged.

## Main definitions

* `Heuristic.Progress.Moved`: two sweeps that stand at the same place, the second higher up.
* `Heuristic.Moved`: two maps of a range, the second higher up.

## Main results

* `Heuristic.splitBy_forall₂`: lists that resemble each other are cut in the same places.
* `Heuristic.sweep_relocated`: the map of a sweep.
* `Heuristic.classify_relocated`: the map of a classification.
-/

namespace MemoryAtlas.Heuristic

open Z80 TagMap

/-! ### Cutting lists -/

section Lists

variable {α β : Type} {R : α → β → Prop} {r : α → α → Bool} {r' : β → β → Bool} {l : List α}
  {l' : List β}

theorem splitByLoop_forall₂ (same : ∀ x x' y y', R x x' → R y y' → r' x' y' = r x y)
    (h : List.Forall₂ R l l') {a : α} {a' : β} (ha : R a a') {g : List α} {g' : List β}
    (hg : List.Forall₂ R g g') {gs : List (List α)} {gs' : List (List β)}
    (hgs : List.Forall₂ (List.Forall₂ R) gs gs') :
    List.Forall₂ (List.Forall₂ R) (List.splitBy.loop r l a g gs)
      (List.splitBy.loop r' l' a' g' gs') := by
  induction h generalizing a a' g g' gs gs' with
  | nil =>
    rw [List.splitBy.loop, List.splitBy.loop]
    exact List.rel_reverse (.cons (List.rel_reverse (.cons ha hg)) hgs)
  | cons first rest ih =>
    rw [List.splitBy.loop, List.splitBy.loop, same _ _ _ _ ha first]
    split
    · exact ih first (.cons ha hg) hgs
    · exact ih first .nil (.cons (List.rel_reverse (.cons ha hg)) hgs)

/-- Lists that resemble each other are cut in the same places. -/
theorem splitBy_forall₂ (same : ∀ x x' y y', R x x' → R y y' → r' x' y' = r x y)
    (h : List.Forall₂ R l l') :
    List.Forall₂ (List.Forall₂ R) (l.splitBy r) (l'.splitBy r') := by
  cases h with
  | nil => exact .nil
  | cons first rest => exact splitByLoop_forall₂ same rest first .nil .nil

theorem forall₂_iff_map_eq {f : α → β} : List.Forall₂ (fun x y => f x = y) l l' ↔ l.map f = l' := by
  rw [← List.forall₂_map_left_iff (R := Eq), List.forall₂_eq_eq_eq]

theorem splitBy_map {f : α → β} (same : ∀ x y, r' (f x) (f y) = r x y) :
    (l.map f).splitBy r' = (l.splitBy r).map (List.map f) := by
  have cut : List.Forall₂ (List.Forall₂ fun x y => f x = y) (l.splitBy r) ((l.map f).splitBy r') :=
    splitBy_forall₂ (by rintro x _ y _ rfl rfl; exact same x y) (forall₂_iff_map_eq.2 rfl)
  exact (forall₂_iff_map_eq.1 (cut.imp fun _ _ => forall₂_iff_map_eq.1)).symm

theorem getLast?_forall₂ (h : List.Forall₂ R l l') :
    l.getLast? = none ∧ l'.getLast? = none ∨
      ∃ x x', l.getLast? = some x ∧ l'.getLast? = some x' ∧ R x x' := by
  induction h with
  | nil => exact .inl ⟨rfl, rfl⟩
  | cons first rest ih =>
    rw [List.getLast?_cons, List.getLast?_cons]
    rcases ih with ⟨none, none'⟩ | ⟨x, x', last, last', related⟩
    · exact .inr ⟨_, _, rfl, rfl, by rw [none, none']; exact first⟩
    · exact .inr ⟨_, _, rfl, rfl, by rw [last, last']; exact related⟩

theorem exists_mem_of_forall₂ (h : List.Forall₂ R l l') {x : α} (mem : x ∈ l) :
    ∃ x' ∈ l', R x x' := by
  induction h with
  | nil => cases mem
  | cons first rest ih =>
    rcases List.mem_cons.1 mem with rfl | mem
    · exact ⟨_, List.mem_cons_self, first⟩
    · obtain ⟨x', mem', related⟩ := ih mem
      exact ⟨x', List.mem_cons_of_mem _ mem', related⟩

end Lists

variable {s : Settings} {t : RepeatCeilings} {m m' : Image} {tags tags' : TagMap} {b : Block}
  {d start stop limit c e : Nat} {edits edits' : List Edit} {l l' : List Instruction}
  {lists lists' : List (List Instruction)} {p q : Progress}

/-! ### The sweep -/

namespace Progress

/-- Two sweeps that stand at the same place, the second `d` addresses higher. -/
structure Moved (d : Nat) (p q : Progress) : Prop where
  boundaries : q.boundaries = p.boundaries.map (shiftEntry d)
  pending : q.pending = p.pending + d

namespace Moved

theorem pending_lt_iff (h : Moved d p q) : q.pending < c + d ↔ p.pending < c := by
  rw [h.pending, Nat.add_lt_add_iff_right]

theorem enter (h : Moved d p q) (u : Tag) :
    (q.enter q.pending u).boundaries = (p.enter p.pending u).boundaries.map (shiftEntry d) := by
  rw [Progress.enter, Progress.enter, h.boundaries, h.pending]
  rfl

theorem lastTag (h : Moved d p q) :
    q.boundaries.head?.map (·.2) = p.boundaries.head?.map (·.2) := by
  rw [h.boundaries, List.head?_map, Option.map_map]
  rfl

/-- A streak whose first instructions have the same ceiling is judged in the same way. -/
theorem afterStreak (h : Moved d p q)
    (alike : List.Forall₂ (Instruction.Resembles d limit) l l')
    (judged : ∀ i ∈ l, i.stop < limit ∨ i.isTerminal = true) :
    Moved d (p.afterStreak l) (q.afterStreak l') := by
  have length := alike.length_eq
  rcases getLast?_forall₂ alike with ⟨none, none'⟩ | ⟨last, last', found, found', ends⟩
  · rw [List.getLast?_eq_none_iff.1 none, List.getLast?_eq_none_iff.1 none']
    exact h
  cases alike with
  | nil => cases found
  | @cons i j l l' first rest =>
    -- The two streaks are the same, so both are data in disguise or neither is.
    have same : streakOf j (j :: l').length = streakOf i (i :: l).length := by
      rw [streakOf, streakOf, first.bytes, first.ceiling (judged i List.mem_cons_self), length]
    simp only [Progress.afterStreak, Progress.judge, same, found, found', h.lastTag, Streak.resolve,
      ends.stop]
    split
    · refine ⟨?_, rfl⟩
      dsimp only
      rw [h.boundaries, h.pending]
      split <;> rfl
    · exact ⟨h.boundaries, h.pending⟩

theorem foldl_afterStreak (h : Moved d p q)
    (alike : List.Forall₂ (List.Forall₂ (Instruction.Resembles d limit)) lists lists')
    (judged : ∀ i ∈ lists.flatten, i.stop < limit ∨ i.isTerminal = true) :
    Moved d (lists.foldl Progress.afterStreak p) (lists'.foldl Progress.afterStreak q) := by
  induction alike generalizing p q with
  | nil => exact h
  | cons first rest ih =>
    refine ih (h.afterStreak first fun i mem => judged i ?_) fun i mem => judged i ?_
    · exact List.mem_append_left _ mem
    · exact List.mem_append_right _ mem

theorem close (h : Moved d p q) : Moved d (p.close c) (q.close (c + d)) := by
  simp only [Progress.close, h.pending_lt_iff]
  split
  · exact ⟨h.enter .code, rfl⟩
  · exact ⟨h.boundaries, rfl⟩

/-- A segment that ends at or below the limit is judged in the same way. -/
theorem afterSegment (h : Moved d p q)
    (alike : List.Forall₂ (Instruction.Resembles d limit) l l') (tiles : Tiles c l e)
    (le : e ≤ limit) : Moved d (p.afterSegment l) (q.afterSegment l') := by
  have cut : List.Forall₂ (List.Forall₂ (Instruction.Resembles d limit)) (streaks l) (streaks l') :=
    splitBy_forall₂ (fun _ _ _ _ hx hy => by rw [hx.classId, hy.classId]) alike
  unfold Progress.afterSegment
  rcases getLast?_forall₂ alike with ⟨none, none'⟩ | ⟨last, last', found, found', ends⟩
  · rw [none, none']
    exact h
  rw [found, found']
  dsimp only
  rw [ends.isTerminal, ends.stop]
  split
  · next terminal =>
    refine (h.foldl_afterStreak cut fun i mem => ?_).close
    -- The terminal instruction is the last, and the others end before it.
    rw [streaks, List.flatten_splitBy] at mem
    obtain ⟨init, rfl⟩ := List.getLast?_eq_some_iff.1 found
    obtain ⟨b, before, rest⟩ := Tiles.append_iff.1 tiles
    rcases List.mem_append.1 mem with mem | mem
    · have lower := (before.bounds mem).2.2
      have upper := rest.lt (by simp)
      exact .inl (by omega)
    · rw [List.mem_singleton.1 mem]
      exact .inr terminal
  · -- The last streak is not judged, and the others end before it.
    have whole := tiles_streaks tiles
    have split : streaks l ≠ [] := List.splitBy_ne_nil.2 fun none => by simp [none] at found
    have nonempty : (streaks l).getLast split ≠ [] :=
      List.ne_nil_of_mem_splitBy (List.getLast_mem split)
    rw [← List.dropLast_append_getLast split, List.flatten_append] at whole
    obtain ⟨b, before, rest⟩ := Tiles.append_iff.1 whole
    have judged : List.Forall₂ (List.Forall₂ (Instruction.Resembles d limit))
        (streaks l).dropLast (streaks l').dropLast := by
      rw [List.dropLast_eq_take, List.dropLast_eq_take, ← cut.length_eq]
      exact List.forall₂_take _ cut
    refine h.foldl_afterStreak judged fun i mem => .inl ?_
    have lower := (before.bounds mem).2.2
    have upper := rest.lt (by simpa using nonempty)
    omega

theorem foldl_afterSegment (h : Moved d p q)
    (alike : List.Forall₂ (List.Forall₂ (Instruction.Resembles d limit)) lists lists')
    (tiles : Tiles c lists.flatten limit) :
    Moved d (lists.foldl Progress.afterSegment p) (lists'.foldl Progress.afterSegment q) := by
  induction alike generalizing p q c with
  | nil => exact h
  | cons first rest ih =>
    obtain ⟨b, before, after⟩ := Tiles.append_iff.1 tiles
    exact ih (h.afterSegment first before after.le) after

end Moved

end Progress

theorem boundaries_sweepProgress_relocated (h : m.Relocated m' d start stop) (le : start ≤ stop) :
    (sweepProgress t m' (start + d) (stop + d)).boundaries =
      (sweepProgress t m start stop).boundaries.map (shiftEntry d) := by
  have alike : List.Forall₂ (Instruction.Resembles d stop) (instructions t m start stop)
      (instructions t m' (start + d) (stop + d)) :=
    resemble_instructionsUntil h fun _ _ _ => rfl
  have cut : List.Forall₂ (List.Forall₂ (Instruction.Resembles d stop))
      (segments (instructions t m start stop))
      (segments (instructions t m' (start + d) (stop + d))) :=
    splitBy_forall₂ (fun _ _ _ _ hx _ => by rw [hx.isTerminal]) alike
  have initial : Progress.Moved d ⟨[], start, []⟩ ⟨[], start + d, []⟩ := ⟨rfl, rfl⟩
  have moved := initial.foldl_afterSegment cut (tiles_segments t m le)
  -- What is left below the end of the range is data.
  simp only [sweepProgress, Progress.finish, moved.pending_lt_iff]
  split
  · exact moved.enter .bytes
  · exact moved.boundaries

theorem ofList_eq_edit (l : List (Nat × Tag)) :
    SortedMap.ofList l = TagMap.edit ∅ (TagMap.assignments l) := by
  rw [TagMap.edit, TagMap.assignments, List.foldl_map]
  rfl

/-- The map of a sweep moves along with the bytes of its range. -/
theorem sweep_relocated (h : m.Relocated m' d start stop) (le : start ≤ stop) :
    (sweep t m' (start + d) (stop + d)).value = (sweep t m start stop).value.shift d := by
  have boundaries := boundaries_sweepProgress_relocated (t := t) h le
  have assignments : ∀ l : List (Nat × Tag),
      (TagMap.assignments l).map (Edit.shift d) = TagMap.assignments (l.map (shiftEntry d)) := by
    intro l
    rw [TagMap.assignments, TagMap.assignments, List.map_map, List.map_map]
    rfl
  simp only [sweep, shift_insert, ofList_eq_edit, shift_edit, assignments, ← boundaries]
  rfl

/-! ### The phases after the sweep -/

theorem splitBlock_relocated (h : m.Relocated m' d b.start b.stop) :
    splitBlock m' (b.shift d) = (splitBlock m b).map (Edit.shift d) := by
  have zeros : leadingZeros m' (b.shift d) = leadingZeros m b := by
    rw [leadingZeros, leadingZeros, Block.shift, h.slice]
  rw [splitBlock, splitBlock, zeros]
  simp only [Block.shift, Nat.add_right_comm _ d, Nat.add_lt_add_iff_right]
  split
  · rfl
  · split <;> rfl

theorem mergeData_shift (tags : TagMap) :
    mergeData (tags.shift d) = (mergeData tags).map (Edit.shift d) := by
  have runs : dataRuns (tags.shift d).entries =
      (dataRuns tags.entries).map (List.map (shiftEntry d)) := splitBy_map fun _ _ => rfl
  have joined : ∀ run, joinRun (run.map (shiftEntry d)) = (joinRun run).map (Edit.shift d) := by
    intro run
    cases run with
    | nil => rfl
    | cons first rest =>
      rw [List.map_cons, joinRun, joinRun, List.flatMap_map, List.map_flatMap]
      rfl
  rw [mergeData, mergeData, runs, List.flatMap_map, List.map_flatMap]
  exact List.flatMap_congr fun run _ => joined run

/-- Two maps, the first of a range and the second the same, `d` addresses higher. -/
structure Moved (start stop d : Nat) (tags tags' : TagMap) : Prop where
  wellFormed : tags.WellFormed start stop
  eq : tags' = tags.shift d

namespace Moved

theorem edit (h : Moved start stop d tags tags') (inside : ∀ e ∈ edits, e.Inside start stop)
    (moved : edits' = edits.map (Edit.shift d)) :
    Moved start stop d (tags.edit edits) (tags'.edit edits') where
  wellFormed := h.wellFormed.edit inside
  eq := by rw [h.eq, moved, shift_edit]

/-- A phase that edits block by block moves along, if its edits of each block do. -/
theorem edit_flatMap (h : Moved start stop d tags tags') {u : Tag} {f g : Block → List Edit}
    (inside : ∀ b ∈ tags.blocksTagged u, ∀ e ∈ f b, e.Inside start stop)
    (moved : ∀ b ∈ tags.blocks, g (b.shift d) = (f b).map (Edit.shift d)) :
    Moved start stop d (tags.edit ((tags.blocksTagged u).flatMap f))
      (tags'.edit ((tags'.blocksTagged u).flatMap g)) := by
  refine h.edit (fun e mem => ?_) ?_
  · obtain ⟨b, hb, mem⟩ := List.mem_flatMap.1 mem
    exact inside b hb e mem
  · rw [h.eq, blocksTagged_shift]
    exact flatMap_shift fun b hb => moved b (List.mem_of_mem_filter hb)

end Moved

/-- What holds of the maps of two sweeps and is kept by the edits of every later phase in both
classifications holds of their results. -/
theorem classify_induction₂ {motive : TagMap → TagMap → Prop} {start' stop' : Nat}
    (sweep : motive (sweep t m start stop).value (sweep t m' start' stop').value)
    (splitLeadingZeros : ∀ tags tags', motive tags tags' → motive
      (tags.edit (splitLeadingZeros m tags)) (tags'.edit (splitLeadingZeros m' tags')))
    (markZeroFill : ∀ tags tags', motive tags tags' → motive
      (tags.edit (markZeroFill m tags)) (tags'.edit (markZeroFill m' tags')))
    (mergeData : ∀ tags tags', motive tags tags' → motive
      (tags.edit (mergeData tags)) (tags'.edit (mergeData tags')))
    (markText : ∀ tags tags', motive tags tags' → motive
      (tags.edit ((tags.blocksTagged .bytes).flatMap fun b => markText s m b.span))
      (tags'.edit ((tags'.blocksTagged .bytes).flatMap fun b => markText s m' b.span)))
    (markTextInCode : ∀ tags tags', motive tags tags' → motive
      (tags.edit ((tags.blocksTagged .code).flatMap fun b => markTextInCode s m b.span))
      (tags'.edit ((tags'.blocksTagged .code).flatMap fun b => markTextInCode s m' b.span))) :
    motive (classify s t m start stop).value (classify s t m' start' stop').value := by
  simp only [classify, Logged.value_bind, Logged.value_pure, value_perform]
  apply markTextInCode
  apply markText
  apply mergeData
  apply markZeroFill
  apply splitLeadingZeros
  exact sweep

/-- The map of a range moves along with the bytes of the range. -/
theorem moved_classify (h : m.Relocated m' d start stop) (lt : start < stop) :
    Moved start stop d (classify s t m start stop).value
      (classify s t m' (start + d) (stop + d)).value := by
  apply classify_induction₂
  case sweep => exact ⟨wellFormed_sweep lt, sweep_relocated h (Nat.le_of_lt lt)⟩
  case splitLeadingZeros =>
    intro tags tags' moved
    refine moved.edit_flatMap (fun b hb e mem => ?_)
      fun b hb => splitBlock_relocated (h.block moved.wellFormed hb)
    exact inside_splitLeadingZeros moved.wellFormed (List.mem_flatMap.2 ⟨b, hb, mem⟩)
  case markZeroFill =>
    intro tags tags' moved
    refine moved.edit (fun _ mem => inside_markZeroFill moved.wellFormed mem) ?_
    rw [moved.eq]
    exact markZeroFill_relocated fun b hb => h.block moved.wellFormed hb
  case mergeData =>
    intro tags tags' moved
    refine moved.edit (fun _ mem => inside_mergeData moved.wellFormed mem) ?_
    rw [moved.eq, mergeData_shift]
  case markText =>
    intro tags tags' moved
    exact moved.edit_flatMap
      (fun b hb e mem => inside_markText moved.wellFormed (List.mem_of_mem_filter hb) mem)
      fun b hb => markText_relocated
        (show m.Relocated m' d b.span.start b.span.stop from h.block moved.wellFormed hb)
  case markTextInCode =>
    intro tags tags' moved
    exact moved.edit_flatMap
      (fun b hb e mem => inside_markTextInCode moved.wellFormed (List.mem_of_mem_filter hb) mem)
      fun b hb => markTextInCode_relocated
        (show m.Relocated m' d b.span.start b.span.stop from h.block moved.wellFormed hb)

/-- Two ranges of the same bytes, in whatever memories and wherever there, get the same map: the
keys of the second are those of the first moved by the distance of the ranges, with the same
tags. -/
theorem classify_relocated (s : Settings) (t : RepeatCeilings) {first second : Image} {a b n : Nat}
    (nonempty : 1 ≤ n) (fitsFirst : a + n ≤ addressSpace) (fitsSecond : b + n ≤ addressSpace)
    (same : ∀ i < n, first.read (a + i) = second.read (b + i)) :
    (classify s t second b (b + n)).value.entries.map (fun e => ((e.1 : Int), e.2)) =
      (classify s t first a (a + n)).value.entries.map
        (fun e => ((e.1 : Int) + ((b : Int) - (a : Int)), e.2)) := by
  -- The one that stands lower is moved up to the other.
  rcases Nat.le_total a b with le | le
  · obtain ⟨d, rfl⟩ := Nat.exists_eq_add_of_le le
    have relocated : first.Relocated second d a (a + n) :=
      Image.relocated_of_forall_lt fitsSecond same
    have moved := (moved_classify (s := s) (t := t) relocated (by omega)).eq
    rw [Nat.add_right_comm] at moved
    rw [moved, TagMap.shift, List.map_map]
    refine List.map_congr_left fun e _ => Prod.ext ?_ rfl
    simp only [Function.comp_apply, shiftEntry]
    omega
  · obtain ⟨d, rfl⟩ := Nat.exists_eq_add_of_le le
    have relocated : second.Relocated first d b (b + n) :=
      Image.relocated_of_forall_lt fitsFirst fun i lt => (same i lt).symm
    have moved := (moved_classify (s := s) (t := t) relocated (by omega)).eq
    rw [Nat.add_right_comm] at moved
    rw [moved, TagMap.shift, List.map_map]
    refine List.map_congr_left fun e _ => Prod.ext ?_ rfl
    simp only [Function.comp_apply, shiftEntry]
    omega

/-- A routine, zeros, a text and an index byte, with another index byte behind them. -/
def greeting : Image :=
  ⟨0, #[0x3E, 0x07, 0xC9, 0x00, 0x00, 0x00, 0x48, 0x45, 0x4C, 0x4C, 0x4F, 0xDD, 0xDD], by decide⟩

/-- The same higher up, between a return and the rest of an indexed load. -/
def greetingAloft : Image :=
  ⟨0x8000, #[0xC9, 0x3E, 0x07, 0xC9, 0x00, 0x00, 0x00, 0x48, 0x45, 0x4C, 0x4C, 0x4F, 0xDD, 0x21,
    0x34, 0x12], by decide⟩

/-- The index byte at the end of the range has a ceiling in one memory only, and would be data by
it. -/
theorem classify_relocated_greeting :
    (decode (RepeatCeilings.usual.set (rawClass + 0xDD) 1) greeting 11 12).ceiling = 1 ∧
      (decode (RepeatCeilings.usual.set (rawClass + 0xDD) 1) greetingAloft 0x800C 0x800D).ceiling =
          0 ∧
        (classify .usual (RepeatCeilings.usual.set (rawClass + 0xDD) 1) greetingAloft 0x8001
            (0x8001 + 12)).value.entries.map (fun e => ((e.1 : Int), e.2)) =
          [(0x8001, .code), (0x8004, .bytes), (0x8007, .text), (0x800C, .bytes),
            (0x800D, .limit)] := by
  have same : ∀ i < 12, greeting.read (0 + i) = greetingAloft.read (0x8001 + i) := by decide
  refine ⟨by decide +kernel, by decide +kernel, ?_⟩
  rw [classify_relocated .usual _ (by decide) (by decide) (by decide) same]
  decide +kernel

end MemoryAtlas.Heuristic
