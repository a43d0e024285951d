import MemoryAtlas.Proofs.Heuristic.Boundaries
import MemoryAtlas.Proofs.Phases.Inside

/-!
# The sweep and the joining of data in one pass

The sweep is told by cuts of its instructions into segments and streaks, the joining of data by a
cut of the boundaries into runs. Both can be done in one pass, which takes one element at a time and
keeps a little of what it has passed: the sweep keeps the open streak, and joining the boundary
before. What a pass keeps is told by the last part of the cut of what it has passed. The next
element goes to that part or makes a new one, so the pass comes to what the cuts tell.

## Main definitions

* `Heuristic.Pass.step`: a sweep, one instruction at a time.
* `Heuristic.Joining.step`: the joining of data, one boundary at a time.

## Main results

* `Heuristic.splitBy_concat_of_rel`, `Heuristic.splitBy_concat_of_not_rel`: the cut of a list with
  one element more.
* `Heuristic.Pass.step_standing`, `Heuristic.foldl_passStep`: a step of the sweep, and all of it.
* `Heuristic.Joining.step_standing`, `Heuristic.foldl_joiningStep`: a step of joining, and all of
  it.
-/

namespace MemoryAtlas.Heuristic

/-! ### Cuts with one element more -/

section Cuts

variable {α : Type} {r : α → α → Bool} {l part : List α} {parts : List (List α)} {x y : α}

theorem exists_splitBy_eq (r : α → α → Bool) (ne : l ≠ []) :
    ∃ parts part x, l.splitBy r = parts ++ [part] ∧ part.getLast? = some x := by
  have split : l.splitBy r ≠ [] := List.splitBy_ne_nil.2 ne
  have nonempty := List.ne_nil_of_mem_splitBy (List.getLast_mem split)
  exact ⟨_, _, _, (List.dropLast_append_getLast split).symm,
    List.getLast?_eq_some_getLast nonempty⟩

theorem getLast?_of_splitBy (cut : l.splitBy r = parts ++ [part]) (last : part.getLast? = some x) :
    l.getLast? = some x := by
  rw [← List.flatten_splitBy r l, cut, List.flatten_append, List.flatten_singleton,
    List.getLast?_append, last]
  rfl

/-- An element that belongs to the last one goes to its part. -/
theorem splitBy_concat_of_rel (cut : l.splitBy r = parts ++ [part]) (last : part.getLast? = some x)
    (rel : r x y = true) : (l ++ [y]).splitBy r = parts ++ [part ++ [y]] := by
  obtain ⟨whole, nonempty, inner, outer⟩ := List.splitBy_eq_iff.1 cut
  refine List.splitBy_eq_iff.2 ⟨?_, ?_, fun p mem => ?_, ?_⟩
  · simp [whole]
  · simpa using fun mem => nonempty (List.mem_append_left _ mem)
  · rcases List.mem_append.1 mem with mem | mem
    · exact inner p (List.mem_append_left _ mem)
    · rw [List.mem_singleton.1 mem]
      refine List.isChain_append.2 ⟨inner part (by simp), List.isChain_singleton _, ?_⟩
      simpa [last] using rel
  · -- Only the end of the last part is new, and the part before it does not reach there.
    obtain ⟨earlier, -, across⟩ := List.isChain_append.1 outer
    refine List.isChain_append.2 ⟨earlier, List.isChain_singleton _, fun p mem q mem' => ?_⟩
    obtain rfl := Option.some.inj mem'
    obtain ⟨hp, hq, apart⟩ := across p mem part rfl
    exact ⟨hp, by simp, by rwa [List.head_append_of_ne_nil hq]⟩

/-- An element that does not belong to the last one is a part of its own. -/
theorem splitBy_concat_of_not_rel (cut : l.splitBy r = parts ++ [part])
    (last : part.getLast? = some x) (rel : r x y = false) :
    (l ++ [y]).splitBy r = parts ++ [part] ++ [[y]] := by
  rw [List.splitBy_append_cons [] fun z mem => ?_, cut]
  · rfl
  · rw [getLast?_of_splitBy cut last] at mem
    rwa [← Option.some.inj mem]

end Cuts

/-! ### The sweep -/

open Z80

variable {t : RepeatCeilings} {m : Image} {start stop c d : Nat} {p : Progress}
  {l l' : List Instruction} {i last : Instruction}

/-- A streak that may still grow, with the class of its instructions. -/
structure OpenStreak extends Streak where
  /-- The class. -/
  classId : Nat

namespace OpenStreak

variable {o : OpenStreak}

/-- The streak that an instruction starts. -/
def begin (i : Instruction) : OpenStreak := ⟨streakOf i 1, i.classId⟩

/-- The streak with one instruction more. -/
def grow (o : OpenStreak) : OpenStreak := { o with count := o.count + 1 }

/-- The streak of some instructions. -/
def of? : List Instruction → Option OpenStreak
  | [] => none
  | first :: rest => some ⟨streakOf first (first :: rest).length, first.classId⟩

theorem of?_concat (h : of? l = some o) (i : Instruction) : of? (l ++ [i]) = some o.grow := by
  cases l with
  | nil => cases h
  | cons first rest =>
    obtain rfl := Option.some.inj h
    simp [of?, grow, streakOf]

theorem classId_of? (h : of? l = some o) (chain : l.IsChain fun i j => i.classId == j.classId)
    (found : l.getLast? = some last) : o.classId = last.classId := by
  cases l with
  | nil => cases h
  | cons first rest =>
    obtain rfl := Option.some.inj h
    dsimp only
    clear h
    induction rest generalizing first with
    | nil =>
      obtain rfl : first = last := Option.some.inj found
      rfl
    | cons next rest ih =>
      obtain ⟨same, chain⟩ := List.isChain_cons_cons.1 chain
      rw [beq_iff_eq.1 same]
      exact ih next chain found

end OpenStreak

theorem Progress.afterStreak_eq_judge {o : OpenStreak} (h : OpenStreak.of? l = some o)
    (found : l.getLast? = some last) : p.afterStreak l = p.judge o.toStreak last.stop := by
  cases l with
  | nil => cases h
  | cons first rest =>
    obtain rfl := Option.some.inj h
    simp only [afterStreak, found]

/-- A sweep that may stand inside of a streak. -/
structure Pass where
  /-- What it has found before that streak. -/
  progress : Progress
  /-- The streak. -/
  streak? : Option OpenStreak

namespace Pass

/-- An instruction goes on with the open streak, or starts another one. Then the open one ends where
the instruction starts, and is judged. -/
def meet (q : Pass) (i : Instruction) : Progress × OpenStreak :=
  match q.streak? with
  | some o =>
    if o.classId = i.classId then (q.progress, o.grow)
    else (q.progress.judge o.toStreak i.address, .begin i)
  | none => (q.progress, .begin i)

/-- The pass after an instruction. A terminal one ends its streak, and what is still pending is
code. -/
def step (q : Pass) (i : Instruction) : Pass :=
  let met := q.meet i
  if i.isTerminal then ⟨(met.1.judge met.2.toStreak i.stop).close i.stop, none⟩
  else ⟨met.1, some met.2⟩

/-- The pass at the end of instructions of a segment: all streaks but the last are judged. -/
def standing (p : Progress) (l : List Instruction) : Pass where
  progress := (streaks l).dropLast.foldl Progress.afterStreak p
  streak? := (streaks l).getLast?.bind OpenStreak.of?

theorem standing_of_streaks {parts : List (List Instruction)} {part : List Instruction}
    (cut : streaks l = parts ++ [part]) :
    standing p l = ⟨parts.foldl Progress.afterStreak p, OpenStreak.of? part⟩ := by
  rw [standing, cut, List.dropLast_concat, List.getLast?_concat, Option.bind_some]

/-- What a pass makes of the next instruction is told by the streaks up to it. -/
theorem meet_standing (p : Progress) (adjacent : ∀ j ∈ l.getLast?, i.address = j.stop) :
    ∃ parts part o, streaks (l ++ [i]) = parts ++ [part] ∧ part.getLast? = some i ∧
      OpenStreak.of? part = some o ∧
        (standing p l).meet i = (parts.foldl Progress.afterStreak p, o) := by
  by_cases ne : l = []
  · subst ne
    exact ⟨[], [i], .begin i, rfl, rfl, rfl, rfl⟩
  obtain ⟨parts, part, last, cut, found⟩ :=
    exists_splitBy_eq (fun i j : Instruction => i.classId == j.classId) ne
  obtain ⟨o, opened⟩ : ∃ o, OpenStreak.of? part = some o := by
    cases part with
    | nil => cases found
    | cons first rest => exact ⟨_, rfl⟩
  have chain := List.isChain_of_mem_splitBy (m := part) (by rw [cut]; simp)
  have classId := OpenStreak.classId_of? opened chain found
  rw [standing_of_streaks cut, opened, meet]
  by_cases same : o.classId = i.classId
  · refine ⟨parts, part ++ [i], o.grow, splitBy_concat_of_rel cut found ?_, List.getLast?_concat,
      OpenStreak.of?_concat opened i, if_pos same⟩
    rw [← classId, same, beq_self_eq_true]
  · refine ⟨parts ++ [part], [i], .begin i, splitBy_concat_of_not_rel cut found ?_, rfl, rfl, ?_⟩
    · rwa [← classId, beq_eq_false_iff_ne]
    · -- The streak that ends is judged where its last instruction does.
      dsimp only
      rw [if_neg same, List.foldl_append, List.foldl_cons, List.foldl_nil,
        Progress.afterStreak_eq_judge opened found, adjacent last (getLast?_of_splitBy cut found)]

/-- One step: a terminal instruction ends the segment, and any other one belongs to it. -/
theorem step_standing (p : Progress) (adjacent : ∀ j ∈ l.getLast?, i.address = j.stop) :
    (standing p l).step i =
      if i.isTerminal then standing (p.afterSegment (l ++ [i])) [] else standing p (l ++ [i]) := by
  obtain ⟨parts, part, o, cut, found, opened, met⟩ := meet_standing p adjacent
  rw [step, met]
  dsimp only
  split
  · next terminal =>
    rw [Progress.afterSegment, List.getLast?_concat]
    dsimp only
    rw [if_pos terminal, cut, List.foldl_append, List.foldl_cons, List.foldl_nil,
      Progress.afterStreak_eq_judge opened found]
    rfl
  · rw [standing_of_streaks cut, opened]

end Pass

/-- Instructions of which only the last may be terminal are one segment. -/
theorem segments_concat (goesOn : ∀ j ∈ l, j.isTerminal = false) (i : Instruction) :
    segments (l ++ [i]) = [l ++ [i]] := by
  refine List.splitBy_of_isChain (by simp) (List.Pairwise.isChain ?_)
  refine List.pairwise_append.2 ⟨?_, List.pairwise_singleton _ _, fun j mem _ _ => ?_⟩
  · exact List.pairwise_of_forall_mem_list fun j mem _ _ => by rw [goesOn j mem]; rfl
  · rw [goesOn j mem]
    rfl

/-- A pass through the rest of the instructions, from any place in a segment. -/
theorem progress_foldl_passStep (p : Progress) (tiles : Tiles c (l ++ l') d)
    (goesOn : ∀ j ∈ l, j.isTerminal = false) :
    (l'.foldl Pass.step (.standing p l)).progress =
      (segments (l ++ l')).foldl Progress.afterSegment p := by
  induction l' generalizing l p c with
  | nil =>
    rw [List.append_nil, List.foldl_nil]
    rcases List.eq_nil_or_concat l with rfl | ⟨init, last, rfl⟩
    · rfl
    · -- The range ends in the segment, and its last streak is not judged.
      rw [List.concat_eq_append] at goesOn ⊢
      rw [segments_concat fun j mem => goesOn j (List.mem_append_left _ mem), List.foldl_cons,
        List.foldl_nil, Progress.afterSegment, List.getLast?_concat]
      dsimp only
      rw [goesOn last (by simp)]
      rfl
  | cons i l' ih =>
    obtain ⟨b, before, after⟩ := Tiles.append_iff.1 tiles
    have adjacent : ∀ j ∈ l.getLast?, i.address = j.stop := fun j mem => by
      rw [before.stop_getLast? mem]
      exact after.1
    rw [List.foldl_cons, Pass.step_standing p adjacent]
    split
    · next terminal =>
      -- The next segment starts after the terminal instruction.
      have parts : segments (l ++ i :: l') = (l ++ [i]) :: segments l' := by
        have split : segments (l ++ [i] ++ l') = segments (l ++ [i]) ++ segments l' := by
          refine List.splitBy_append fun x mem _ _ => ?_
          rw [List.getLast?_concat] at mem
          rw [← Option.some.inj mem, terminal]
          rfl
        rwa [segments_concat goesOn, List.append_assoc] at split
      rw [ih _ after.2.2 (by simp), parts]
      rfl
    · next other =>
      rw [ih p (by simpa using tiles), List.append_assoc]
      · rfl
      · intro j mem
        rcases List.mem_append.1 mem with mem | mem
        · exact goesOn j mem
        · rw [List.mem_singleton.1 mem]
          simpa using other

/-- A sweep in one pass finds what the cuts tell. -/
theorem foldl_passStep (t : RepeatCeilings) (m : Image) (le : start ≤ stop) :
    ((instructions t m start stop).foldl Pass.step ⟨⟨[], start, []⟩, none⟩).progress.finish stop =
      sweepProgress t m start stop :=
  congrArg (Progress.finish · stop)
    (progress_foldl_passStep (l := []) ⟨[], start, []⟩ (tiles_instructions t m le) (by simp))

/-! ### The joining of data -/

open TagMap

variable {tags : TagMap} {boundaries : List (Nat × Tag)}

/-- The joining of data, before the next boundary. -/
structure Joining where
  /-- The boundary before, as it is by now. -/
  previous? : Option (Nat × Tag)
  /-- The map as it is by now, with the changes reported. -/
  tags : Logged TagMap

namespace Joining

/-- The joining of data after a boundary. Data after data loses its boundary, and the one before
becomes bytes. -/
def step (q : Joining) (e : Nat × Tag) : Joining :=
  match q.previous? with
  | some (a, u) =>
    if u.isData && e.2.isData then
      ⟨some (a, .bytes), do (← q.tags).perform [.assign a .bytes, .clear e.1]⟩
    else ⟨some e, q.tags⟩
  | none => ⟨some e, q.tags⟩

/-- The boundary that is left of a run. -/
def left? : List (Nat × Tag) → Option (Nat × Tag)
  | [] => none
  | first :: rest => some (first.1, if rest = [] then first.2 else .bytes)

/-- The joining of data after some boundaries: their runs are joined, the last of them as far as it
goes. -/
def standing (tags : TagMap) (boundaries : List (Nat × Tag)) : Joining where
  previous? := (dataRuns boundaries).getLast?.bind left?
  tags := tags.perform ((dataRuns boundaries).flatMap joinRun)

theorem standing_of_runs {runs : List (List (Nat × Tag))} {run : List (Nat × Tag)}
    (cut : dataRuns boundaries = runs ++ [run]) :
    standing tags boundaries = ⟨left? run, tags.perform ((runs ++ [run]).flatMap joinRun)⟩ := by
  rw [standing, cut, List.getLast?_concat, Option.bind_some]

/-- One step: the next boundary is joined to the last run, or starts a run of its own. -/
theorem step_standing (tags : TagMap) (boundaries : List (Nat × Tag)) (e : Nat × Tag) :
    (standing tags boundaries).step e = standing tags (boundaries ++ [e]) := by
  by_cases ne : boundaries = []
  · subst ne
    rfl
  obtain ⟨runs, run, last, cut, found⟩ :=
    exists_splitBy_eq (fun x y : Nat × Tag => x.2.isData && y.2.isData) ne
  obtain ⟨first, rest, rfl⟩ := List.exists_cons_of_ne_nil (l := run) (by rintro rfl; cases found)
  -- What is left of the run is data if its last boundary is.
  have data : (if rest = [] then first.2 else .bytes).isData = last.2.isData := by
    cases rest with
    | nil =>
      obtain rfl : first = last := Option.some.inj found
      rfl
    | cons second rest =>
      have chain := List.isChain_of_mem_splitBy (m := first :: second :: rest) (by rw [cut]; simp)
      rw [List.getLast?_cons_cons] at found
      rw [isData_of_isChain chain (List.mem_of_getLast? found)]
      rfl
  rw [standing_of_runs cut, left?, step]
  dsimp only
  rw [data]
  split
  · next both =>
    rw [standing_of_runs (splitBy_concat_of_rel cut found both), List.cons_append, left?,
      if_neg (by simp)]
    congr 1
    rw [← perform_append]
    simp [joinRun]
  · next apart =>
    rw [standing_of_runs (splitBy_concat_of_not_rel cut found (by simpa using apart))]
    simp [joinRun, left?]

theorem foldl_step_standing (tags : TagMap) (boundaries rest : List (Nat × Tag)) :
    rest.foldl step (standing tags boundaries) = standing tags (boundaries ++ rest) := by
  induction rest generalizing boundaries with
  | nil => rw [List.foldl_nil, List.append_nil]
  | cons e rest ih =>
    rw [List.foldl_cons, step_standing, ih, List.append_assoc, List.singleton_append]

end Joining

/-- Joining data in one pass, on the map as it changes, makes the changes that the runs tell. -/
theorem foldl_joiningStep (tags : TagMap) :
    (tags.entries.foldl Joining.step ⟨none, pure tags⟩).tags = tags.perform (mergeData tags) :=
  congrArg Joining.tags (Joining.foldl_step_standing tags [] tags.entries)

end MemoryAtlas.Heuristic
