import MemoryAtlas.Proofs.Heuristic.OnePass

/-!
# What a sweep makes of each segment

The sweep is a single pass that keeps a pending block and judges each streak where it ends. Its
meaning is simpler. The instructions of the range are cut after each terminal one, and each of these
segments into streaks of one class. Up to the end of its last streak of data in disguise a segment
is bytes; the rest of it is code if it ends with a terminal instruction, and bytes if not.

## Main definitions

* `Heuristic.dataEnd?`: the end of the last streak of data in disguise.
* `Heuristic.segmentTag`: the tag at an address of a segment.
* `Heuristic.Progress.Fills`: a sweep that goes on and gives one tag to all that it passes.

## Main results

* `Heuristic.Progress.afterSegment_of_terminal`, `Heuristic.Progress.afterSegment_of_open`: one
  segment.
* `Heuristic.Progress.tag?_foldl_afterSegment`: the tags that a sweep gives to all segments.
* `Heuristic.tagAt?_sweep`: the map of a sweep, by segments and streaks.
-/

namespace MemoryAtlas.Heuristic

open Z80

/-! ### The tags of a segment -/

/-- The ends of the streaks that are data in disguise. -/
def dataEnds (streaks : List (List Instruction)) : List Nat :=
  (streaks.filter isDisguised).filterMap fun l => l.getLast?.map (·.stop)

/-- The end of the last streak of data in disguise. -/
def dataEnd? (streaks : List (List Instruction)) : Option Nat := (dataEnds streaks).getLast?

/-- The tag at an address of a segment that is cut into streaks. -/
def segmentTag (segment : List Instruction) (streaks : List (List Instruction)) (a : Nat) : Tag :=
  if (dataEnd? streaks).any (a < ·) then .bytes
  else if segment.getLast?.any (·.isTerminal) then .code
  else .bytes

theorem segmentTag_of_open {segment : List Instruction} {last : Instruction}
    (found : segment.getLast? = some last) (terminal : last.isTerminal = false)
    (streaks : List (List Instruction)) (a : Nat) : segmentTag segment streaks a = .bytes := by
  simp [segmentTag, found, terminal]

/-- An address is one of the bytes of some instructions. -/
def Covers (l : List Instruction) (a : Nat) : Prop := ∃ i ∈ l, i.address ≤ a ∧ a < i.stop

instance (l : List Instruction) (a : Nat) : Decidable (Covers l a) :=
  inferInstanceAs (Decidable (∃ i ∈ l, i.address ≤ a ∧ a < i.stop))

variable {t : RepeatCeilings} {m : Image} {start stop c d a : Nat} {p q r : Progress}
  {l : List Instruction} {lists : List (List Instruction)} {u : Tag}

/-- Instructions that lie end to end cover the range between their ends. -/
theorem covers_iff_of_tiles (tiles : Tiles c l d) : Covers l a ↔ c ≤ a ∧ a < d := by
  constructor
  · rintro ⟨i, mem, above, below⟩
    have := tiles.bounds mem
    omega
  · rintro ⟨above, below⟩
    induction l generalizing c with
    | nil =>
      have : c = d := tiles
      omega
    | cons i l ih =>
      obtain ⟨rfl, -, tiles⟩ := tiles
      by_cases inside : a < i.stop
      · exact ⟨i, List.mem_cons_self, above, inside⟩
      · obtain ⟨j, mem, holds⟩ := ih tiles (Nat.le_of_not_lt inside)
        exact ⟨j, List.mem_cons_of_mem _ mem, holds⟩

theorem getD_dataEnd?_cons (tiles : Tiles c l d) (ne : l ≠ []) (x : Nat) :
    (dataEnd? (l :: lists)).getD x = (dataEnd? lists).getD (if isDisguised l then d else x) := by
  have found := List.getLast?_eq_some_getLast ne
  rw [dataEnd?, dataEnds]
  cases h : isDisguised l with
  | false =>
    rw [List.filter_cons_of_neg (by simp [h])]
    rfl
  | true =>
    rw [List.filter_cons_of_pos h, List.filterMap_cons_some (by rw [found]; rfl),
      List.getLast?_cons]
    dsimp only
    rw [tiles.stop_getLast? found]
    rfl

/-- Data reaches past an address of a segment, or not. -/
theorem any_lt_dataEnd? (le : c ≤ a) :
    (dataEnd? lists).any (a < ·) = decide (a < (dataEnd? lists).getD c) := by
  cases dataEnd? lists with
  | none => simp [le]
  | some e => rfl

/-- A segment without terminal instruction is the last one. -/
theorem eq_nil_of_open
    (closed : (l :: lists).IsChain fun x _ => ∃ last, x.getLast? = some last ∧
      last.isTerminal = true)
    {last : Instruction} (found : l.getLast? = some last) (terminal : last.isTerminal = false) :
    lists = [] := by
  cases lists with
  | nil => rfl
  | cons l' lists =>
    obtain ⟨⟨last', found', terminal'⟩, -⟩ := List.isChain_cons_cons.1 closed
    rw [found] at found'
    cases found'
    rw [terminal] at terminal'
    cases terminal'

/-! ### One streak -/

namespace Progress

/-- The tag that a sweep has given to an address, if it has. -/
def tag? (p : Progress) (a : Nat) : Option Tag := (p.boundaries.find? (·.1 ≤ a)).map (·.2)

theorem tag?_cons {x n : Nat} {boundaries : List (Nat × Tag)} {events : List Event} :
    tag? ⟨(x, u) :: boundaries, n, events⟩ a =
      if x ≤ a then some u else tag? ⟨boundaries, n, events⟩ a := by
  rw [tag?, List.find?_cons]
  by_cases le : x ≤ a
  · simp [le]
  · simp [le, tag?]

/-- A sweep that goes on from `p` to `q` gives the tag `u` to all that it passes, and leaves what
was done before. -/
structure Fills (u : Tag) (p q : Progress) : Prop where
  le : p.pending ≤ q.pending
  below : ∀ a < p.pending, q.tag? a = p.tag? a
  between : ∀ a, p.pending ≤ a → a < q.pending → q.tag? a = some u

namespace Fills

theorem refl (u : Tag) (p : Progress) : Fills u p p :=
  ⟨Nat.le_refl _, fun _ _ => rfl, fun _ _ _ => by omega⟩

theorem trans (first : Fills u p q) (second : Fills u q r) : Fills u p r where
  le := Nat.le_trans first.le second.le
  below a lt := by
    have := first.le
    rw [second.below a (by omega), first.below a lt]
  between a above below := by
    by_cases lt : a < q.pending
    · rw [second.below a lt, first.between a above lt]
    · exact second.between a (Nat.le_of_not_lt lt) below

theorem enter (le : p.pending ≤ d) (events : List Event) :
    Fills u p ⟨(p.pending, u) :: p.boundaries, d, events⟩ where
  le := le
  below a lt := by
    rw [tag?_cons, if_neg (by omega)]
    rfl
  between a above _ := by rw [tag?_cons, if_pos above]

/-- The end of the last boundary is moved. -/
theorem skip (h : p.Reached start c) (le : p.pending ≤ d) {x : Nat} {rest : List (Nat × Tag)}
    (head : p.boundaries = (x, u) :: rest) (events : List Event) :
    Fills u p ⟨p.boundaries, d, events⟩ where
  le := le
  below _ _ := rfl
  between a above _ := by
    have := (h.bounds (x, u) (by rw [head]; exact List.mem_cons_self)).2.1
    rw [head, tag?_cons, if_pos (by dsimp only at this; omega)]

theorem afterStreak (h : p.Reached start c) (tiles : Tiles c l d) (ne : l ≠ []) :
    Fills .bytes p (p.afterStreak l) ∧
      (p.afterStreak l).pending = if isDisguised l then d else p.pending := by
  have le : p.pending ≤ d := Nat.le_trans h.pending_le tiles.le
  rcases afterStreak_cases p tiles ne with ⟨plain, eq⟩ | ⟨disguised, events, step⟩
  · rw [eq, plain]
    exact ⟨refl _ _, rfl⟩
  · -- Data after data needs no boundary of its own.
    rw [disguised]
    rcases step with ⟨x, rest, head, eq⟩ | eq
    · rw [eq]
      exact ⟨skip h le head events, rfl⟩
    · rw [eq]
      exact ⟨enter le events, rfl⟩

theorem foldl_afterStreak (h : p.Reached start c) (tiles : Tiles c lists.flatten d)
    (ne : [] ∉ lists) :
    Fills .bytes p (lists.foldl Progress.afterStreak p) ∧
      (lists.foldl Progress.afterStreak p).pending = (dataEnd? lists).getD p.pending := by
  induction lists generalizing p c with
  | nil => exact ⟨refl _ _, rfl⟩
  | cons l lists ih =>
    obtain ⟨b, first, rest⟩ := Tiles.append_iff.1 tiles
    rw [List.mem_cons, not_or] at ne
    have ne' := Ne.symm ne.1
    obtain ⟨fills, pending⟩ := afterStreak h first ne'
    obtain ⟨fills', pending'⟩ := ih (h.afterStreak first ne') rest ne.2
    refine ⟨fills.trans fills', ?_⟩
    rw [List.foldl_cons, pending', pending, getD_dataEnd?_cons first ne']

theorem close (le : p.pending ≤ c) : Fills .code p (p.close c) ∧ (p.close c).pending = c := by
  unfold Progress.close
  split
  · exact ⟨enter le _, rfl⟩
  · next ge =>
    have same : p.pending = c := Nat.le_antisymm le (Nat.le_of_not_lt ge)
    exact ⟨⟨le, fun _ _ => rfl, fun a above below => absurd below (by dsimp only; omega)⟩, rfl⟩

end Fills

/-! ### One segment -/

/-- A segment that ends with a terminal instruction is done when the sweep has passed it. -/
theorem afterSegment_of_terminal (h : p.Reached start c) (pending : p.pending = c)
    (tiles : Tiles c l d) {last : Instruction} (found : l.getLast? = some last)
    (terminal : last.isTerminal = true) :
    (p.afterSegment l).pending = d ∧ (∀ a < c, (p.afterSegment l).tag? a = p.tag? a) ∧
      ∀ a, c ≤ a → a < d → (p.afterSegment l).tag? a = some (segmentTag l (streaks l) a) := by
  have whole := tiles_streaks tiles
  have ne : [] ∉ streaks l := List.nil_notMem_splitBy _ _
  obtain ⟨data, mark⟩ := Fills.foldl_afterStreak h whole ne
  have reached := h.foldl_afterStreak whole ne
  obtain ⟨code, stop⟩ := Fills.close reached.pending_le
  have le := data.le
  simp only [Progress.afterSegment, found, terminal, if_true, tiles.stop_getLast? found]
  refine ⟨stop, fun a lt => ?_, fun a above below => ?_⟩
  · rw [code.below a (by omega), data.below a (by omega)]
  · -- Bytes as far as the streaks fill them, and code from there on.
    have before : (dataEnd? (streaks l)).any (a < ·) =
        decide (a < ((streaks l).foldl Progress.afterStreak p).pending) := by
      rw [mark, pending, any_lt_dataEnd? above]
    rw [segmentTag, before, found, Option.any_some, if_pos terminal]
    by_cases lt : a < ((streaks l).foldl Progress.afterStreak p).pending
    · rw [code.below a lt, data.between a (by omega) lt, if_pos (decide_eq_true lt)]
    · rw [code.between a (by omega) (by omega), if_neg (by simpa using lt)]

/-- All that the sweep passes in a segment without terminal instruction is bytes. -/
theorem afterSegment_of_open (h : p.Reached start c) (tiles : Tiles c l d) {last : Instruction}
    (found : l.getLast? = some last) (terminal : last.isTerminal = false) :
    Fills .bytes p (p.afterSegment l) := by
  have whole := tiles_streaks tiles
  have ne : [] ∉ streaks l := List.nil_notMem_splitBy _ _
  have split : streaks l ≠ [] := List.splitBy_ne_nil.2 fun none => by simp [none] at found
  -- The last streak is not judged, as the range ends in it.
  rw [← List.dropLast_append_getLast split, List.flatten_append] at whole
  obtain ⟨b, judged, -⟩ := Tiles.append_iff.1 whole
  simp only [Progress.afterSegment, found, terminal]
  exact (Fills.foldl_afterStreak h judged fun mem => ne (List.dropLast_subset _ mem)).1

/-! ### All segments -/

theorem tag?_finish_of_lt (lt : a < p.pending) : (p.finish stop).tag? a = p.tag? a := by
  unfold finish
  split
  · rw [enter, tag?_cons, if_neg (by omega)]
  · rfl

theorem tag?_finish_of_le (le : p.pending ≤ a) (lt : a < stop) :
    (p.finish stop).tag? a = some .bytes := by
  rw [finish, if_pos (by omega), enter, tag?_cons, if_pos le]

/-- The tags that a sweep gives to the segments that it passes, if each of them but the last ends
with a terminal instruction. -/
theorem tag?_foldl_afterSegment (h : p.Reached start c) (pending : p.pending = c)
    (tiles : Tiles c lists.flatten stop) (nonempty : [] ∉ lists)
    (closed : lists.IsChain fun x _ => ∃ last, x.getLast? = some last ∧ last.isTerminal = true) :
    (∀ a < c, ((lists.foldl Progress.afterSegment p).finish stop).tag? a = p.tag? a) ∧
      ∀ l ∈ lists, ∀ a, Covers l a →
        ((lists.foldl Progress.afterSegment p).finish stop).tag? a =
          some (segmentTag l (streaks l) a) := by
  induction lists generalizing p c with
  | nil => exact ⟨fun a lt => tag?_finish_of_lt (pending ▸ lt), by simp⟩
  | cons l lists ih =>
    obtain ⟨d, first, rest⟩ := Tiles.append_iff.1 tiles
    rw [List.mem_cons, not_or] at nonempty
    obtain ⟨ne, nonempty⟩ := nonempty
    have found := List.getLast?_eq_some_getLast (Ne.symm ne)
    rw [List.foldl_cons]
    cases terminal : (l.getLast (Ne.symm ne)).isTerminal with
    | true =>
      -- The segment is done, and the others leave it as it is.
      obtain ⟨pending', below, tags⟩ := afterSegment_of_terminal h pending first found terminal
      obtain ⟨kept, later⟩ :=
        ih (h.afterSegment first) pending' rest nonempty (List.isChain_of_isChain_cons closed)
      have le := first.le
      refine ⟨fun a lt => by rw [kept a (by omega), below a lt], fun x mem a covers => ?_⟩
      rcases List.mem_cons.1 mem with rfl | mem
      · obtain ⟨lower, upper⟩ := (covers_iff_of_tiles first).1 covers
        rw [kept a upper, tags a lower upper]
      · exact later x mem a covers
    | false =>
      -- Without terminal instruction the segment is the last one.
      obtain rfl := eq_nil_of_open closed found terminal
      have same : d = stop := rest
      have fills := afterSegment_of_open h first found terminal
      have le := fills.le
      rw [List.foldl_nil]
      refine ⟨fun a lt => ?_, fun x mem a covers => ?_⟩
      · rw [tag?_finish_of_lt (by omega), fills.below a (by omega)]
      · rw [List.mem_singleton.1 mem] at covers ⊢
        obtain ⟨lower, upper⟩ := (covers_iff_of_tiles first).1 covers
        rw [segmentTag_of_open found terminal]
        by_cases lt : a < (p.afterSegment l).pending
        · rw [tag?_finish_of_lt lt, fills.between a (by omega) lt]
        · exact tag?_finish_of_le (Nat.le_of_not_lt lt) (by omega)

end Progress

/-- A segment that another one follows ends with a terminal instruction. -/
theorem CutInto.closed {l : List Instruction} {segs : List (List Instruction)}
    (cut : CutInto (fun i _ => !i.isTerminal) l segs) :
    segs.IsChain fun x _ => ∃ last, x.getLast? = some last ∧ last.isTerminal = true := by
  refine cut.outer.imp fun x y => ?_
  rintro ⟨ne, -, terminal⟩
  exact ⟨x.getLast ne, List.getLast?_eq_some_getLast ne, by simpa using terminal⟩

/-- All instructions of a segment but the last go on. -/
theorem CutInto.goesOn {l seg : List Instruction} {segs : List (List Instruction)}
    (cut : CutInto (fun i _ => !i.isTerminal) l segs) (mem : seg ∈ segs) {i : Instruction}
    (inside : i ∈ seg.dropLast) : i.isTerminal = false := by
  have chain := cut.inner seg mem
  clear mem
  induction seg with
  | nil => cases inside
  | cons j rest ih =>
    cases rest with
    | nil => cases inside
    | cons k rest =>
      obtain ⟨first, chain⟩ := List.isChain_cons_cons.1 chain
      rcases List.mem_cons.1 inside with rfl | inside
      · simpa using first
      · exact ih inside chain

/-! ### The map -/

theorem tagAt?_sweep_eq (lt : start < stop) (below : a < stop) :
    (sweep t m start stop).value.tagAt? a = (sweepProgress t m start stop).tag? a := by
  rw [TagMap.tagAt?, entries_sweep lt, List.filter_append, List.filter_reverse,
    List.filter_cons_of_neg (by simpa using below), List.filter_nil, List.append_nil,
    List.getLast?_reverse, List.head?_filter]
  rfl

/-- The map of a sweep by segments and streaks. One pass, which takes one instruction at a time and
keeps what is pending, the open streak and the last boundary, finds the boundaries of the sweep.
Every address of the range lies in a segment. It is bytes before the end of the last streak of that
segment that is data in disguise; otherwise it is code if the segment ends with a terminal
instruction, and bytes if not. The last boundary is the end of the range. -/
theorem tagAt?_sweep (lt : start < stop) {segs : List (List Instruction)}
    (cut : CutInto (fun i _ => !i.isTerminal) (instructions t m start stop) segs) :
    ((instructions t m start stop).foldl Pass.step ⟨⟨[], start, []⟩, none⟩).progress.finish stop =
        sweepProgress t m start stop ∧
    (∀ a, start ≤ a → a < stop → ∃ seg ∈ segs, Covers seg a) ∧
    (∀ seg ∈ segs, ∀ parts, CutInto (fun i j => i.classId == j.classId) seg parts →
      ∀ a, Covers seg a →
        (sweep t m start stop).value.tagAt? a = some (segmentTag seg parts a)) ∧
    (sweep t m start stop).value.entries.getLast? = some (stop, .limit) := by
  have le := Nat.le_of_lt lt
  have tiles := tiles_instructions t m le
  refine ⟨foldl_passStep t m le, fun a above below => ?_, fun seg mem parts cut' a covers => ?_, ?_⟩
  · obtain ⟨i, mem, holds⟩ := (covers_iff_of_tiles tiles).2 ⟨above, below⟩
    rw [cut.whole] at mem
    obtain ⟨seg, hseg, mem⟩ := List.mem_flatten.1 mem
    exact ⟨seg, hseg, i, mem, holds⟩
  · -- There is one way to cut, and it is the one of the sweep.
    obtain rfl : segments (instructions t m start stop) = segs := cutInto_iff.1 cut
    obtain rfl : streaks seg = parts := cutInto_iff.1 cut'
    have below : a < stop := by
      obtain ⟨i, hi, holds⟩ := covers
      have walked : i ∈ instructions t m start stop := by
        rw [cut.whole]
        exact List.mem_flatten.2 ⟨seg, mem, hi⟩
      exact ((covers_iff_of_tiles tiles).1 ⟨i, walked, holds⟩).2
    rw [tagAt?_sweep_eq lt below, sweepProgress]
    exact (Progress.tag?_foldl_afterSegment (Progress.reached_initial start) rfl
      (tiles_segments t m le) cut.nonempty cut.closed).2 seg mem a covers
  · rw [entries_sweep lt, List.getLast?_append]
    rfl

/-- Two streaks of data in disguise with an instruction between them, a return, and a load after
it. -/
def disguises : Image := ⟨0, #[0x40, 0x40, 0x40, 0x3C, 0x7F, 0x7F, 0x7F, 0xC9, 0x40], by decide⟩

/-- Data reaches to the end of the second streak, over the instruction between the two; only the
return is code. -/
theorem tagAt?_sweep_disguises :
    instructions .usual disguises 0 8 ∈ segments (instructions .usual disguises 0 9) ∧
      (sweep .usual disguises 0 9).value.tagAt? 3 = some .bytes ∧
        (sweep .usual disguises 0 9).value.tagAt? 7 = some .code := by
  have mem : instructions .usual disguises 0 8 ∈ segments (instructions .usual disguises 0 9) := by
    decide +kernel
  obtain ⟨-, -, tags, -⟩ :=
    tagAt?_sweep (by decide) (cutInto_segments (instructions .usual disguises 0 9))
  refine ⟨mem, ?_, ?_⟩
  · rw [tags _ mem _ (cutInto_streaks _) 3 (by decide +kernel)]
    decide +kernel
  · rw [tags _ mem _ (cutInto_streaks _) 7 (by decide +kernel)]
    decide +kernel

end MemoryAtlas.Heuristic
