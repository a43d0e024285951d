import MemoryAtlas.Proofs.Heuristic.Sweep
import MemoryAtlas.Proofs.TagMap.WellFormed

/-!
# The boundaries of a sweep

The sweep enters its boundaries in ascending order, and only in places where the instructions
change: where a terminal instruction ends, or where one streak ends and another begins. A block of
code is closed by a terminal instruction.

## Main definitions

* `Heuristic.CutInto`: a list of instructions cut between the neighbours that do not belong
  together.
* `Heuristic.Progress.Laid`: what holds of the boundaries that a sweep has entered.
* `Heuristic.EndsTerminal`, `Heuristic.CutPoint`: where code may end and where blocks may start.

## Main results

* `Heuristic.cutInto_iff`: there is one way to cut a list.
* `Heuristic.laid_sweepProgress`: the boundaries that a sweep enters.
* `Heuristic.entries_sweep`: the boundaries of its map.
* `Heuristic.wellFormed_sweep`, `Heuristic.tag_sweep`: it is a well-formed map of its range, and
  holds code, bytes and the end only.
-/

namespace MemoryAtlas

namespace SortedMap

/-! ### Maps of sorted lists -/

theorem entries_foldl_insert {l : List (Nat × Tag)} {m : SortedMap Nat Tag}
    (sorted : l.Pairwise fun x y => y.1 < x.1) (below : ∀ e ∈ l, ∀ d ∈ m.entries, e.1 < d.1) :
    (l.foldl (fun m e => m.insert e.1 e.2) m).entries = l.reverse ++ m.entries := by
  induction l generalizing m with
  | nil => rfl
  | cons e l ih =>
    obtain ⟨least, sorted⟩ := List.pairwise_cons.1 sorted
    -- An entry below all others goes to the front.
    have front : (m.insert e.1 e.2).entries = e :: m.entries := by
      change insertEntry e.1 e.2 m.entries = e :: m.entries
      cases entries : m.entries with
      | nil => rfl
      | cons d rest =>
        have lt := below e List.mem_cons_self d (by rw [entries]; exact List.mem_cons_self)
        rw [insertEntry, if_pos lt]
    rw [List.foldl_cons, ih sorted, front, List.reverse_cons, List.append_assoc]
    · rfl
    · intro x mem d mem'
      rw [front] at mem'
      rcases List.mem_cons.1 mem' with rfl | mem'
      · exact least x mem
      · exact below x (List.mem_cons_of_mem _ mem) d mem'

/-- The map of a list of descending keys holds the list, reversed. -/
theorem entries_ofList {l : List (Nat × Tag)} (sorted : l.Pairwise fun x y => y.1 < x.1) :
    (ofList l).entries = l.reverse := by
  rw [ofList, entries_foldl_insert sorted (by intro e _ d mem; cases mem)]
  exact List.append_nil _

end SortedMap

namespace Heuristic

open Z80

/-! ### Segments and streaks -/

/-- The parts are a list cut between the neighbours that do not belong together, and there only. -/
structure CutInto (together : Instruction → Instruction → Bool) (l : List Instruction)
    (parts : List (List Instruction)) : Prop where
  /-- Nothing is lost or moved. -/
  whole : l = parts.flatten
  /-- No part is empty. -/
  nonempty : [] ∉ parts
  /-- Neighbours in a part belong together. -/
  inner : ∀ part ∈ parts, part.IsChain fun i j => together i j = true
  /-- Neighbours across a cut do not. -/
  outer : parts.IsChain fun x y => ∃ hx hy, together (x.getLast hx) (y.head hy) = false

theorem cutInto_iff {together : Instruction → Instruction → Bool} {l : List Instruction}
    {parts : List (List Instruction)} : CutInto together l parts ↔ l.splitBy together = parts := by
  rw [List.splitBy_eq_iff]
  constructor
  · exact fun h => ⟨h.whole, h.nonempty, h.inner, h.outer⟩
  · rintro ⟨whole, nonempty, inner, outer⟩
    exact ⟨whole, nonempty, inner, outer⟩

theorem cutInto_segments (l : List Instruction) :
    CutInto (fun i _ => !i.isTerminal) l (segments l) :=
  cutInto_iff.2 rfl

theorem cutInto_streaks (l : List Instruction) :
    CutInto (fun i j => i.classId == j.classId) l (streaks l) :=
  cutInto_iff.2 rfl

variable {t : RepeatCeilings} {m : Image} {start stop c d : Nat} {p : Progress}
  {l : List Instruction} {lists : List (List Instruction)} {u : Tag}

/-! ### What a sweep has entered -/

namespace Progress

/-- The boundaries of a sweep, last first, and the start of what is pending: they descend, each lies
at a cut, and what comes after a boundary of code lies at the end of a terminal instruction. -/
structure Laid (cut closed : Nat → Prop) (p : Progress) : Prop where
  chain : ((p.pending, .limit) :: p.boundaries).IsChain fun later earlier =>
    earlier.1 < later.1 ∧ (earlier.2 = .code → closed later.1)
  cuts : ∀ e ∈ (p.pending, Tag.limit) :: p.boundaries, cut e.1

namespace Laid

variable {cut closed : Nat → Prop}

theorem chain_enter (h : p.Laid cut closed) (lt : p.pending < d) (isClosed : u = .code → closed d) :
    ((d, .limit) :: (p.pending, u) :: p.boundaries).IsChain fun later earlier =>
      earlier.1 < later.1 ∧ (earlier.2 = .code → closed later.1) := by
  refine List.isChain_cons_cons.2 ⟨⟨lt, isClosed⟩, ?_⟩
  -- The tag of the later boundary does not matter.
  cases boundaries : p.boundaries with
  | nil => exact List.isChain_singleton _
  | cons e rest =>
    have chain := h.chain
    rw [boundaries, List.isChain_cons_cons] at chain
    exact List.isChain_cons_cons.2 chain

/-- What is pending becomes a block, and the sweep goes on after it. -/
theorem enter (h : p.Laid cut closed) (lt : p.pending < d) (isCut : cut d)
    (isClosed : u = .code → closed d) (events : List Event) :
    Laid cut closed ⟨(p.pending, u) :: p.boundaries, d, events⟩ where
  chain := h.chain_enter lt isClosed
  cuts e mem := by
    rcases List.mem_cons.1 mem with rfl | mem
    · exact isCut
    · rcases List.mem_cons.1 mem with rfl | mem
      · exact h.cuts (p.pending, .limit) List.mem_cons_self
      · exact h.cuts e (List.mem_cons_of_mem _ mem)

/-- What is pending joins the block before, which is not code, and the sweep goes on after it. -/
theorem skip (h : p.Laid cut closed) (le : p.pending ≤ d) (isCut : cut d) {x : Nat}
    {rest : List (Nat × Tag)} (head : p.boundaries = (x, u) :: rest) (data : u ≠ .code)
    (events : List Event) : Laid cut closed ⟨p.boundaries, d, events⟩ where
  chain := by
    have chain := h.chain
    rw [head, List.isChain_cons_cons] at chain ⊢
    exact ⟨⟨Nat.lt_of_lt_of_le chain.1.1 le, fun code => absurd code data⟩, chain.2⟩
  cuts e mem := by
    rcases List.mem_cons.1 mem with rfl | mem
    · exact isCut
    · exact h.cuts e (List.mem_cons_of_mem _ mem)

theorem afterStreak (h : p.Laid cut closed) (reached : p.Reached start c) (tiles : Tiles c l d)
    (ne : l ≠ []) (isCut : cut d) : (p.afterStreak l).Laid cut closed := by
  have lt : p.pending < d := Nat.lt_of_le_of_lt reached.pending_le (tiles.lt ne)
  rcases afterStreak_cases p tiles ne with ⟨-, eq⟩ | ⟨-, events, ⟨x, rest, head, eq⟩ | eq⟩
  · rw [eq]
    exact h
  · rw [eq]
    exact h.skip (Nat.le_of_lt lt) isCut head (by decide) events
  · rw [eq]
    exact h.enter lt isCut (fun code => by cases code) events

theorem foldl_afterStreak (h : p.Laid cut closed) (reached : p.Reached start c)
    (tiles : Tiles c lists.flatten d) (ne : [] ∉ lists)
    (ends : ∀ l ∈ lists, ∀ last, l.getLast? = some last → cut last.stop) :
    (lists.foldl Progress.afterStreak p).Laid cut closed := by
  induction lists generalizing p c with
  | nil => exact h
  | cons l lists ih =>
    obtain ⟨b, first, rest⟩ := Tiles.append_iff.1 tiles
    rw [List.mem_cons, not_or] at ne
    have ne' := Ne.symm ne.1
    have found := List.getLast?_eq_some_getLast ne'
    have isCut := ends l List.mem_cons_self _ found
    rw [first.stop_getLast? found] at isCut
    exact ih (h.afterStreak reached first ne' isCut) (reached.afterStreak first ne') rest ne.2
      fun x mem => ends x (List.mem_cons_of_mem _ mem)

theorem close (h : p.Laid cut closed) (le : p.pending ≤ c) (isCut : cut c) (isClosed : closed c) :
    (p.close c).Laid cut closed := by
  unfold Progress.close
  split
  · next lt => exact h.enter lt isCut (fun _ => isClosed) _
  · next ge =>
    have same : p.pending = c := Nat.le_antisymm le (Nat.le_of_not_lt ge)
    rw [← same]
    exact h

/-- At the end of the range nothing is pending. -/
theorem finish (h : p.Laid cut closed) (le : p.pending ≤ stop) :
    ((stop, .limit) :: (p.finish stop).boundaries).IsChain (fun later earlier =>
        earlier.1 < later.1 ∧ (earlier.2 = .code → closed later.1)) ∧
      ∀ e ∈ (p.finish stop).boundaries, cut e.1 := by
  unfold Progress.finish
  split
  · next lt =>
    refine ⟨h.chain_enter lt (fun code => by cases code), fun e mem => ?_⟩
    rcases List.mem_cons.1 mem with rfl | mem
    · exact h.cuts (p.pending, .limit) List.mem_cons_self
    · exact h.cuts e (List.mem_cons_of_mem _ mem)
  · next ge =>
    rw [← Nat.le_antisymm le (Nat.le_of_not_lt ge)]
    exact ⟨h.chain, fun e mem => h.cuts e (List.mem_cons_of_mem _ mem)⟩

/-- A segment, if its streaks but the last end at cuts, and its terminal instructions at cuts that
may close code. -/
theorem afterSegment (h : p.Laid cut closed) (reached : p.Reached start c) (tiles : Tiles c l d)
    (ends : ∀ s ∈ (streaks l).dropLast, ∀ last, s.getLast? = some last → cut last.stop)
    (terminals : ∀ i ∈ l, i.isTerminal = true → cut i.stop ∧ closed i.stop) :
    (p.afterSegment l).Laid cut closed := by
  have whole := tiles_streaks tiles
  have ne : [] ∉ streaks l := List.nil_notMem_splitBy _ _
  unfold Progress.afterSegment
  split
  · exact h
  · next last found =>
    have split : streaks l ≠ [] := List.splitBy_ne_nil.2 fun none => by simp [none] at found
    have parts := List.dropLast_append_getLast split
    have judged := whole
    rw [← parts, List.flatten_append] at judged
    obtain ⟨b, judged, final⟩ := Tiles.append_iff.1 judged
    split
    · next terminal =>
      obtain ⟨isCut, isClosed⟩ := terminals last (List.mem_of_getLast? found) terminal
      have stop := tiles.stop_getLast? found
      refine close ?_ (stop ▸ (reached.foldl_afterStreak whole ne).pending_le) isCut isClosed
      refine h.foldl_afterStreak reached whole ne fun s mem i found' => ?_
      rw [← parts] at mem
      rcases List.mem_append.1 mem with mem | mem
      · exact ends s mem i found'
      · -- The last streak ends with the segment.
        rw [List.flatten_singleton, ← List.mem_singleton.1 mem] at final
        rw [final.stop_getLast? found', ← stop]
        exact isCut
    · exact h.foldl_afterStreak reached judged (fun mem => ne (List.dropLast_subset _ mem)) ends

theorem foldl_afterSegment (h : p.Laid cut closed) (reached : p.Reached start c)
    (tiles : Tiles c lists.flatten d)
    (ends : ∀ l ∈ lists, ∀ s ∈ (streaks l).dropLast, ∀ last, s.getLast? = some last →
      cut last.stop)
    (terminals : ∀ l ∈ lists, ∀ i ∈ l, i.isTerminal = true → cut i.stop ∧ closed i.stop) :
    (lists.foldl Progress.afterSegment p).Laid cut closed := by
  induction lists generalizing p c with
  | nil => exact h
  | cons l lists ih =>
    obtain ⟨b, first, rest⟩ := Tiles.append_iff.1 tiles
    have step := h.afterSegment reached first (ends l List.mem_cons_self)
      (terminals l List.mem_cons_self)
    exact ih step (reached.afterSegment first) rest
      (fun x mem => ends x (List.mem_cons_of_mem _ mem))
      fun x mem => terminals x (List.mem_cons_of_mem _ mem)

end Laid

end Progress

/-- A terminal instruction of a range ends at an address. -/
def EndsTerminal (t : RepeatCeilings) (m : Image) (start stop x : Nat) : Prop :=
  ∃ i ∈ instructions t m start stop, i.isTerminal = true ∧ i.stop = x

/-- An address where a block of a sweep may start: the start of the range, the end of a terminal
instruction, or the place between two instructions of different class. -/
def CutPoint (t : RepeatCeilings) (m : Image) (start stop x : Nat) : Prop :=
  x = start ∨ EndsTerminal t m start stop x ∨
    ∃ i ∈ instructions t m start stop, i.stop = x ∧ i.classId ≠ (decode t m x stop).classId

/-- After a streak that another one follows comes an instruction of another class. -/
theorem exists_next_class (tiles : Tiles c lists.flatten d)
    (outer : lists.IsChain fun x y => ∃ hx hy,
      ((x.getLast hx).classId == (y.head hy).classId) = false)
    {s : List Instruction} (mem : s ∈ lists.dropLast) {i : Instruction}
    (found : s.getLast? = some i) :
    ∃ j ∈ lists.flatten, j.address = i.stop ∧ i.classId ≠ j.classId := by
  induction lists generalizing c with
  | nil => cases mem
  | cons l lists ih =>
    cases lists with
    | nil => cases mem
    | cons next lists =>
      obtain ⟨b, first, rest⟩ := Tiles.append_iff.1 tiles
      obtain ⟨⟨hx, hy, differ⟩, outer⟩ := List.isChain_cons_cons.1 outer
      rw [List.dropLast_cons_cons] at mem
      rcases List.mem_cons.1 mem with rfl | mem
      · -- The next streak starts where this one ends.
        have stop := first.stop_getLast? found
        rw [List.getLast?_eq_some_getLast hx] at found
        obtain ⟨j, tail, rfl⟩ := List.exists_cons_of_ne_nil hy
        refine ⟨j, by simp, ?_, ?_⟩
        · rw [stop]
          exact rest.1
        · rw [← Option.some.inj found]
          simpa using differ
      · obtain ⟨j, mem, next⟩ := ih rest outer mem
        exact ⟨j, List.mem_append_right _ mem, next⟩

/-! ### The map -/

theorem exists_tiles_of_mem (tiles : Tiles c lists.flatten d) (mem : l ∈ lists) :
    ∃ a b, Tiles a l b := by
  obtain ⟨before, after, rfl⟩ := List.append_of_mem mem
  rw [List.flatten_append, List.flatten_cons] at tiles
  obtain ⟨a, -, tiles⟩ := Tiles.append_iff.1 tiles
  obtain ⟨b, tiles, -⟩ := Tiles.append_iff.1 tiles
  exact ⟨a, b, tiles⟩

/-- The boundaries of a sweep that has passed all segments. -/
theorem laid_foldl_afterSegment (le : start ≤ stop) :
    ((segments (instructions t m start stop)).foldl Progress.afterSegment ⟨[], start, []⟩).Laid
      (CutPoint t m start stop) (EndsTerminal t m start stop) := by
  have mem : ∀ l ∈ segments (instructions t m start stop), ∀ i ∈ l,
      i ∈ instructions t m start stop := by
    intro l hl i hi
    rw [(cutInto_segments (instructions t m start stop)).whole]
    exact List.mem_flatten.2 ⟨l, hl, hi⟩
  have tiles := tiles_segments t m le
  have initial : Progress.Laid (CutPoint t m start stop) (EndsTerminal t m start stop)
      ⟨[], start, []⟩ := ⟨List.isChain_singleton _, by simp [CutPoint]⟩
  refine initial.foldl_afterSegment (Progress.reached_initial start) tiles
    (fun l hl s hs i found => ?_) fun l hl i hi terminal => ?_
  · -- The instruction after the streak is the one that the walk decodes there.
    obtain ⟨b, e, tiles⟩ := exists_tiles_of_mem tiles hl
    have cut := cutInto_streaks l
    obtain ⟨j, hj, address, differ⟩ := exists_next_class (tiles_streaks tiles) cut.outer hs found
    rw [← cut.whole] at hj
    have hi : i ∈ l := by
      rw [cut.whole]
      exact List.mem_flatten.2 ⟨s, List.dropLast_subset _ hs, List.mem_of_getLast? found⟩
    refine .inr (.inr ⟨i, mem l hl i hi, rfl, ?_⟩)
    rw [← address, ← eq_decode_of_mem_instructions t m (mem l hl j hj)]
    exact differ
  · have ends : EndsTerminal t m start stop i.stop := ⟨i, mem l hl i hi, terminal, rfl⟩
    exact ⟨.inr (.inl ends), ends⟩

/-- The boundaries of a sweep descend, each lies at a cut, and code reaches to the end of a terminal
instruction. -/
theorem laid_sweepProgress (lt : start < stop) :
    ((stop, .limit) :: (sweepProgress t m start stop).boundaries).IsChain
        (fun later earlier => earlier.1 < later.1 ∧
          (earlier.2 = .code → EndsTerminal t m start stop later.1)) ∧
      ∀ e ∈ (sweepProgress t m start stop).boundaries, CutPoint t m start stop e.1 := by
  have reached := (Progress.reached_initial start).foldl_afterSegment
    (tiles_segments t m (Nat.le_of_lt lt))
  exact (laid_foldl_afterSegment (Nat.le_of_lt lt)).finish reached.pending_le

/-- The boundaries of the map of a sweep are those that the sweep enters, and its end. -/
theorem entries_sweep (lt : start < stop) :
    (sweep t m start stop).value.entries =
      (sweepProgress t m start stop).boundaries.reverse ++ [(stop, .limit)] := by
  obtain ⟨chain, -⟩ := laid_sweepProgress (t := t) (m := m) lt
  have sorted : ((stop, Tag.limit) :: (sweepProgress t m start stop).boundaries).Pairwise
      fun x y => y.1 < x.1 := by
    have descends := (List.isChain_map (R := (· > ·)) Prod.fst).2 (chain.imp fun _ _ h => h.1)
    exact List.pairwise_map.1 (List.isChain_iff_pairwise.1 descends)
  obtain ⟨below, sorted⟩ := List.pairwise_cons.1 sorted
  have entries := SortedMap.entries_ofList sorted
  rw [sweep, SortedMap.entries_insert_of_lt, entries]
  intro e mem
  rw [entries, List.mem_reverse] at mem
  exact below e mem

theorem get?_sweep_iff (lt : start < stop) {a : Nat} :
    (sweep t m start stop).value.get? a = some u ↔
      (a, u) ∈ (sweepProgress t m start stop).boundaries ∨ a = stop ∧ u = .limit := by
  rw [SortedMap.get?_eq_some_iff, entries_sweep lt, List.mem_append, List.mem_reverse,
    List.mem_singleton, Prod.mk.injEq]

/-- The map of a sweep is a well-formed map of its range. -/
theorem wellFormed_sweep (lt : start < stop) :
    (sweep t m start stop).value.WellFormed start stop := by
  obtain ⟨bounds, u, first⟩ := boundaries_sweepProgress (t := t) (m := m) lt
  refine TagMap.wellFormed_iff.2 ⟨⟨u, (get?_sweep_iff lt).2 (.inl first)⟩,
    (get?_sweep_iff lt).2 (.inr ⟨rfl, rfl⟩), fun a u key => ?_, fun a key => ?_⟩
  · rcases (get?_sweep_iff lt).1 key with mem | ⟨rfl, -⟩
    · have := bounds _ mem
      omega
    · omega
  · rcases (get?_sweep_iff lt).1 key with mem | ⟨rfl, -⟩
    · obtain ⟨-, -, tag | tag⟩ := bounds _ mem <;> cases tag
    · rfl

/-- The map of a sweep holds code, bytes and the end only. -/
theorem tag_sweep (lt : start < stop) {a : Nat}
    (key : (sweep t m start stop).value.get? a = some u) : u = .code ∨ u = .bytes ∨ u = .limit := by
  rcases (get?_sweep_iff lt).1 key with mem | ⟨-, rfl⟩
  · rcases ((boundaries_sweepProgress lt).1 _ mem).2.2 with tag | tag
    · exact .inl tag
    · exact .inr (.inl tag)
  · exact .inr (.inr rfl)

end Heuristic

end MemoryAtlas
