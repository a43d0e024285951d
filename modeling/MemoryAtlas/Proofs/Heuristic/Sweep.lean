import Mathlib.Data.List.SplitBy
import MemoryAtlas.Heuristic.Sweep
import MemoryAtlas.Proofs.Z80.Tiling

/-!
# A sweep covers its range

The linear sweep goes through segments and streaks of instructions. Wherever it stands, the
boundaries entered so far lie between the start of the range and the pending block, and the first
of them is the start; until there is one, the pending block itself starts there.

## Main definitions

* `Heuristic.Progress.Reached`: the state of a sweep that stands at an address.

## Main results

* `Heuristic.Progress.afterStreak_cases`: what a streak can do to a sweep.
* `Heuristic.Progress.Reached.afterStreak`, `Heuristic.Progress.Reached.afterSegment`: one streak
  and one segment.
* `Heuristic.boundaries_sweepProgress`: all boundaries of a sweep.
-/

namespace MemoryAtlas.Heuristic

open Z80

variable {t : RepeatCeilings} {m : Image} {start stop c d : Nat} {p : Progress}
  {l : List Instruction} {lists : List (List Instruction)}

theorem tiles_segments (t : RepeatCeilings) (m : Image) (le : start ≤ stop) :
    Tiles start (segments (instructions t m start stop)).flatten stop := by
  rw [segments, List.flatten_splitBy]
  exact tiles_instructions t m le

theorem tiles_streaks (tiles : Tiles c l d) : Tiles c (streaks l).flatten d := by
  rwa [streaks, List.flatten_splitBy]

/-- Whether the instructions of a streak are data in disguise. -/
def isDisguised : List Instruction → Bool
  | [] => false
  | first :: rest => (streakOf first (first :: rest).length).isDisguised

namespace Progress

/-- A streak leaves a sweep as it is, unless it is data in disguise. Then the sweep goes on after
it, and all that was pending is bytes: by a boundary of its own, or by that of the block before. -/
theorem afterStreak_cases (p : Progress) (tiles : Tiles c l d) (ne : l ≠ []) :
    isDisguised l = false ∧ p.afterStreak l = p ∨
      isDisguised l = true ∧ ∃ events,
        (∃ x rest, p.boundaries = (x, .bytes) :: rest ∧
          p.afterStreak l = ⟨p.boundaries, d, events⟩) ∨
        p.afterStreak l = ⟨(p.pending, .bytes) :: p.boundaries, d, events⟩ := by
  cases l with
  | nil => exact absurd rfl ne
  | cons first rest =>
    have found := List.getLast?_eq_some_getLast (List.cons_ne_nil first rest)
    simp only [Progress.afterStreak, Progress.judge, found, tiles.stop_getLast? found,
      Streak.resolve, isDisguised]
    split
    · next disguised =>
      refine .inr ⟨disguised, ?_⟩
      dsimp only
      split
      · next data =>
        obtain ⟨⟨x, u⟩, head, rfl⟩ := Option.map_eq_some_iff.1 data
        obtain ⟨rest, eq⟩ := List.head?_eq_some_iff.1 head
        exact ⟨_, .inl ⟨x, rest, eq, rfl⟩⟩
      · exact ⟨_, .inr rfl⟩
    · next plain =>
      exact .inl ⟨by simpa using plain, rfl⟩

/-- A sweep from `start` that stands at `c`: nothing beyond is pending, boundaries of code and bytes
lie below what is pending, and the first one is `start`, unless all from there on is pending. -/
structure Reached (start c : Nat) (p : Progress) : Prop where
  pending_le : p.pending ≤ c
  bounds : ∀ e ∈ p.boundaries, start ≤ e.1 ∧ e.1 < p.pending ∧ (e.2 = .code ∨ e.2 = .bytes)
  first : (∃ u, (start, u) ∈ p.boundaries) ∨ p.boundaries = [] ∧ p.pending = start

theorem reached_initial (start : Nat) : Reached start start ⟨[], start, []⟩ :=
  ⟨Nat.le_refl start, by simp, .inr ⟨rfl, rfl⟩⟩

namespace Reached

theorem start_le (h : p.Reached start c) : start ≤ p.pending := by
  rcases h.first with ⟨u, mem⟩ | ⟨-, pending⟩
  · have := h.bounds _ mem
    omega
  · exact Nat.le_of_eq pending.symm

theorem mono (h : p.Reached start c) (le : c ≤ d) : p.Reached start d :=
  ⟨Nat.le_trans h.pending_le le, h.bounds, h.first⟩

/-- What is pending becomes a block, and the sweep goes on after it. -/
theorem enter (h : p.Reached start c) (lt : p.pending < d) {u : Tag} (tag : u = .code ∨ u = .bytes)
    (events : List Event) : Reached start d ⟨(p.pending, u) :: p.boundaries, d, events⟩ := by
  refine ⟨Nat.le_refl d, fun e mem => ?_, ?_⟩
  · rcases List.mem_cons.1 mem with rfl | mem
    · exact ⟨h.start_le, lt, tag⟩
    · obtain ⟨lower, upper, tag⟩ := h.bounds e mem
      exact ⟨lower, Nat.lt_trans upper lt, tag⟩
  · rcases h.first with ⟨v, mem⟩ | ⟨-, pending⟩
    · exact .inl ⟨v, List.mem_cons_of_mem _ mem⟩
    · exact .inl ⟨u, by rw [pending]; exact List.mem_cons_self⟩

/-- What is pending joins the last block, and the sweep goes on after it. -/
theorem skip (h : p.Reached start c) (le : p.pending ≤ d) (some : p.boundaries ≠ [])
    (events : List Event) : Reached start d ⟨p.boundaries, d, events⟩ := by
  refine ⟨Nat.le_refl d, fun e mem => ?_, ?_⟩
  · obtain ⟨lower, upper, tag⟩ := h.bounds e mem
    exact ⟨lower, Nat.lt_of_lt_of_le upper le, tag⟩
  · rcases h.first with first | ⟨none, -⟩
    · exact .inl first
    · exact absurd none some

theorem afterStreak (h : p.Reached start c) (tiles : Tiles c l d) (ne : l ≠ []) :
    (p.afterStreak l).Reached start d := by
  have lt : p.pending < d := Nat.lt_of_le_of_lt h.pending_le (tiles.lt ne)
  rcases afterStreak_cases p tiles ne with ⟨-, eq⟩ | ⟨-, events, ⟨x, rest, head, eq⟩ | eq⟩
  · rw [eq]
    exact h.mono tiles.le
  · rw [eq]
    exact h.skip (Nat.le_of_lt lt) (by simp [head]) events
  · rw [eq]
    exact h.enter lt (.inr rfl) events

theorem close (h : p.Reached start c) : (p.close c).Reached start c := by
  unfold Progress.close
  split
  · next lt => exact h.enter lt (.inl rfl) _
  · next ge =>
    have same : p.pending = c := Nat.le_antisymm h.pending_le (Nat.le_of_not_lt ge)
    exact ⟨Nat.le_refl c, same ▸ h.bounds, same ▸ h.first⟩

theorem foldl_afterStreak (h : p.Reached start c) (tiles : Tiles c lists.flatten d)
    (ne : [] ∉ lists) : (lists.foldl Progress.afterStreak p).Reached start d := by
  induction lists generalizing p c with
  | nil => exact h.mono (Nat.le_of_eq tiles)
  | cons l lists ih =>
    -- The first streak tiles a range of its own, and the others go on where it ends.
    obtain ⟨b, first, rest⟩ := Tiles.append_iff.1 tiles
    rw [List.mem_cons, not_or] at ne
    exact ih (h.afterStreak first (Ne.symm ne.1)) rest ne.2

theorem afterSegment (h : p.Reached start c) (tiles : Tiles c l d) :
    (p.afterSegment l).Reached start d := by
  have whole := tiles_streaks tiles
  have ne : [] ∉ streaks l := List.nil_notMem_splitBy _ _
  unfold Progress.afterSegment
  split
  · exact h.mono tiles.le
  · next last found =>
    split
    · rw [tiles.stop_getLast? found]
      exact (h.foldl_afterStreak whole ne).close
    · -- The last streak is not judged: the sweep stands where it began.
      have split : streaks l ≠ [] := List.splitBy_ne_nil.2 fun none => by simp [none] at found
      rw [← List.dropLast_append_getLast split, List.flatten_append] at whole
      obtain ⟨b, judged, rest⟩ := Tiles.append_iff.1 whole
      have sub : [] ∉ (streaks l).dropLast := fun mem => ne (List.dropLast_subset _ mem)
      exact (h.foldl_afterStreak judged sub).mono rest.le

theorem foldl_afterSegment (h : p.Reached start c) (tiles : Tiles c lists.flatten d) :
    (lists.foldl Progress.afterSegment p).Reached start d := by
  induction lists generalizing p c with
  | nil => exact h.mono (Nat.le_of_eq tiles)
  | cons l lists ih =>
    obtain ⟨b, first, rest⟩ := Tiles.append_iff.1 tiles
    exact ih (h.afterSegment first) rest

/-- What is still pending at the end becomes data, so in the end nothing is. -/
theorem finish (h : p.Reached start stop) :
    ∃ q : Progress, q.Reached start stop ∧ q.pending = stop ∧
      q.boundaries = (p.finish stop).boundaries := by
  unfold Progress.finish
  split
  · next lt => exact ⟨_, h.enter lt (.inr rfl) [], rfl, rfl⟩
  · next ge => exact ⟨p, h, Nat.le_antisymm h.pending_le (Nat.le_of_not_lt ge), rfl⟩

end Reached

end Progress

/-- The boundaries of a sweep lie in the range, and the start of the range is one. -/
theorem boundaries_sweepProgress (lt : start < stop) :
    (∀ e ∈ (sweepProgress t m start stop).boundaries,
      start ≤ e.1 ∧ e.1 < stop ∧ (e.2 = .code ∨ e.2 = .bytes)) ∧
        ∃ u, (start, u) ∈ (sweepProgress t m start stop).boundaries := by
  have swept := (Progress.reached_initial start).foldl_afterSegment
    (tiles_segments t m (Nat.le_of_lt lt))
  obtain ⟨q, reached, pending, same⟩ := swept.finish
  rw [sweepProgress, ← same]
  constructor
  · intro e mem
    obtain ⟨lower, upper, tag⟩ := reached.bounds e mem
    exact ⟨lower, pending ▸ upper, tag⟩
  · rcases reached.first with first | ⟨-, none⟩
    · exact first
    · omega

end MemoryAtlas.Heuristic
