import MemoryAtlas.TagMap
import MemoryAtlas.Streak
import MemoryAtlas.Z80.Instruction

/-!
# The linear sweep

The instructions of a range are cut into segments, each ending with a terminal instruction, and
each segment into streaks of one opcode class. A segment is code from the end of its last streak of
data in disguise on, and data before. What follows the last terminal instruction is data.

## Main definitions

* `segments`, `streaks`: the two cuts.
* `sweep`: the map of a range.
-/

namespace MemoryAtlas.Heuristic

open Z80

/-- The instructions cut after each terminal one. -/
def segments (l : List Instruction) : List (List Instruction) := l.splitBy fun i _ => !i.isTerminal

/-- The instructions cut between neighbours of different class. -/
def streaks (l : List Instruction) : List (List Instruction) :=
  l.splitBy fun i j => i.classId == j.classId

/-- The streak that starts with an instruction and has `count` of them. -/
def streakOf (first : Instruction) (count : Nat) : Streak := ⟨first.bytes, first.ceiling, count⟩

/-- What a sweep has found so far. -/
structure Progress where
  /-- The boundaries, last first. -/
  boundaries : List (Nat × Tag)
  /-- The start of the block whose tag is open. -/
  pending : Nat
  /-- The events, last first. -/
  events : List Event

namespace Progress

/-- The next boundary. -/
def enter (p : Progress) (a : Nat) (t : Tag) : Progress :=
  { p with boundaries := (a, t) :: p.boundaries }

/-- The sweep after a streak that ends at `stop`. -/
def judge (p : Progress) (s : Streak) (stop : Nat) : Progress :=
  let found := s.resolve p.pending stop (p.boundaries.head?.map (·.2))
  { boundaries := found.value.1.toList ++ p.boundaries
    pending := found.value.2
    events := found.events.reverse ++ p.events }

/-- The sweep after the instructions of a streak. -/
def afterStreak (p : Progress) (l : List Instruction) : Progress :=
  match l, l.getLast? with
  | first :: _, some last => p.judge (streakOf first l.length) last.stop
  | _, _ => p

/-- The sweep after a segment that ends at `stop` with a terminal instruction: what is still pending
there is code. -/
def close (p : Progress) (stop : Nat) : Progress :=
  let q := if p.pending < stop then p.enter p.pending .code else p
  { q with pending := stop }

/-- The sweep after a segment. The last streak of one without terminal instruction is open, and not
judged. -/
def afterSegment (p : Progress) (l : List Instruction) : Progress :=
  match l.getLast? with
  | none => p
  | some last =>
    if last.isTerminal then ((streaks l).foldl afterStreak p).close last.stop
    else (streaks l).dropLast.foldl afterStreak p

/-- The sweep at the end of the range: what is still pending is bytes. -/
def finish (p : Progress) (stop : Nat) : Progress :=
  if p.pending < stop then p.enter p.pending .bytes else p

end Progress

/-- The sweep of a range, but for its end. -/
def sweepProgress (t : RepeatCeilings) (m : Image) (start stop : Nat) : Progress :=
  ((segments (instructions t m start stop)).foldl Progress.afterSegment ⟨[], start, []⟩).finish stop

/-- The map that a linear sweep of a range yields. -/
def sweep (t : RepeatCeilings) (m : Image) (start stop : Nat) : Logged TagMap :=
  let p := sweepProgress t m start stop
  let map := SortedMap.ofList p.boundaries
  ⟨map.insert stop .limit, p.events.reverse ++ [.edited (.assign stop .limit)]⟩

end MemoryAtlas.Heuristic
