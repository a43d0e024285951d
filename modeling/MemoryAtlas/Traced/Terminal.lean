import MemoryAtlas.TagMap
import MemoryAtlas.Z80.Instruction

/-!
# The end of a run of code

Code runs from an address to the first terminal instruction, or to the first boundary of code that
an instruction ends at. The search for that end enters a boundary there and, if it is not told which
tag to enter, first removes the boundaries inside the instructions it passes and takes the tag of
the lowest.

## Main definitions

* `codeRun`: the instructions of the run.
* `findTerminal`: where the run ends and the edits that enter its end.

## Main results

* `edits_findTerminal_some`: with a given tag at most one boundary is entered, inside the range and
  where there was none.
-/

namespace MemoryAtlas.Traced

open Z80

/-- The end of a run of code, and what changes on the way to it. -/
structure Reach where
  /-- The address that the run ends at. -/
  address : Nat
  /-- The changes of the map. -/
  edits : List Edit

/-- The instructions from `start` to the end of the run of code, or to `stop`. -/
def codeRun (t : RepeatCeilings) (m : Image) (tags : TagMap) (start stop : Nat) :
    List Instruction :=
  instructionsUntil (fun i => i.isTerminal || tags.get? i.stop == some .code) t m start stop

/-- The boundaries inside the instructions of a run. -/
def absorbed (tags : TagMap) (run : List Instruction) : List (Nat × Tag) :=
  run.flatMap fun i => tags.within i.address i.stop

/-- The boundary at the end of a run: after a terminal instruction that ends below `stop`, if there
is no boundary and there is a tag for it. -/
def runBoundary (tags : TagMap) (run : List Instruction) (stop : Nat) (tag : Option Tag) :
    List Edit :=
  match run.getLast?, tag with
  | some last, some tag =>
    if last.isTerminal && last.stop < stop && !tags.contains last.stop then
      [.assign last.stop tag]
    else []
  | _, _ => []

/-- The end of the run of code from `start`, at most `stop`. -/
def findTerminal (t : RepeatCeilings) (m : Image) (tags : TagMap) (start stop : Nat)
    (tag : Option Tag) : Reach :=
  let run := codeRun t m tags start stop
  let address := match run.getLast? with
    | some last => last.stop
    | none => start
  match tag with
  | some _ => ⟨address, runBoundary tags run stop tag⟩
  | none =>
    let inside := absorbed tags run
    ⟨address, inside.map (fun e => .clear e.1) ++
      runBoundary tags run stop (inside.head?.map (·.2))⟩

theorem edits_findTerminal_some (t : RepeatCeilings) (m : Image) (tags : TagMap)
    (start stop : Nat) (tag : Tag) :
    (findTerminal t m tags start stop (some tag)).edits = [] ∨
      ∃ a, start < a ∧ a < stop ∧ tags.get? a = none ∧
        (findTerminal t m tags start stop (some tag)).edits = [.assign a tag] := by
  simp only [findTerminal, runBoundary]
  cases found : (codeRun t m tags start stop).getLast? with
  | none => exact .inl rfl
  | some last =>
    dsimp only
    split
    · next h =>
      simp only [Bool.and_eq_true, Bool.not_eq_true', decide_eq_true_eq, SortedMap.contains,
        Option.isSome_eq_false_iff, Option.isNone_iff_eq_none] at h
      have inRange := bounds_of_mem_instructionsUntil _ t m (List.mem_of_getLast? found)
      exact .inr ⟨last.stop, by omega, h.1.2, h.2, rfl⟩
    · exact .inl rfl

end MemoryAtlas.Traced
