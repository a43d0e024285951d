import MemoryAtlas.Heuristic.Sweep
import MemoryAtlas.Marking

/-!
# Classification without a trace

A linear sweep tells code from data. Then leading zeros are split off code, data is marked and
joined, and text is looked for everywhere.
-/

namespace MemoryAtlas.Heuristic

open Z80

/-- The number of zeros that a block starts with. -/
def leadingZeros (m : Image) (b : Block) : Nat :=
  ((m.slice b.start b.stop).takeWhile (· == 0)).length

/-- The edits that split the leading zeros off a block of code. -/
def splitBlock (m : Image) (b : Block) : List Edit :=
  let zeros := leadingZeros m b
  if zeros = 0 then []
  else .assign b.start .zero ::
    if b.start + zeros < b.stop then [.assign (b.start + zeros) .code] else []

/-- The edits that split the leading zeros off every block of code. -/
def splitLeadingZeros (m : Image) (tags : TagMap) : List Edit :=
  (tags.blocksTagged .code).flatMap (splitBlock m)

/-- Boundaries cut into longest runs of data; any other boundary is a run of its own. -/
def dataRuns (l : List (Nat × Tag)) : List (List (Nat × Tag)) :=
  l.splitBy fun x y => x.2.isData && y.2.isData

/-- The edits that join a run of boundaries into its first. -/
def joinRun : List (Nat × Tag) → List Edit
  | [] => []
  | first :: rest => rest.flatMap fun e => [.assign first.1 .bytes, .clear e.1]

/-- The edits that join neighbouring blocks of data. -/
def mergeData (tags : TagMap) : List Edit := (dataRuns tags.entries).flatMap joinRun

/-- The map of a range, from its bytes alone. -/
def classify (s : Settings) (t : RepeatCeilings) (m : Image) (start stop : Nat) :
    Logged TagMap := do
  let tags ← sweep t m start stop
  .report (.swept (tags.size - 1))
  let tags ← tags.perform (splitLeadingZeros m tags)
  let zeros := (zeroFillBlocks m tags).length
  let tags ← tags.perform (markZeroFill m tags)
  .report (.zeroFilled zeros)
  let tags ← tags.perform (mergeData tags)
  let data := TagMap.blocksTagged tags .bytes
  let tags ← tags.perform (data.flatMap fun b => markText s m b.span)
  let code := TagMap.blocksTagged tags .code
  let tags ← tags.perform (code.flatMap fun b => markTextInCode s m b.span)
  let texts := (data.flatMap fun b => textInData s m b.span).length +
    (code.flatMap fun b => textInCode s m b.span).length
  .report (.textFound texts)
  return tags

end MemoryAtlas.Heuristic
