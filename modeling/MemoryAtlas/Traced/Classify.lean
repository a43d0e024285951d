import MemoryAtlas.Marking
import MemoryAtlas.Traced.Promote
import MemoryAtlas.Traced.Split

/-!
# Classification with a trace

What has run is code. From there code is extended to terminal instructions, entry points that code
refers to are promoted, and code is split and merged into blocks that end where control leaves. What
remains is data, in which text and zeros are marked.
-/

namespace MemoryAtlas.Traced

open Z80

/-- The edits that enter a block of executed code: code from its start, and unclassified memory
again from its end. -/
def seedBlock (stop : Nat) (block : Span) : List Edit :=
  .assign block.start .code ::
    if block.stop < stop then [.assign block.stop .unknown] else []

/-- The edits that enter the blocks of executed code into an empty map. -/
def seed (start stop : Nat) (blocks : List Span) : List Edit :=
  TagMap.rangeEdits start stop .unknown ++ blocks.flatMap (seedBlock stop)

/-- The edits that turn unclassified blocks into data and mark their text. -/
def classifyUnknown (s : Settings) (m : Image) (tags : TagMap) : List Edit :=
  (tags.blocksTagged .unknown).flatMap fun b => .assign b.start .bytes :: markText s m b.span

/-- The text in unclassified blocks. -/
def textInUnknown (s : Settings) (m : Image) (tags : TagMap) : List Span :=
  (tags.blocksTagged .unknown).flatMap fun b => textInData s m b.span

/-- The map of a range, from its bytes and the blocks that have run. -/
def classify (s : Settings) (t : RepeatCeilings) (m : Image) (start stop : Nat)
    (blocks : List Span) : Logged TagMap := do
  let tags ← TagMap.perform ∅ (seed start stop blocks)
  .report (.seeded blocks.length)
  let (extensions, tags) ← extendAll t m stop tags
  .report (.extended extensions)
  let (promotions, tags) ← promoteAll t m stop tags
  .report (.promoted promotions)
  let tags ← tags.perform (splitAtTerminals t m tags)
  let (merges, tags) ← mergeAll t m tags
  .report (.merged merges)
  let texts := (textInUnknown s m tags).length
  let tags ← tags.perform (classifyUnknown s m tags)
  .report (.textFound texts)
  let zeros := (zeroFillBlocks m tags).length
  let tags ← tags.perform (markZeroFill m tags)
  .report (.zeroFilled zeros)
  return tags

end MemoryAtlas.Traced
