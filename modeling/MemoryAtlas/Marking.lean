import MemoryAtlas.TagMap
import MemoryAtlas.TextScan

/-!
# Marking text and zeros

Both ways of classification end by marking what data holds: blocks of zeros, and text inside blocks
of bytes or code. Each pass is a list of edits that follows from the map and the image.
-/

namespace MemoryAtlas

/-- The boundaries around spans of text in a block: text from each start, bytes from each stop below
the end of the block. -/
def textBoundaries (stop : Nat) (spans : List Span) : List Edit :=
  spans.flatMap fun s =>
    .assign s.start .text :: if s.stop < stop then [.assign s.stop .bytes] else []

/-- The text of a range of data. -/
def textInData (s : Settings) (m : Image) (range : Span) : List Span :=
  findText s m .data range.start range.stop

/-- The text of a range of code. -/
def textInCode (s : Settings) (m : Image) (range : Span) : List Span :=
  findText s m .code range.start range.stop

/-- The edits that mark the text in a range of data. -/
def markText (s : Settings) (m : Image) (range : Span) : List Edit :=
  textBoundaries range.stop (textInData s m range)

/-- The edits that mark the text in a range of code. With text in it the range counts as data, and
code starts again after the last text. -/
def markTextInCode (s : Settings) (m : Image) (range : Span) : List Edit :=
  let spans := textInCode s m range
  match spans.getLast? with
  | none => []
  | some last =>
    .assign range.start .bytes :: textBoundaries range.stop spans ++
      if last.stop < range.stop then [.assign last.stop .code] else []

/-- The range of a block. -/
def Block.span (b : Block) : Span := ⟨b.start, b.stop⟩

/-- The blocks of bytes that hold zeros only. -/
def zeroFillBlocks (m : Image) (tags : TagMap) : List Block :=
  (tags.blocksTagged .bytes).filter fun b => m.isZeroFill b.start b.stop

/-- The edits that mark blocks of zeros. -/
def markZeroFill (m : Image) (tags : TagMap) : List Edit :=
  (zeroFillBlocks m tags).map fun b => .assign b.start .zero

end MemoryAtlas
