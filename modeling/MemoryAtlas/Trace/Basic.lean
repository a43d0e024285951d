import MemoryAtlas.Trace.Log
import MemoryAtlas.Trace.Table
import MemoryAtlas.Z80.Instruction

/-!
# Execution traces

A trace is a file. Its format, if it is not given, shows in its size: tables have sizes of their
own, and everything else is a log.

## Main definitions

* `Trace.addresses`: the addresses that ran.
* `codeBlocks`: the blocks of code that executed addresses make up.
-/

namespace MemoryAtlas

open Z80

/-- An execution trace: a file by its path. -/
structure Trace where
  /-- The path, as given. -/
  path : String
  /-- What the file holds. -/
  content : FileContent

namespace Trace

/-- The format of a table of a given size. -/
def tableOfSize? (size : Nat) : Option Format :=
  if size = bitmapSize then some .bitmap
  else if size = occupancySize then some .occupancy
  else none

/-- The addresses of a range that ran, ascending. -/
def addresses (t : Trace) (range : Span) (format : Option Format) : Attempt (List Nat) :=
  match t.content with
  | .error f => throw (.source t.path (.file f))
  | .ok data => do
    match format.orElse fun _ => tableOfSize? data.size with
    | some .bitmap =>
      report (.reading .bitmap t.path)
      return readBitmap data range
    | some .occupancy =>
      report (.reading .occupancy t.path)
      return readOccupancy data range
    | format => readLog ⟨t.path, data.size, range⟩ format (Text.symbols data.toList)

end Trace

/-- The blocks with one more executed instruction, which lies after their starts. It joins the last
block if it starts inside of it or at its end. Blocks are kept last first. -/
def joinBlock (blocks : List Span) (i : Instruction) : List Span :=
  match blocks with
  | last :: earlier =>
    if i.address ≤ last.stop then ⟨last.start, max last.stop i.stop⟩ :: earlier
    else ⟨i.address, i.stop⟩ :: blocks
  | [] => [⟨i.address, i.stop⟩]

/-- The blocks that the instructions at some ascending addresses make up. No instruction goes past
the end. -/
def codeBlocks (t : RepeatCeilings) (m : Image) (addresses : List Nat) (stop : Nat) : List Span :=
  let executed := (addresses.filter (· < stop)).map fun a => decode t m a stop
  (executed.foldl joinBlock []).reverse

/-- The same, with a report. -/
def findCodeBlocks (t : RepeatCeilings) (m : Image) (addresses : List Nat) (stop : Nat) :
    Logged (List Span) :=
  let blocks := codeBlocks t m addresses stop
  ⟨blocks, [.codeBlocksFound blocks.length addresses.length]⟩

end MemoryAtlas
