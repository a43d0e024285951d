import MemoryAtlas.Heuristic.Classify
import MemoryAtlas.Trace.Basic
import MemoryAtlas.Traced.Classify

/-!
# Classification

A range of memory is classified from a trace, if there is one, and else by heuristics.
-/

namespace MemoryAtlas

open Z80

/-- The map of a range that starts below its end. -/
def classifyRange (s : Settings) (t : RepeatCeilings) (m : Image) (range : Span) :
    Option Trace → Trace.Attempt TagMap
  | none => Heuristic.classify s t m range.start range.stop
  | some trace => do
    let addresses ← trace.addresses range s.traceFormat
    let blocks ← findCodeBlocks t m addresses range.stop
    Traced.classify s t m range.start range.stop blocks

/-- The map of a range. If the range is empty there is only its end. -/
def classify (s : Settings) (t : RepeatCeilings) (m : Image) (range : Span)
    (trace : Option Trace) : Trace.Attempt TagMap :=
  if range.stop ≤ range.start then do
    Trace.report (.emptyRange range)
    TagMap.perform ∅ [.assign range.stop .limit]
  else do
    Trace.report (.classifying range (trace.map Trace.path))
    let tags ← classifyRange s t m range trace
    Trace.report (.classified (tags.size - 1))
    return tags

end MemoryAtlas
