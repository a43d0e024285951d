import MemoryAtlas.Main
import MemoryAtlas.Proofs.TagMap.Lookup
import MemoryAtlas.Proofs.TagMap.InOrder
import MemoryAtlas.Proofs.TagMap.WellFormed
import MemoryAtlas.Proofs.TagMap.ByBlock
import MemoryAtlas.Proofs.Marking
import MemoryAtlas.Proofs.TextScan
import MemoryAtlas.Proofs.MarkedBlocks
import MemoryAtlas.Proofs.Z80.Tiling
import MemoryAtlas.Proofs.Z80.Cuts
import MemoryAtlas.Proofs.Z80.Jumps
import MemoryAtlas.Proofs.Z80.Bytes
import MemoryAtlas.Proofs.Phases.AnyOrder
import MemoryAtlas.Proofs.Text.Numeral
import MemoryAtlas.Proofs.Trace.Addresses
import MemoryAtlas.Proofs.Trace.CodeBlocks
import MemoryAtlas.Proofs.Trace.Log
import MemoryAtlas.Proofs.Trace.Verdict
import MemoryAtlas.Proofs.Trace.Agreement
import MemoryAtlas.Proofs.Heuristic.Sweep
import MemoryAtlas.Proofs.Heuristic.Boundaries
import MemoryAtlas.Proofs.Heuristic.OnePass
import MemoryAtlas.Proofs.Heuristic.Segments
import MemoryAtlas.Proofs.Fixpoint
import MemoryAtlas.Proofs.Traced.Stages
import MemoryAtlas.Proofs.Coverage
import MemoryAtlas.Proofs.Traced.Merging
import MemoryAtlas.Proofs.Traced.RunEnd
import MemoryAtlas.Proofs.Traced.Splitting
import MemoryAtlas.Proofs.Traced.Growth
import MemoryAtlas.Proofs.Traced.DataBlocks
import MemoryAtlas.Proofs.Traced.Executed
import MemoryAtlas.Proofs.Traced.FallThrough
import MemoryAtlas.Proofs.Listing
import MemoryAtlas.Proofs.Traced.Closure
import MemoryAtlas.Proofs.Relocation.Decoding
import MemoryAtlas.Proofs.Relocation.TagMap
import MemoryAtlas.Proofs.Relocation.Marking
import MemoryAtlas.Proofs.Z80.Encoding
import MemoryAtlas.Proofs.Z80.Written
import MemoryAtlas.Proofs.Z80.Shape
import MemoryAtlas.Proofs.Z80.IndexPrefix
import MemoryAtlas.Proofs.Heuristic.Relocation
import MemoryAtlas.Proofs.Traced.Locality
import MemoryAtlas.Proofs.Heuristic.Joined
import MemoryAtlas.Proofs.Heuristic.Stages
import MemoryAtlas.Proofs.Heuristic.Soundness
import MemoryAtlas.Proofs.Heuristic.ZeroPrecedence
import MemoryAtlas.Proofs.Heuristic.JoinedRuns
import MemoryAtlas.Proofs.Heuristic.Ceilings
import MemoryAtlas.Proofs.Text.Words
import MemoryAtlas.Proofs.Heuristic.Exits
import MemoryAtlas.Proofs.Trace.Lines
import MemoryAtlas.Proofs.Settings.Choices
import MemoryAtlas.Proofs.Json.Lexeme
import MemoryAtlas.Proofs.Json.Reading
import MemoryAtlas.Proofs.TagMap.Document
import MemoryAtlas.Proofs.Settings.Document
import MemoryAtlas.Proofs.TagMap.Partition
import MemoryAtlas.Proofs.Trace.Percentages
import MemoryAtlas.Proofs.Heuristic.OnePass
