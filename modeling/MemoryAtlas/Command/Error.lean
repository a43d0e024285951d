import MemoryAtlas.Command.Arguments
import MemoryAtlas.Record
import MemoryAtlas.Settings.Document
import MemoryAtlas.Trace.Error

/-!
# Errors of the command
-/

namespace MemoryAtlas

/-- The wording of a fault. -/
def Json.Fault.message : Json.Fault → String
  | truncated => "the document ends too early"
  | malformed => "the document is malformed"

/-- The wording of an error. -/
def Settings.Error.message : Settings.Error → String
  | document f => f.message
  | badClass name => "Invalid opcode class " ++ name ++ " in RepeatCeilings"

namespace Command

open Text

/-- Why a command fails. -/
inductive Error where
  /-- The command line is wrong. -/
  | usage (e : UsageError)
  /-- The value of an option is no address. -/
  | address (name text : String)
  /-- A file cannot be read. -/
  | file (f : FileFault)
  /-- The settings are wrong. -/
  | settings (e : Settings.Error)
  /-- There is no such trace format. -/
  | traceFormat (name : String)
  /-- A snapshot has the wrong size. -/
  | snapshot (path : String) (size : Nat)
  /-- A binary goes past the top of the memory. -/
  | tooLarge (path : String) (size origin : Nat)
  /-- There is nothing to classify, or it lies outside of the memory. -/
  | range (r : Span)
  /-- The trace cannot be read. -/
  | trace (e : Trace.Error)
  deriving DecidableEq, Repr

/-- The size of a snapshot: a header and 48K of memory. -/
def snapshotSize : Nat := 49179

/-- The wording of an error. -/
def Error.message : Error → String
  | usage e => e.message
  | address name text => "Invalid " ++ name ++ " address " ++ text
  | file f => f.message
  | settings e => e.message
  | traceFormat name => "Unknown code map format " ++ name
  | snapshot path size =>
    path ++ " is not a 48K snapshot (" ++ toString size ++ " bytes, expected " ++
      toString snapshotSize ++ ")"
  | tooLarge path size origin =>
    path ++ " (" ++ toString size ++ " bytes) does not fit in memory at " ++ showAddress origin
  | range r => "Invalid range " ++ r.name
  | trace e => e.message

end Command

end MemoryAtlas
