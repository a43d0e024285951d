import MemoryAtlas.FileFault

/-!
# Errors of traces
-/

namespace MemoryAtlas.Trace

/-- Why the bytes of a trace cannot be had. -/
inductive SourceFault where
  /-- The file cannot be read. -/
  | file (f : FileFault)
  /-- A line of a log is not encoded in UTF-8. -/
  | undecodable
  deriving DecidableEq, Repr

/-- The wording of a fault. -/
def SourceFault.message : SourceFault → String
  | file f => f.message
  | undecodable => "stream did not contain valid UTF-8"

/-- Why a trace cannot be read. -/
inductive Error where
  /-- Its bytes cannot be had. -/
  | source (path : String) (f : SourceFault)
  /-- It is of no known format. -/
  | format (path : String)
  /-- A line holds no address. Lines count from one. -/
  | line (path : String) (number : Nat) (token : String)
  deriving DecidableEq, Repr

namespace Error

/-- The file in question. -/
def path : Error → String
  | source path _ => path
  | format path => path
  | line path _ _ => path

/-- The wording of an error. -/
def message : Error → String
  | source path f => "cannot read code map " ++ path ++ ": " ++ f.message
  | format path => path ++ ": unrecognised code map format"
  | line path number token =>
    path ++ ", line " ++ toString number ++ ": invalid address '" ++ token ++ "'"

end Error

end MemoryAtlas.Trace
