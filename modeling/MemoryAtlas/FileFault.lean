/-!
# Unreadable files

Files are read outside the analyses. What comes of it is their bytes or the reason why there are
none.
-/

namespace MemoryAtlas

/-- Why a file cannot be read. -/
inductive FileFault where
  /-- There is no such file. -/
  | missing
  /-- It is a directory. -/
  | directory
  /-- It is looked for inside of what is no directory. -/
  | notDirectory
  /-- The system gives another reason. -/
  | other (reason : String)
  deriving DecidableEq, Repr

/-- The wording of the system. -/
def FileFault.message : FileFault → String
  | missing => "No such file or directory (os error 2)"
  | directory => "Is a directory (os error 21)"
  | notDirectory => "Not a directory (os error 20)"
  | other reason => reason

/-- What comes of reading a file. -/
abbrev FileContent := Except FileFault (Array UInt8)

end MemoryAtlas
