import MemoryAtlas.Command.Run

/-!
# Command line program

Reads the files that the command line names and prints what the command makes of them.
-/

namespace MemoryAtlas.Command

/-- What comes of reading a file. -/
def fetch (path : String) : IO FileContent := do
  try
    return .ok (← IO.FS.readBinFile path).data
  catch
    | .noFileOrDirectory .. => return .error .missing
    | .inappropriateType _ 21 _ => return .error .directory
    | .inappropriateType .. => return .error .notDirectory
    | e => return .error (.other (toString e))

/-- The files at some paths; every other file is missing. -/
def fetchAll (paths : List String) : IO (String → FileContent) := do
  let found ← paths.mapM fun path => return (path, ← fetch path)
  return fun path => (found.lookup path).getD (.error .missing)

end MemoryAtlas.Command

open MemoryAtlas.Command in
/-- Run the command. Help and the version are no failures. -/
def main (args : List String) : IO UInt32 := do
  match Arguments.parse args with
  | .error .help => IO.println UsageError.help.message; return 0
  | .error .version => IO.println UsageError.version.message; return 0
  | .error e => IO.eprintln e.message; return 1
  | .ok parsed =>
    match run (← fetchAll parsed.paths) parsed with
    | .error e => IO.eprintln e.message; return 1
    | .ok text => IO.print (String.ofList text); return 0
