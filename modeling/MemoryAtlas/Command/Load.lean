import MemoryAtlas.Command.Error

/-!
# Image files

A file with the extension `sna` is a snapshot: a header, then the memory above the 16K of ROM. Every
other file is a binary, placed at a given address or else so that it ends at the top of the memory.

## Main definitions

* `extension?`: the extension of a path.
* `load`: the memory that a file gives, and the range that it fills.
-/

namespace MemoryAtlas.Command

/-- The parts of a path between slashes. Empty parts and single dots say nothing. -/
def pathParts (path : String) : List String :=
  ((path.toList.splitOn '/').map String.ofList).filter fun part => part ≠ "" ∧ part ≠ "."

/-- The extension of a path: what follows the last dot of its last part, if something precedes the
dot. -/
def extension? (path : String) : Option String :=
  match (pathParts path).getLast? with
  | none | some ".." => none
  | some part =>
    let reversed := part.toList.reverse
    match reversed.dropWhile (· ≠ '.') with
    | [] | ['.'] => none
    | _ => some (String.ofList (reversed.takeWhile (· ≠ '.')).reverse)

/-- Whether a path is that of a snapshot. The case of letters does not matter. -/
def isSnapshot (path : String) : Bool :=
  (extension? path).any fun e => e.toList.map Char.toLower == ['s', 'n', 'a']

/-- The size of the header of a snapshot. -/
def snapshotHeader : Nat := 27

/-- Where the memory of a snapshot starts. -/
def snapshotOrigin : Nat := 0x4000

/-- A memory and the range that a file fills. -/
structure Loaded where
  /-- The memory. -/
  image : Image
  /-- The range. -/
  extent : Span

/-- The memory of a snapshot. -/
def loadSnapshot (path : String) (data : Array UInt8) : Except Error Loaded :=
  if data.size = snapshotSize then
    match Image.ofRaw? (data.extract snapshotHeader data.size) snapshotOrigin with
    | some m => .ok ⟨m, ⟨snapshotOrigin, addressSpace⟩⟩
    | none => .error (.snapshot path data.size)
  else .error (.snapshot path data.size)

/-- The memory of a binary. -/
def loadBinary (path : String) (data : Array UInt8) (origin : Nat) : Except Error Loaded :=
  match Image.ofRaw? data origin with
  | some m => .ok ⟨m, ⟨origin, origin + data.size⟩⟩
  | none => .error (.tooLarge path data.size origin)

/-- The memory that a file gives. -/
def load (path : String) (data : Array UInt8) (origin : Option Nat) : Except Error Loaded :=
  if isSnapshot path then loadSnapshot path data
  else loadBinary path data (origin.getD (addressSpace - data.size))

end MemoryAtlas.Command
