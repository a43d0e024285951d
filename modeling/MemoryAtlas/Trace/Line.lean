import MemoryAtlas.Text.Numeral
import MemoryAtlas.Trace.Format

/-!
# Lines of trace logs

Each text format marks its lines with a mark of its own, after which the address stands.

## Main definitions

* `Format.detect?`: the format that a line is marked for.
* `Format.token?`: the text of the address on a line.
* `Format.readLine?`: the address on a line.
-/

namespace MemoryAtlas.Trace.Format

open Text

/-- The mark at the start of a line. Tables have no lines. -/
def mark? : Format → Option (List Char)
  | fuse => some ['0', 'x']
  | spud => some ['P', 'C', ' ', '=', ' ']
  | zero => some ['P', 'C', ':']
  | address => some ['$']
  | bitmap | occupancy => none

/-- The formats of text logs. -/
def logs : List Format := [fuse, spud, zero, address]

/-- A line between its blanks, after the mark of a format. -/
def body? (f : Format) (line : List Char) : Option (List Char) :=
  f.mark?.bind fun mark => after? mark (trim line)

/-- The format that a line is marked for. -/
def detect? (line : List Char) : Option Format := logs.find? fun f => (f.body? line).isSome

/-- The text of the address where the rest of a line starts with it. -/
def leading? (f : Format) (body : List Char) : Option (List Char) :=
  match f with
  | fuse => some (body.takeWhile (· ≠ ','))
  | spud | zero => firstWord? body
  | address => some (body.takeWhile fun c => !isBlank c && c ≠ ':')
  | bitmap | occupancy => none

/-- The text of the address on a line. -/
def token? (f : Format) (line : List Char) : Option (List Char) := (f.body? line).bind f.leading?

/-- The greatest address in a trace. -/
def greatestAddress : Nat := 0xFFFF

/-- The address on a line. -/
def readLine? (f : Format) (line : List Char) : Option Nat :=
  (f.token? line).bind fun token => readBelow? (greatestAddress + 1) f.base (trim token)

end MemoryAtlas.Trace.Format
