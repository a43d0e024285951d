import MemoryAtlas.Record
import MemoryAtlas.Text.Utf8
import MemoryAtlas.Trace.Error
import MemoryAtlas.Trace.Line

/-!
# Trace logs

A log is read line by line. Blank lines count but say nothing; the first other line decides the
format if none is given, and from there on every line must hold an address.

Reading reports how far it has come each time another tenth of the size is reached. What counts as
read is each line and one byte for its end.

## Main definitions

* `splitLines`: the lines of a text.
* `LogState`, `LogState.read`: what is known after some lines.
* `readLog`: the addresses of a log, ascending.
-/

namespace MemoryAtlas.Trace

open Text

/-- A result or an error, with the events on the way to it. -/
abbrev Attempt := ExceptT Error Logged

/-- Report one event. -/
def report (e : Event) : Attempt Unit := Logged.report e

/-- A line from its symbols, last first. A carriage return at its end is not part of it. -/
def closeLine : List Symbol → List Symbol
  | some '\r' :: found => found.reverse
  | found => found.reverse

/-- The lines of a text, after the symbols of a line already begun, last first. -/
def linesFrom : List Symbol → List Symbol → List (List Symbol)
  | [], [] => []
  | found, [] => [found.reverse]
  | found, some '\n' :: rest => closeLine found :: linesFrom [] rest
  | found, c :: rest => linesFrom (c :: found) rest

/-- The lines of a text. The last one need not be ended, and then keeps what stands at its end. -/
def splitLines (text : List Symbol) : List (List Symbol) := linesFrom [] text

/-- A log to be read. -/
structure LogSource where
  /-- Where it comes from. -/
  path : String
  /-- Its size in bytes, for the reports. -/
  size : Nat
  /-- The addresses that are wanted. -/
  range : Span

/-- What is known after some lines of a log. -/
structure LogState where
  /-- The number of lines. -/
  lines : Nat
  /-- The format. -/
  format : Option Format
  /-- The wanted addresses, last first. -/
  addresses : List Nat
  /-- The bytes read. -/
  read : Nat
  /-- The percentage last reported. -/
  reported : Nat
  deriving DecidableEq, Repr

namespace LogState

/-- What is known before the first line. -/
def initial (format : Option Format) : LogState := ⟨0, format, [], 0, 0⟩

/-- The percentage to report, if the next tenth is reached. -/
def percent? (s : LogState) (size : Nat) : Option Nat :=
  let percent := s.read * 100 / size
  if size = 0 ∨ percent < s.reported + 10 then none else some (percent - percent % 10)

/-- The state after a report, if one is due. -/
def progress (src : LogSource) (s : LogState) : Attempt LogState :=
  match s.percent? src.size with
  | none => return s
  | some percent => do
    report (.progress src.path percent)
    return { s with reported := percent }

/-- The format of the lines from here on, found on this line if it is not known. -/
def formatOf (src : LogSource) (s : LogState) (line : List Char) : Attempt Format :=
  match s.format with
  | some f => return f
  | none =>
    match Format.detect? line with
    | none => throw (.format src.path)
    | some f => do
      report (.reading f src.path)
      return f

/-- The state after the address of a line. -/
def record (src : LogSource) (s : LogState) (line : List Char) : Attempt LogState := do
  let f ← s.formatOf src line
  match f.readLine? line with
  | none =>
    throw (.line src.path s.lines (String.ofList ((f.token? line).getD (trim line))))
  | some a =>
    let wanted := src.range.start ≤ a ∧ a < src.range.stop
    let addresses := if wanted then a :: s.addresses else s.addresses
    progress src { s with format := some f, addresses }

/-- The state after a line. -/
def step (src : LogSource) (s : LogState) (line : List Symbol) : Attempt LogState :=
  match chars? line with
  | none => throw (.source src.path .undecodable)
  | some text =>
    let s := { s with lines := s.lines + 1, read := s.read + encodedSize line + 1 }
    if (trim text).isEmpty then return s else record src s text

end LogState

/-- Numbers in ascending order, each once. -/
def ascending (l : List Nat) : List Nat := (l.mergeSort (· ≤ ·)).eraseReps

/-- The wanted addresses of a log, ascending. A log without any line but blank ones has no format. -/
def readLog (src : LogSource) (format : Option Format) (text : List Symbol) :
    Attempt (List Nat) := do
  let s ← (splitLines text).foldlM (LogState.step src) (.initial format)
  if s.format.isNone then throw (.format src.path) else return ascending s.addresses

end MemoryAtlas.Trace
