import MemoryAtlas.Image
import MemoryAtlas.Settings.Basic

/-!
# Text in memory

Text is a longest run of text characters that is long enough and, if there is a dictionary, holds
one of its words.

## Main definitions

* `longestRuns`: the longest runs of addresses with a property, ascending.
* `findText`: the runs that are text.
-/

namespace MemoryAtlas

/-- The first address from `a` on without the property `p`, at most `stop`. -/
def runEnd (p : Nat → Bool) (stop a : Nat) : Nat :=
  if a < stop then if p a then runEnd p stop (a + 1) else a else a
termination_by stop - a

/-- A longest run of addresses with the property `p` starts at `a`, in a range from `start`. -/
def startsRun (p : Nat → Bool) (start a : Nat) : Bool := p a && (a == start || !p (a - 1))

/-- The longest runs of addresses with the property `p` in a range that start at `a` or later,
ascending. -/
def runsFrom (p : Nat → Bool) (start stop a : Nat) : List Span :=
  ((List.range' a (stop - a)).filter (startsRun p start)).map fun b => ⟨b, runEnd p stop b⟩

/-- The longest runs of addresses with the property `p` in a range, ascending. -/
def longestRuns (p : Nat → Bool) (start stop : Nat) : List Span := runsFrom p start stop start

/-- Whether `word` stands somewhere in a text. -/
def occursIn (word : List Char) : List Char → Bool
  | [] => word.isEmpty
  | c :: rest => word.isPrefixOf (c :: rest) || occursIn word rest

/-- The characters with the given codes, in lower case. Text has codes below 128 only, and of those
the letters `A` to `Z` have a lower case. -/
def lowerCase (bytes : List UInt8) : List Char := bytes.map fun b => (Char.ofNat b.toNat).toLower

/-- Whether a run of text characters counts as text: it has the least length, and some word of the
dictionary, if there is one. -/
def isText (s : Settings) (m : Image) (context : TextContext) (run : Span) : Bool :=
  s.leastLength context ≤ run.stop - run.start &&
    match s.dictionary with
    | none => true
    | some words =>
      let text := lowerCase (m.slice run.start run.stop)
      words.any fun word => occursIn word.toList text

/-- The text in a range, ascending. -/
def findText (s : Settings) (m : Image) (context : TextContext) (start stop : Nat) : List Span :=
  (longestRuns (fun a => s.isTextByte (m.read a)) start stop).filter (isText s m context)

end MemoryAtlas
