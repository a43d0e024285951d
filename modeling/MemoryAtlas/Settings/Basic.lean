import MemoryAtlas.SortedMap
import MemoryAtlas.Trace.Format

/-!
# Settings

What the user may choose: which characters and words count as text, the least length of text, the
repeat ceilings of opcode classes, and the format of traces.
-/

namespace MemoryAtlas

/-- The choices that guide classification. -/
structure Settings where
  /-- The characters of text. -/
  textChars : String
  /-- The least length of text in data. -/
  leastInData : UInt64
  /-- The least length of text in code. -/
  leastInCode : UInt64
  /-- Words of which text must hold one, in lower case. -/
  dictionary : Option (List String)
  /-- Ceilings by the written class number, as given. -/
  ceilings : SortedMap String Int32
  /-- The format of traces, if it is not to be detected. -/
  traceFormat : Option Trace.Format
  deriving DecidableEq

/-- Where text is looked for. -/
inductive TextContext where
  | data
  | code
  deriving DecidableEq, Repr

namespace Settings

/-- The usual characters of text. -/
def usualTextChars : String :=
  "ABCDEFGHIJKLMNOPQRSTUVWXYZabcdefghijklmnopqrstuvwxyz0123456789 !\"$%&'()*+,-./:;<=>?"

/-- The settings in the absence of choices. -/
def usual : Settings where
  textChars := usualTextChars
  leastInData := 3
  leastInCode := 12
  dictionary := none
  ceilings := ∅
  traceFormat := none

instance : Inhabited Settings := ⟨usual⟩

/-- Whether a byte is the code of a text character. Only codes below 128 are. -/
def isTextByte (s : Settings) (b : UInt8) : Bool :=
  b < 128 && s.textChars.toList.contains (Char.ofNat b.toNat)

/-- The least length of text in a context. -/
def leastLength (s : Settings) : TextContext → Nat
  | .data => s.leastInData.toNat
  | .code => s.leastInCode.toNat

end Settings

end MemoryAtlas
