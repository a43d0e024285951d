import MemoryAtlas.Json.Reader
import MemoryAtlas.Json.Writer
import MemoryAtlas.TagMap
import MemoryAtlas.Text.Numeral

/-!
# Map documents

A tag map is kept as a JSON object. Its keys are the boundaries in decimal, without leading zeros
and below `2 ^ 32`; its values are the letters of the tags.

## Main definitions

* `TagMap.read`: the map that a text holds.
* `TagMap.write`: the text of a map, ascending.
-/

namespace MemoryAtlas.TagMap

open Text Json

/-- A boundary between quotes. -/
def boundary : Reader Nat where
  read s :=
    match s with
    | some '"' :: rest =>
      match unsigned rest with
      | .ok (n, false, some '"' :: rest) =>
        if n < wordBound then .ok (n, rest) else .error .malformed
      | .ok _ => .error .malformed
      | .error f => .error f
    | _ => .error .malformed
  length_read h := by
    have num := @length_unsigned
    grind

/-- A tag by its letter. -/
def letter : Reader Tag :=
  Reader.string.refine fun s =>
    match s.toList with
    | [c] => Tag.ofLetter? c
    | _ => none

/-- A tag by its letter, as the only key of an object whose value is `null`. -/
def wrapped : Reader Tag :=
  (Reader.sequence '{' '}' Option.isNone
    (fun _ => letter.andThen fun t => .ok (Reader.null.afterColon.map fun _ => some t)) none).refine
      id

/-- A tag. -/
def tag : Reader Tag where
  read s := if (skipSpace s).head? = some (some '{') then wrapped.read s else letter.read s
  length_read h := by
    split at h
    · exact wrapped.length_read h
    · exact letter.length_read h

/-- A map. The last of equal boundaries counts. -/
def reader : Reader TagMap :=
  .object boundary (fun m a => .ok (tag.map (m.insert a ·))) ∅

/-- The map that a text holds. -/
def read (text : List Symbol) : Except Fault TagMap := reader.document text

/-- A boundary with its tag, written as key and value. -/
def writeEntry (e : Nat × Tag) : String × List Char :=
  (.ofList (writeNat e.1), writeString e.2.letter.toString)

/-- The text of a map. -/
def write (m : TagMap) : List Char :=
  writeObject (m.entries.map fun e => writeMember (writeEntry e).1 (writeEntry e).2)

/-- The text of a map at some depth, with a line for each boundary. -/
def layOut (depth : Nat) (m : TagMap) : List Char := Json.layOut depth (m.entries.map writeEntry)

end MemoryAtlas.TagMap
