import MemoryAtlas.Json.Reader
import MemoryAtlas.Json.Writer
import MemoryAtlas.Settings.Ceilings
import MemoryAtlas.Text.LowerCase.Basic

/-!
# Settings documents

Settings are kept as a JSON object with one member for each field, in any order. Fields that are
missing keep their usual value, members that are no field are passed over, and a field may be given
once. A list of values stands for the first fields in their order.

## Main definitions

* `Settings.Field`: the fields, with their keys and readers.
* `Settings.read`: the settings that a text holds.
* `Settings.write`: the text of settings.
-/

namespace MemoryAtlas

open Text Json

namespace Settings

/-- The fields of a document. -/
inductive Field where
  | textChars
  | leastInData
  | leastInCode
  | dictionary
  | ceilings
  | traceFormat
  deriving DecidableEq, Repr

/-- Why a text holds no settings. -/
inductive Error where
  /-- It is not a document of this kind. -/
  | document (f : Fault)
  /-- A ceiling is given for something that names no opcode class. -/
  | badClass (name : String)
  deriving DecidableEq, Repr

/-- The settings with a dictionary. Words are kept in lower case. -/
def setDictionary (s : Settings) (words : List String) : Settings :=
  { s with dictionary := some (words.map lower) }

namespace Field

/-- The key of a field. -/
def key : Field → String
  | textChars => "TextChars"
  | leastInData => "TextMinLengthData"
  | leastInCode => "TextMinLengthCode"
  | dictionary => "Dictionary"
  | ceilings => "RepeatCeilings"
  | traceFormat => "CodeMapFormat"

/-- Every field, in order. -/
def all : List Field := [textChars, leastInData, leastInCode, dictionary, ceilings, traceFormat]

/-- The field with a given key. -/
def ofKey? (k : String) : Option Field := all.find? (·.key == k)

/-- A number of 64 bits. -/
def length : Reader UInt64 := (Reader.integer 0 0xFFFFFFFFFFFFFFFF).map fun n => n.toNat.toUInt64

/-- Ceilings by the name of their class. The last of equal names counts. -/
def ceilingMap : Reader (SortedMap String Int32) :=
  .object .key
    (fun found name => .ok ((Reader.integer (-0x80000000) 0x7FFFFFFF).map fun n =>
      found.insert name (Int32.ofInt n)))
    ∅

/-- The settings with the field read. -/
def reader (s : Settings) : Field → Reader Settings
  | textChars => Reader.string.map fun x => { s with textChars := x }
  | leastInData => length.map fun x => { s with leastInData := x }
  | leastInCode => length.map fun x => { s with leastInCode := x }
  | dictionary => Reader.string.list.orNull.map fun x => { s with dictionary := x }
  | ceilings => ceilingMap.map fun x => { s with ceilings := x }
  | traceFormat =>
    (Reader.string.refine Trace.Format.ofName?).orNull.map fun x => { s with traceFormat := x }

/-- The written value of a field. -/
def write (s : Settings) : Field → List Char
  | textChars => writeString s.textChars
  | leastInData => writeNat s.leastInData.toNat
  | leastInCode => writeNat s.leastInCode.toNat
  | dictionary => (s.dictionary.map fun words => writeList (words.map writeString)).getD writeNull
  | ceilings =>
    writeObject (s.ceilings.entries.map fun e => writeMember e.1 (writeInteger e.2.toInt))
  | traceFormat => (s.traceFormat.map fun f => writeString f.name).getD writeNull

end Field

/-- The member with a given key, after the fields already given. -/
def member (state : Settings × List Field) (k : String) :
    Except Fault (Reader (Settings × List Field)) :=
  match Field.ofKey? k with
  | none => .ok (.ignored state)
  | some f =>
    if state.2.contains f then .error .malformed
    else .ok ((f.reader state.1).map fun s => (s, f :: state.2))

/-- The settings that an object holds. -/
def fromObject : Reader Settings := (Reader.object .key member (usual, [])).map (·.1)

/-- The next of the fields that are not read yet. -/
def element (state : Settings × List Field) : Reader (Settings × List Field) :=
  match state.2 with
  | [] => .ignored state
  | f :: rest => (f.reader state.1).map fun s => (s, rest)

/-- The settings that a list holds. -/
def fromList : Reader Settings :=
  (Reader.sequence '[' ']' (fun state => !state.2.isEmpty) element (usual, Field.all)).map (·.1)

/-- The settings that a value holds. -/
def reader : Reader Settings where
  read s := if (skipSpace s).head? = some (some '[') then fromList.read s else fromObject.read s
  length_read h := by
    split at h
    · exact fromList.length_read h
    · exact fromObject.length_read h

/-- The settings if every ceiling is for an opcode class. -/
def checked (s : Settings) : Except Error Settings :=
  match s.ceilings.keys.find? fun name => (readClass? name).isNone with
  | some name => .error (.badClass name)
  | none => .ok s

/-- The settings with the words of the dictionary in lower case. -/
def lowered (s : Settings) : Settings :=
  match s.dictionary with
  | none => s
  | some words => s.setDictionary words

/-- The settings that a text holds. -/
def read (text : List Symbol) : Except Error Settings :=
  match reader.document text with
  | .error f => .error (.document f)
  | .ok s => s.checked.map lowered

/-- The text of settings: every field, in order. -/
def write (s : Settings) : List Char :=
  writeObject (Field.all.map fun f => writeMember f.key (f.write s))

end Settings

end MemoryAtlas
