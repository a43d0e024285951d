import MemoryAtlas.Classify
import MemoryAtlas.Command.Load
import MemoryAtlas.Command.Range
import MemoryAtlas.TagMap.Document

/-!
# The command

The command classifies every image with the same options and prints the maps by the names of the
images. What the files hold is given as a function of their paths. Of several errors the first
counts: the command line, the addresses, the settings, the trace format, then the images in order.

## Main definitions

* `Options`, `Options.resolve`: what the command line means.
* `classifyImage`: the map of one image.
* `run`: the text that the command prints.
-/

namespace MemoryAtlas.Command

/-- Options that hold for every image. -/
structure Options where
  /-- Where binaries are placed. -/
  origin : Option Nat
  /-- The first address to classify. -/
  start : Option Nat
  /-- The first address that is not classified. -/
  stop : Option Nat
  /-- The settings. -/
  settings : Settings
  /-- The trace. -/
  trace : Option Trace

variable (files : String → FileContent)

/-- The bytes of a file. -/
def readFile (path : String) : Except Error (Array UInt8) := (files path).mapError .file

/-- The settings in a file, or the usual ones. -/
def readSettings : Option String → Except Error Settings
  | none => .ok .usual
  | some path => do
    let data ← readFile files path
    (Settings.read (Text.symbols data.toList)).mapError .settings

/-- The settings with a trace format, if one is named. -/
def chooseFormat (s : Settings) : Option String → Except Error Settings
  | none => .ok s
  | some name =>
    match Trace.Format.ofName? name with
    | none => .error (.traceFormat name)
    | some f => .ok { s with traceFormat := some f }

/-- The options that a command line gives. -/
def Options.resolve (args : Arguments) : Except Error Options := do
  let address (o : Switch) := readAddressOption o.name (args.value? o)
  let origin ← address .org
  let start ← address .start
  let stop ← address .stop
  let settings ← readSettings files (args.value? .config)
  let settings ← chooseFormat settings (args.value? .mapFormat)
  return {
    origin, start, stop, settings
    trace := (args.value? .map).map fun path => ⟨path, files path⟩ }

/-- The map of one image. -/
def classifyImage (o : Options) (path : String) : Except Error TagMap := do
  let loaded ← load path (← readFile files path) o.origin
  let range ← resolveRange loaded.extent o.start o.stop
  let result := classify o.settings o.settings.repeatCeilings loaded.image range o.trace
  result.run.value.mapError .trace

/-- The text of maps by name: a line for each boundary, names in order. -/
def layOutMaps (maps : SortedMap String TagMap) : List Char :=
  Json.layOut 0 (maps.entries.map fun e => (e.1, e.2.layOut 1)) ++ ['\n']

/-- The text that the command prints. -/
def run (args : Arguments) : Except Error (List Char) := do
  let o ← Options.resolve files args
  let maps ← args.images.mapM fun path => return (path, ← classifyImage files o path)
  return layOutMaps (.ofList maps)

/-- The text that a command line prints. -/
def execute (args : List String) : Except Error (List Char) := do
  run files (← (Arguments.parse args).mapError .usage)

/-- The files that a command line names. -/
def Arguments.paths (args : Arguments) : List String :=
  (args.value? .config).toList ++ (args.value? .map).toList ++ args.images

end MemoryAtlas.Command
