/-!
# Command line arguments

A command line names images and gives options. An option is `--name value` or `--name=value` and
may be given once; a value that starts with a hyphen can only be given the second way. A hyphen
alone is no option, and after `--` there are no options.

## Main definitions

* `Switch`: the options.
* `Arguments`: what a command line says.
* `Arguments.parse`: reading a command line from left to right.
-/

namespace MemoryAtlas.Command

/-- The options. -/
inductive Switch where
  | org
  | start
  | stop
  | map
  | mapFormat
  | config
  deriving DecidableEq, Repr

namespace Switch

/-- The name of an option. -/
def name : Switch → String
  | org => "org"
  | start => "start"
  | stop => "end"
  | map => "map"
  | mapFormat => "map-format"
  | config => "config"

/-- Every option. -/
def all : List Switch := [org, start, stop, map, mapFormat, config]

/-- The option with a given name. -/
def ofName? (s : String) : Option Switch := all.find? (·.name == s)

end Switch

/-- Why a command line is not run. -/
inductive UsageError where
  /-- There is no image. -/
  | missingImage
  /-- An option has no value. -/
  | missingValue
  /-- There is no such option. -/
  | unknown
  /-- An option is given twice. -/
  | repeated
  /-- Help is asked for. -/
  | help
  /-- The version is asked for. -/
  | version
  deriving DecidableEq, Repr

/-- The wording of a usage error. -/
def UsageError.message : UsageError → String
  | missingImage => "no image is given"
  | missingValue => "an option has no value"
  | unknown => "there is no such option"
  | repeated => "an option is given twice"
  | help =>
    "memory-atlas [--org A] [--start A] [--end A] [--map FILE] [--map-format NAME] " ++
      "[--config FILE] IMAGE..."
  | version => "memory-atlas 0.1.0"

/-- What a command line says. -/
structure Arguments where
  /-- The paths of the images, in order. -/
  images : List String
  /-- The values of options. -/
  value? : Switch → Option String

/-- What is known after some arguments. -/
structure ArgumentState where
  /-- The images, last first. -/
  images : List String
  /-- The options, last first. -/
  given : List Switch
  /-- The values of options, last first. -/
  values : List (Switch × String)
  /-- The option that the next argument may be the value of. -/
  awaiting : Option Switch
  /-- No options follow. -/
  imagesOnly : Bool
  deriving Repr

namespace ArgumentState

/-- What is known at the start. -/
def initial : ArgumentState := ⟨[], [], [], none, false⟩

/-- The state after an image. -/
def addImage (s : ArgumentState) (path : String) : ArgumentState :=
  { s with images := path :: s.images }

/-- The state after the value of an option. -/
def addValue (s : ArgumentState) (o : Switch) (value : String) : ArgumentState :=
  { s with values := (o, value) :: s.values, awaiting := none }

/-- The state after an option, with its value if an equals sign stands there. -/
def addSwitch (s : ArgumentState) (o : Switch) (value : Option String) : ArgumentState :=
  let s := { s with given := o :: s.given, awaiting := some o }
  match value with
  | none => s
  | some value => s.addValue o value

/-- The state after an argument that starts with two hyphens, from what follows them. More hyphens
and more equals signs than needed are left out. -/
def afterHyphens (s : ArgumentState) (text : List Char) : Except UsageError ArgumentState :=
  let text := text.dropWhile (· = '-')
  let name := String.ofList (text.takeWhile (· ≠ '='))
  let value := match text.dropWhile (· ≠ '=') with
    | [] => none
    | rest => some (String.ofList (rest.dropWhile (· = '=')))
  match Switch.ofName? name with
  | some o => .ok (s.addSwitch o value)
  | none =>
    if name = "help" then .error .help
    else if name = "version" then .error .version
    else .error .unknown

/-- The error of an argument that starts with one hyphen, from the letter after it. -/
def letterError (c : Char) : UsageError :=
  if c = 'h' then .help else if c = 'V' then .version else .unknown

/-- The state after an argument. -/
def step (s : ArgumentState) (arg : String) : Except UsageError ArgumentState :=
  if s.imagesOnly then .ok (s.addImage arg)
  else
    match arg.toList with
    | ['-', '-'] => .ok { s with imagesOnly := true }
    | '-' :: '-' :: text => s.afterHyphens text
    | '-' :: c :: _ => .error (letterError c)
    | _ =>
      match s.awaiting with
      | some o => .ok (s.addValue o arg)
      | none => .ok (s.addImage arg)

/-- What the whole command line says. -/
def finish (s : ArgumentState) : Except UsageError Arguments :=
  if s.images.isEmpty then .error .missingImage
  else if s.given.any fun o => (s.values.lookup o).isNone then .error .missingValue
  else if ¬s.given.Nodup then .error .repeated
  else .ok ⟨s.images.reverse, fun o => s.values.lookup o⟩

end ArgumentState

/-- What a command line says. -/
def Arguments.parse (args : List String) : Except UsageError Arguments := do
  (← args.foldlM ArgumentState.step .initial).finish

end MemoryAtlas.Command
