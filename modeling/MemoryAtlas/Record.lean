import MemoryAtlas.Tag
import MemoryAtlas.Text.Hex
import MemoryAtlas.Trace.Format
import MemoryAtlas.Z80.Operation

/-!
# Log records

Classification reports what it does as a list of events. An event is a value; its severity and its
wording are functions of it, so the analyses never build text.

`Logged` pairs a result with the events on the way to it, in order.

## Main definitions

* `Edit`: a change of one boundary of a map.
* `Event`, `Event.level`, `Event.message`.
* `Logged`: a result with its events.
-/

namespace MemoryAtlas

open Text

/-- How much a record matters. -/
inductive Level where
  | warn | info | debug | trace
  deriving DecidableEq, Repr

namespace Level

/-- The name of a level. -/
def name : Level → String
  | warn => "WARN"
  | info => "INFO"
  | debug => "DEBUG"
  | trace => "TRACE"

/-- How far a level is from the most severe one. -/
def rank : Level → Nat
  | warn => 0
  | info => 1
  | debug => 2
  | trace => 3

end Level

/-- A change of one boundary. -/
inductive Edit where
  /-- The boundary is set, new or not. -/
  | assign (a : Nat) (t : Tag)
  /-- The boundary is removed, if it is there. -/
  | clear (a : Nat)
  deriving DecidableEq, Repr

/-- What classification reports. -/
inductive Event where
  /-- A boundary changed. -/
  | edited (e : Edit)
  /-- A streak of instructions is too long for code. -/
  | disguised (count : Nat) (bytes : List UInt8) (pending : Nat)
  /-- An unclassified address is referred to from code. -/
  | referenced (kind : Z80.ReferenceKind) (target source : Nat)
  /-- The linear sweep ended. -/
  | swept (blocks : Nat)
  /-- Blocks of zeros were found. -/
  | zeroFilled (blocks : Nat)
  /-- Text was found. -/
  | textFound (blocks : Nat)
  /-- Executed blocks were entered. -/
  | seeded (blocks : Nat)
  /-- Open code was extended. -/
  | extended (passes : Nat)
  /-- Entry points were promoted. -/
  | promoted (entries : Nat)
  /-- Fall-through blocks were merged. -/
  | merged (blocks : Nat)
  /-- A log was read up to a percentage. -/
  | progress (path : String) (percent : Nat)
  /-- Executed addresses were joined into blocks. -/
  | codeBlocksFound (blocks addresses : Nat)
  /-- Classification starts, with a trace if there is one. -/
  | classifying (range : Span) (trace : Option String)
  /-- Classification ended. -/
  | classified (blocks : Nat)
  /-- A trace is read. -/
  | reading (format : Trace.Format) (path : String)
  /-- There is nothing to classify. -/
  | emptyRange (range : Span)
  deriving DecidableEq, Repr

/-- A range as records and messages show it: `$8000-$9000`. -/
def Span.name (s : Span) : String := showAddress s.start ++ "-" ++ showAddress s.stop

namespace Event

/-- Bytes as records show them: `[DD, 7E, 0A]`. -/
def showBytes (bytes : List UInt8) : String :=
  "[" ++ String.intercalate ", " (bytes.map fun b => hexUpper 2 b.toNat) ++ "]"

/-- The severity of an event. -/
def level : Event → Level
  | edited _ | disguised .. | referenced .. => .trace
  | swept _ | zeroFilled _ | textFound _ | seeded _ | extended _ | promoted _ | merged _
  | progress .. | codeBlocksFound .. => .debug
  | classifying .. | classified _ | reading .. => .info
  | emptyRange _ => .warn

/-- The wording of an event. -/
def message : Event → String
  | edited (.assign a t) => "boundary " ++ showAddress a ++ " <- " ++ t.name
  | edited (.clear a) => "boundary " ++ showAddress a ++ " removed"
  | disguised count bytes pending =>
    toString count ++ " x " ++ showBytes bytes ++ " at " ++ showAddress pending ++ " is data"
  | referenced kind target source =>
    kind.text ++ " " ++ showAddress target ++ " referenced from code at " ++ showAddress source
  | swept n => "Sweep found " ++ toString n ++ " blocks"
  | zeroFilled n => "Found " ++ toString n ++ " zero fill blocks"
  | textFound n => "Found " ++ toString n ++ " text blocks"
  | seeded n => "Seeded " ++ toString n ++ " code blocks from trace"
  | extended n => "Extended code blocks in " ++ toString n ++ " passes"
  | promoted n => "Promoted " ++ toString n ++ " entry points"
  | merged n => "Merged " ++ toString n ++ " fall-through blocks"
  | progress path percent => path ++ ": " ++ toString percent ++ "%"
  | codeBlocksFound n addresses =>
    "Found " ++ toString n ++ " code blocks in " ++ toString addresses ++ " addresses"
  | classifying range none => "Classifying " ++ range.name ++ " heuristically"
  | classifying range (some path) => "Classifying " ++ range.name ++ " using code map " ++ path
  | classified n => "Classified into " ++ toString n ++ " blocks"
  | reading format path => "Reading " ++ format.name ++ " code map " ++ path
  | emptyRange range => "Empty range " ++ range.name ++ ", nothing to classify"

end Event

/-- A result with the events on the way to it. -/
structure Logged (α : Type) where
  /-- The result. -/
  value : α
  /-- The events, first to last. -/
  events : List Event

namespace Logged

variable {α β : Type}

instance : Monad Logged where
  pure x := ⟨x, []⟩
  bind x f :=
    let y := f x.value
    ⟨y.value, x.events ++ y.events⟩

/-- The report of one event. -/
def report (e : Event) : Logged Unit := ⟨(), [e]⟩

@[simp]
theorem value_pure (x : α) : (pure x : Logged α).value = x := rfl

@[simp]
theorem events_pure (x : α) : (pure x : Logged α).events = [] := rfl

@[simp]
theorem value_bind (x : Logged α) (f : α → Logged β) : (x >>= f).value = (f x.value).value := rfl

@[simp]
theorem events_bind (x : Logged α) (f : α → Logged β) :
    (x >>= f).events = x.events ++ (f x.value).events := rfl

theorem bind_congr {x y : Logged α} {f g : α → Logged β} (first : x = y)
    (rest : f y.value = g y.value) : x >>= f = y >>= g := by
  rw [first]
  exact congrArg (fun z : Logged β => Logged.mk z.value (y.events ++ z.events)) rest

@[simp]
theorem value_map (f : α → β) (x : Logged α) : (f <$> x).value = f x.value := rfl

@[simp]
theorem events_report (e : Event) : (report e).events = [e] := rfl

end Logged

end MemoryAtlas
