/-!
# Trace formats

An execution trace lists the addresses that ran. It comes as one of two binary tables or as one of
four kinds of text log.
-/

namespace MemoryAtlas.Trace

/-- The formats of execution traces. -/
inductive Format where
  /-- One bit for each address. -/
  | bitmap
  /-- One byte for each address. -/
  | occupancy
  /-- Lines such as `0x8000,123`. -/
  | fuse
  /-- Lines such as `PC = 8000 ...`. -/
  | spud
  /-- Lines such as `PC:32768 ...`, in decimal. -/
  | zero
  /-- Lines such as `$8000 ...`. -/
  | address
  deriving DecidableEq, Repr, Inhabited

namespace Format

/-- The name of a format. -/
def name : Format → String
  | bitmap => "bitmap"
  | occupancy => "occupancy"
  | fuse => "fuse"
  | spud => "spud"
  | zero => "zero"
  | address => "address"

/-- The names that each format is known by. -/
def aliases : List (String × Format) :=
  [("bitmap", bitmap), ("map", bitmap), ("occupancy", occupancy), ("specemu", occupancy),
    ("fuse", fuse), ("profile", fuse), ("spud", spud), ("spudace", spud), ("zero", zero),
    ("address", address), ("trace", address)]

/-- The format with a given name. The case of the letters `A` to `Z` does not matter. -/
def ofName? (s : String) : Option Format :=
  aliases.lookup (String.ofList (s.toList.map Char.toLower))

/-- A table, not a text log. -/
def isBinary : Format → Bool
  | bitmap | occupancy => true
  | fuse | spud | zero | address => false

/-- The base of the addresses in a log. -/
def base : Format → Nat
  | zero => 10
  | _ => 16

end Format

end MemoryAtlas.Trace
