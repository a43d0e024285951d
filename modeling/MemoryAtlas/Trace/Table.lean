import MemoryAtlas.Image

/-!
# Trace tables

A bitmap has one bit for each address, the lowest first; an occupancy table has one byte for each
address, of which the lowest bit tells whether the address ran.
-/

namespace MemoryAtlas.Trace

/-- The size of a bitmap. -/
def bitmapSize : Nat := 8192

/-- The size of an occupancy table. -/
def occupancySize : Nat := 65536

/-- Whether a bitmap has the bit of an address. -/
def inBitmap (data : Array UInt8) (a : Nat) : Bool := (data.getD (a / 8) 0).toNat.testBit (a % 8)

/-- Whether an occupancy table has the bit of an address. -/
def inOccupancy (data : Array UInt8) (a : Nat) : Bool := (data.getD a 0).toNat.testBit 0

/-- The addresses of a range that lie below a bound and satisfy a condition, ascending. -/
def addressesWhere (p : Nat → Bool) (bound : Nat) (range : Span) : List Nat :=
  (List.range' range.start (min range.stop bound - range.start)).filter p

/-- The addresses of a range that a bitmap has, ascending. -/
def readBitmap (data : Array UInt8) (range : Span) : List Nat :=
  addressesWhere (inBitmap data) (8 * data.size) range

/-- The addresses of a range that an occupancy table has, ascending. -/
def readOccupancy (data : Array UInt8) (range : Span) : List Nat :=
  addressesWhere (inOccupancy data) data.size range

end MemoryAtlas.Trace
