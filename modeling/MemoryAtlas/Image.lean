/-!
# Memory images

An image is a 64K memory. It is stored as one binary placed at an origin, with every other byte
zero, so a small program stays small.

## Main definitions

* `Image.read` is the view every analysis uses: the byte at an address, zero outside the memory.
* `Image.slice` is the list of bytes of a range, cut off at the top of the memory.
* `Image.ofRaw?` places a binary, if it fits.
-/

namespace MemoryAtlas

/-- The number of addresses, and the exclusive upper bound of every range. -/
def addressSpace : Nat := 65536

/-- A half-open range of addresses. -/
structure Span where
  /-- The first address. -/
  start : Nat
  /-- The first address after the range. -/
  stop : Nat
  deriving DecidableEq, Repr, Inhabited

/-- A 64K memory that holds `data` at `origin` and zeros elsewhere. -/
structure Image where
  /-- The address of the first byte of `data`. -/
  origin : Nat
  /-- The bytes that are not known to be zero. -/
  data : Array UInt8
  /-- The binary ends inside the memory. -/
  fits : origin + data.size ≤ addressSpace

namespace Image

/-- The memory of zeros. -/
def blank : Image := ⟨0, #[], by decide⟩

instance : Inhabited Image := ⟨blank⟩

/-- The memory with `data` at `origin`, if it fits. -/
def ofRaw? (data : Array UInt8) (origin : Nat) : Option Image :=
  if h : origin + data.size ≤ addressSpace then some ⟨origin, data, h⟩ else none

/-- The byte at an address; zero outside the memory. -/
def read (m : Image) (a : Nat) : UInt8 :=
  if m.origin ≤ a then m.data.getD (a - m.origin) 0 else 0

/-- The two bytes at an address as a number, the low byte first. -/
def word (m : Image) (a : Nat) : Nat := (m.read a).toNat + 256 * (m.read (a + 1)).toNat

/-- The bytes from `start` up to `stop` or the top of the memory, whichever comes first. -/
def slice (m : Image) (start stop : Nat) : List UInt8 :=
  (List.range' start (min stop addressSpace - start)).map m.read

/-- Every byte from `start` up to `stop`, as far as the memory reaches, is zero. -/
def isZeroFill (m : Image) (start stop : Nat) : Bool := (m.slice start stop).all (· == 0)

theorem length_slice (m : Image) (start stop : Nat) :
    (m.slice start stop).length = min stop addressSpace - start := by
  simp [slice]

/-- The memory is zero above its top. -/
theorem read_eq_zero_of_le (m : Image) {a : Nat} (h : addressSpace ≤ a) : m.read a = 0 := by
  have fits := m.fits
  unfold read
  split
  · rw [Array.getD_eq_getD_getElem?, Array.getElem?_eq_none (by omega)]
    rfl
  · rfl

end Image

end MemoryAtlas
