import MemoryAtlas.Command.Error

/-!
# Addresses and ranges

Addresses are decimal, or hexadecimal after `0x` or `$`, and go up to the top of the memory.
-/

namespace MemoryAtlas.Command

open Text

/-- The address that a text denotes, between blanks. -/
def readAddress? (text : String) : Option Nat :=
  let text := trim text.toList
  match afterHexMark? text with
  | some digits => readBelow? (addressSpace + 1) 16 digits
  | none => readBelow? (addressSpace + 1) 10 text

/-- The address that the value of an option denotes, if there is one. -/
def readAddressOption (name : String) : Option String → Except Error (Option Nat)
  | none => .ok none
  | some text =>
    match readAddress? text with
    | none => .error (.address name text)
    | some a => .ok (some a)

/-- The range to classify: the given bounds, and those of the image where none are given. -/
def resolveRange (extent : Span) (start stop : Option Nat) : Except Error Span :=
  let range : Span := ⟨start.getD extent.start, stop.getD extent.stop⟩
  if range.start < range.stop ∧ range.stop ≤ addressSpace then .ok range
  else .error (.range range)

end MemoryAtlas.Command
