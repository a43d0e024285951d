import MemoryAtlas.Text.Blank

/-!
# Numerals

A numeral is an optional plus sign and one or more digits of its base. The digits are those of
ASCII, in either case.

## Main definitions

* `readNumeral?`, `readBelow?`: the number that a numeral denotes, and the same below a bound.
* `afterHexMark?`: the digits after a mark of hexadecimal.
-/

namespace MemoryAtlas.Text

/-- The value of a digit in a base up to 16. -/
def digit? (base : Nat) (c : Char) : Option Nat :=
  let value :=
    if '0' ≤ c ∧ c ≤ '9' then c.toNat - '0'.toNat
    else if 'a' ≤ c ∧ c ≤ 'f' then c.toNat - 'a'.toNat + 10
    else if 'A' ≤ c ∧ c ≤ 'F' then c.toNat - 'A'.toNat + 10
    else base
  if value < base then some value else none

/-- The number that digits denote after those that denote `n`. -/
def readDigits? (base : Nat) : Nat → List Char → Option Nat
  | n, [] => some n
  | n, c :: rest => (digit? base c).bind fun d => readDigits? base (base * n + d) rest

/-- The number that one or more digits denote. -/
def readDigitString? (base : Nat) : List Char → Option Nat
  | [] => none
  | s => readDigits? base 0 s

/-- The number that a numeral denotes. -/
def readNumeral? (base : Nat) : List Char → Option Nat
  | '+' :: rest => readDigitString? base rest
  | s => readDigitString? base s

/-- The number that a numeral denotes, if it is below `bound`. -/
def readBelow? (bound base : Nat) (s : List Char) : Option Nat :=
  (readNumeral? base s).filter (· < bound)

/-- The digits after a mark of hexadecimal, `0x` or `$`. -/
def afterHexMark? (s : List Char) : Option (List Char) :=
  (after? ['0', 'x'] s).orElse fun _ => after? ['$'] s

/-- Numbers of 32 bits are below this. -/
def wordBound : Nat := 0x100000000

end MemoryAtlas.Text
