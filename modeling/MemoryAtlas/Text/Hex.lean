/-!
# Hexadecimal text

Addresses and bytes are shown in hexadecimal with a least number of digits: lower case in
instruction text, upper case in log records and error messages.
-/

namespace MemoryAtlas.Text

/-- The hexadecimal digits of `n` in lower case, filled up to `width` digits with zeros. -/
def hexDigits (width n : Nat) : List Char :=
  let digits := Nat.toDigits 16 n
  List.replicate (width - digits.length) '0' ++ digits

/-- `n` in lower-case hexadecimal with at least `width` digits. -/
def hexLower (width n : Nat) : String := .ofList (hexDigits width n)

/-- `n` in upper-case hexadecimal with at least `width` digits. -/
def hexUpper (width n : Nat) : String := .ofList ((hexDigits width n).map Char.toUpper)

/-- An address as records and messages show it: `$8000`, `$10000`. -/
def showAddress (a : Nat) : String := "$" ++ hexUpper 4 a

end MemoryAtlas.Text
