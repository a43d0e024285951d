/-!
# Blanks

White space is the Unicode property of that name: 25 characters, among them the no-break space and
the ideographic space, but not the zero-width space.

## Main definitions

* `isBlank`: the property.
* `trim`: a text without blanks at its ends.
* `firstWord?`: the first word between blanks.
-/

namespace MemoryAtlas.Text

/-- The ranges of white space. -/
def blankRanges : List (Nat × Nat) :=
  [(0x9, 0xD), (0x20, 0x20), (0x85, 0x85), (0xA0, 0xA0), (0x1680, 0x1680), (0x2000, 0x200A),
    (0x2028, 0x2029), (0x202F, 0x202F), (0x205F, 0x205F), (0x3000, 0x3000)]

/-- Whether a number lies in one of the ranges, ends included. -/
def inRanges (ranges : List (Nat × Nat)) (n : Nat) : Bool :=
  ranges.any fun r => r.1 ≤ n && n ≤ r.2

/-- Whether a character is white space. -/
def isBlank (c : Char) : Bool := inRanges blankRanges c.toNat

/-- The text without blanks at its start. -/
def trimStart (s : List Char) : List Char := s.dropWhile isBlank

/-- The text without blanks at its end. -/
def trimEnd (s : List Char) : List Char := (s.reverse.dropWhile isBlank).reverse

/-- The text without blanks at its ends. -/
def trim (s : List Char) : List Char := trimEnd (trimStart s)

/-- The text after a given start, if it starts so. -/
def after? (start s : List Char) : Option (List Char) :=
  if start.isPrefixOf s then some (s.drop start.length) else none

/-- The first word between blanks, if there is one. -/
def firstWord? (s : List Char) : Option (List Char) :=
  match (trimStart s).takeWhile (!isBlank ·) with
  | [] => none
  | word => some word

end MemoryAtlas.Text
