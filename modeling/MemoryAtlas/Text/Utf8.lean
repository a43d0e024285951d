/-!
# Encoded text

A file is bytes that may or may not be well encoded. Its symbols are the characters that are well
encoded in UTF-8, and one mark for each other byte, so that a reader can go on past a fault and
judge it where it stands.
-/

namespace MemoryAtlas.Text

/-- A character, or the mark of a byte that belongs to none. -/
abbrev Symbol := Option Char

/-- The low six bits of a byte that continues a character. -/
def continuation? (b : UInt8) : Option Nat :=
  if 0x80 ≤ b ∧ b ≤ 0xBF then some (b.toNat - 0x80) else none

/-- The character with a given number, unless a shorter encoding has it. -/
def charFrom? (least n : Nat) : Option Char :=
  if h : least ≤ n ∧ n.isValidChar then some (Char.ofNatAux n h.2) else none

/-- The character that two bytes encode. -/
def char2? (a b : UInt8) : Option Char :=
  if 0xC0 ≤ a ∧ a ≤ 0xDF then do
    charFrom? 0x80 ((a.toNat - 0xC0) * 0x40 + (← continuation? b))
  else none

/-- The character that three bytes encode. -/
def char3? (a b c : UInt8) : Option Char :=
  if 0xE0 ≤ a ∧ a ≤ 0xEF then do
    let high := (a.toNat - 0xE0) * 0x40 + (← continuation? b)
    charFrom? 0x800 (high * 0x40 + (← continuation? c))
  else none

/-- The character that four bytes encode. -/
def char4? (a b c d : UInt8) : Option Char :=
  if 0xF0 ≤ a ∧ a ≤ 0xF7 then do
    let high := (a.toNat - 0xF0) * 0x40 + (← continuation? b)
    let middle := high * 0x40 + (← continuation? c)
    charFrom? 0x10000 (middle * 0x40 + (← continuation? d))
  else none

/-- The first symbol of some bytes, and the number of bytes it takes. -/
def firstSymbol (a : UInt8) (rest : List UInt8) : Symbol × Nat :=
  if a < 0x80 then (some (Char.ofNat a.toNat), 1)
  else
    let two := rest.head?.bind (char2? a)
    let three := match rest with
      | b :: c :: _ => char3? a b c
      | _ => none
    let four := match rest with
      | b :: c :: d :: _ => char4? a b c d
      | _ => none
    match two, three, four with
    | some c, _, _ => (some c, 2)
    | _, some c, _ => (some c, 3)
    | _, _, some c => (some c, 4)
    | _, _, _ => (none, 1)

/-- The symbols of some bytes, after those already found, which are kept last first. The count tells
how many bytes of a character are still to be passed. -/
def symbolsFrom (found : List Symbol) : Nat → List UInt8 → List Symbol
  | _, [] => found.reverse
  | skip + 1, _ :: rest => symbolsFrom found skip rest
  | 0, a :: rest =>
    let first := firstSymbol a rest
    symbolsFrom (first.1 :: found) (first.2 - 1) rest

/-- The symbols of some bytes. -/
def symbols (bytes : List UInt8) : List Symbol := symbolsFrom [] 0 bytes

/-- The bytes that a symbol takes. -/
def symbolSize : Symbol → Nat
  | some c => c.utf8Size
  | none => 1

/-- The bytes that some symbols take. -/
def encodedSize (s : List Symbol) : Nat := s.foldl (fun n c => n + symbolSize c) 0

/-- The symbols of a text. -/
def symbolsOf (s : String) : List Symbol := s.toList.map some

/-- The characters of some symbols, if none is amiss. -/
def chars? (s : List Symbol) : Option (List Char) := s.mapM id

theorem chars?_map_some (s : List Char) : chars? (s.map some) = some s := by
  induction s with
  | nil => rfl
  | cons c s ih =>
    rw [chars?] at ih ⊢
    rw [List.map_cons, List.mapM_cons, ih]
    rfl

end MemoryAtlas.Text
