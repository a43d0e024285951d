import MemoryAtlas.Text.Hex

/-!
# Written JSON

Values are written as characters. A string is written raw but for quotes, backslashes and control
characters. Lists and objects are compact, without blanks; `layOut` spreads an object over lines.

## Main definitions

* `writeString`, `writeInteger`, `writeNull`.
* `writeList`, `writeObject`, `layOut`: from written items and members.
-/

namespace MemoryAtlas.Json

open Text

/-- A character as it stands in a string. -/
def writeChar (c : Char) : List Char :=
  match c with
  | '"' => ['\\', '"']
  | '\\' => ['\\', '\\']
  | '\x08' => ['\\', 'b']
  | '\t' => ['\\', 't']
  | '\n' => ['\\', 'n']
  | '\x0c' => ['\\', 'f']
  | '\r' => ['\\', 'r']
  | c => if c.toNat < 0x20 then '\\' :: 'u' :: hexDigits 4 c.toNat else [c]

/-- A string between quotes. -/
def writeString (s : String) : List Char := '"' :: s.toList.flatMap writeChar ++ ['"']

/-- A number without sign. -/
def writeNat (n : Nat) : List Char := Nat.toDigits 10 n

/-- An integer. -/
def writeInteger : Int → List Char
  | .ofNat n => writeNat n
  | .negSucc n => '-' :: writeNat (n + 1)

/-- The key word for no value. -/
def writeNull : List Char := ['n', 'u', 'l', 'l']

/-- Items with commas between them. -/
def separated : List (List Char) → List Char
  | [] => []
  | [item] => item
  | item :: items => item ++ ',' :: separated items

/-- A list of written items. -/
def writeList (items : List (List Char)) : List Char := '[' :: separated items ++ [']']

/-- A member of an object, from its key and its written value. -/
def writeMember (key : String) (value : List Char) : List Char := writeString key ++ ':' :: value

/-- An object of written members. -/
def writeObject (members : List (List Char)) : List Char := '{' :: separated members ++ ['}']

/-- A new line at some depth. -/
def newLine (depth : Nat) : List Char := '\n' :: List.replicate (2 * depth) ' '

/-- An object at some depth with a line for each member. -/
def layOut (depth : Nat) (members : List (String × List Char)) : List Char :=
  let line (m : String × List Char) := newLine (depth + 1) ++ writeString m.1 ++ ':' :: ' ' :: m.2
  match members with
  | [] => ['{', '}']
  | members => '{' :: separated (members.map line) ++ newLine depth ++ ['}']

end MemoryAtlas.Json
