import MemoryAtlas.Text.Utf8

/-!
# Lexemes of JSON

Strings, numbers and key words, read from the symbols of a text. A fault is either that the text
ends too early or that what stands there is wrong, and of two faults the first counts.

A value that is not wanted is passed over by rules of its own: it may hold halves of surrogate pairs
and undecodable bytes, and a number that breaks off is wrong, not cut short.

## Main definitions

* `stringFrom`, `passString`: the rest of a string after its opening quote.
* `number`, `passNumber`: a number.
* `keyword`: a key word.
-/

namespace MemoryAtlas.Json

open Text

/-- Why a text cannot be read. -/
inductive Fault where
  /-- The text ends too early. -/
  | truncated
  /-- The text is wrong. -/
  | malformed
  deriving DecidableEq, Repr

/-- The blanks between lexemes. -/
def isSpace : Symbol → Bool
  | some c => c == ' ' || c == '\n' || c == '\t' || c == '\r'
  | none => false

/-- The symbols from the first that is not a blank. -/
def skipSpace (s : List Symbol) : List Symbol := s.dropWhile isSpace

theorem length_skipSpace_le (s : List Symbol) : (skipSpace s).length ≤ s.length :=
  (List.dropWhile_sublist _).length_le

/-! ### Strings -/

/-- The value of a hexadecimal digit. -/
def hexValue? : Symbol → Option Nat
  | none => none
  | some c =>
    if '0' ≤ c ∧ c ≤ '9' then some (c.toNat - '0'.toNat)
    else if 'a' ≤ c ∧ c ≤ 'f' then some (c.toNat - 'a'.toNat + 10)
    else if 'A' ≤ c ∧ c ≤ 'F' then some (c.toNat - 'A'.toNat + 10)
    else none

/-- The number of four hexadecimal digits. -/
def hex4? (a b c d : Symbol) : Option Nat := do
  return (((← hexValue? a) * 16 + (← hexValue? b)) * 16 + (← hexValue? c)) * 16 + (← hexValue? d)

/-- The fault of an escape that fewer than four symbols are left for: it is cut short only if fewer
than four bytes are. -/
def shortEscape (s : List Symbol) : Fault :=
  if encodedSize s < 4 then .truncated else .malformed

/-- The first half of a surrogate pair. -/
def isLead (n : Nat) : Bool := 0xD800 ≤ n && n ≤ 0xDBFF

/-- The second half of a surrogate pair. -/
def isTrail (n : Nat) : Bool := 0xDC00 ≤ n && n ≤ 0xDFFF

/-- The character of a surrogate pair. -/
def joinSurrogates (lead trail : Nat) : Char :=
  Char.ofNat (0x10000 + (lead - 0xD800) * 0x400 + (trail - 0xDC00))

/-- The fault of a first half that no second half follows. -/
def loneLead : List Symbol → Fault
  | [] => .truncated
  | some '\\' :: [] => .truncated
  | some '\\' :: some 'u' :: rest => shortEscape rest
  | _ => .malformed

/-- The character of an escape of one letter. -/
def escaped? : Symbol → Option Char
  | some '"' => some '"'
  | some '\\' => some '\\'
  | some '/' => some '/'
  | some 'b' => some '\x08'
  | some 'f' => some '\x0c'
  | some 'n' => some '\n'
  | some 'r' => some '\r'
  | some 't' => some '\t'
  | _ => none

/-- Characters that must not stand in a string. -/
def isControl : Symbol → Bool
  | some c => c.toNat < 0x20
  | none => false

/-- The symbols of a string up to its closing quote and what follows it, after the symbols already
found, which are kept last first. -/
def stringFrom (found : List Symbol) : List Symbol → Except Fault (List Symbol × List Symbol)
  | [] => .error .truncated
  | some '"' :: rest => .ok (found.reverse, rest)
  | some '\\' :: [] => .error .truncated
  | some '\\' :: some 'u' :: a :: b :: c :: d :: rest =>
    match hex4? a b c d with
    | none => .error .malformed
    | some n =>
      if isTrail n then .error .malformed
      else if isLead n then
        match rest with
        | some '\\' :: some 'u' :: e :: f :: g :: h :: rest =>
          match hex4? e f g h with
          | none => .error .malformed
          | some m =>
            if isTrail m then stringFrom (some (joinSurrogates n m) :: found) rest
            else .error .malformed
        | other => .error (loneLead other)
      else stringFrom (some (Char.ofNat n) :: found) rest
  | some '\\' :: some 'u' :: rest => .error (shortEscape rest)
  | some '\\' :: e :: rest =>
    match escaped? e with
    | some c => stringFrom (some c :: found) rest
    | none => .error .malformed
  | c :: rest => if isControl c then .error .malformed else stringFrom (c :: found) rest

theorem length_stringFrom {found s v rest : List Symbol} (h : stringFrom found s = .ok (v, rest)) :
    rest.length < s.length := by
  fun_induction stringFrom found s <;> simp_all <;> omega

/-- What follows a string that is not wanted. -/
def passString : List Symbol → Except Fault (List Symbol)
  | [] => .error .truncated
  | some '"' :: rest => .ok rest
  | some '\\' :: [] => .error .truncated
  | some '\\' :: some 'u' :: a :: b :: c :: d :: rest =>
    if (hex4? a b c d).isSome then passString rest else .error .malformed
  | some '\\' :: some 'u' :: rest => .error (shortEscape rest)
  | some '\\' :: e :: rest => if (escaped? e).isSome then passString rest else .error .malformed
  | c :: rest => if isControl c then .error .malformed else passString rest

theorem length_passString {s rest : List Symbol} (h : passString s = .ok rest) :
    rest.length < s.length := by
  fun_induction passString s <;> simp_all <;> omega

/-! ### Numbers -/

/-- A decimal digit. -/
def isDigit : Symbol → Bool
  | some c => '0' ≤ c && c ≤ '9'
  | none => false

/-- The number that decimal digits denote. -/
def natOfDigits (digits : List Symbol) : Nat :=
  digits.foldl (fun n d => 10 * n + (hexValue? d).getD 0) 0

/-- A number: an integer, or one with a fraction or exponent, which is never wanted. Minus zero
counts as a fraction. -/
inductive Number where
  | integer (n : Int)
  | fraction
  deriving DecidableEq, Repr

/-- What follows an exponent, after its letter. -/
def exponent (s : List Symbol) : Except Fault (List Symbol) :=
  let s := match s with
    | some '+' :: rest | some '-' :: rest => rest
    | _ => s
  match s with
  | [] => .error .truncated
  | d :: rest => if isDigit d then .ok (rest.dropWhile isDigit) else .error .malformed

/-- Whether a number has a fraction or exponent, and what follows it, where an exponent may stand. -/
def exponentEnd (fraction : Bool) : List Symbol → Except Fault (Bool × List Symbol)
  | some 'e' :: rest | some 'E' :: rest => (exponent rest).map (true, ·)
  | rest => .ok (fraction, rest)

/-- Whether a number has a fraction or exponent, and what follows it, after its whole part. -/
def numberEnd : List Symbol → Except Fault (Bool × List Symbol)
  | some '.' :: [] => .error .truncated
  | some '.' :: d :: rest =>
    if isDigit d then exponentEnd true (rest.dropWhile isDigit) else .error .malformed
  | rest => exponentEnd false rest

/-- A number after its sign. -/
def unsigned (s : List Symbol) : Except Fault (Nat × Bool × List Symbol) :=
  match s with
  | [] => .error .truncated
  | some '0' :: rest =>
    if rest.head?.any isDigit then .error .malformed else (numberEnd rest).map (0, ·)
  | d :: rest =>
    if isDigit d then
      (numberEnd (rest.dropWhile isDigit)).map (natOfDigits (d :: rest.takeWhile isDigit), ·)
    else .error .malformed

/-- A number and what follows it. -/
def number : List Symbol → Except Fault (Number × List Symbol)
  | some '-' :: rest => (unsigned rest).map fun (n, fraction, rest) =>
    (if fraction || n == 0 then .fraction else .integer (-n), rest)
  | s => (unsigned s).map fun (n, fraction, rest) =>
    (if fraction then .fraction else .integer n, rest)

theorem length_dropWhile_le {α : Type} (p : α → Bool) (l : List α) :
    (l.dropWhile p).length ≤ l.length :=
  (List.dropWhile_sublist _).length_le

theorem length_exponent {s rest : List Symbol} (h : exponent s = .ok rest) :
    rest.length < s.length := by
  have drop := length_dropWhile_le (α := Symbol) isDigit
  unfold exponent at h
  grind

theorem map_eq_ok {ε α β : Type} {f : α → β} {x : Except ε α} {y : β} (h : x.map f = .ok y) :
    ∃ a, x = .ok a ∧ f a = y := by
  cases x with
  | error e => simp [Except.map] at h
  | ok a => exact ⟨a, rfl, by simpa [Except.map] using h⟩

theorem length_exponentEnd {s rest : List Symbol} {before fraction : Bool}
    (h : exponentEnd before s = .ok (fraction, rest)) : rest.length ≤ s.length := by
  have exp := @length_exponent
  unfold exponentEnd at h
  split at h
  · obtain ⟨a, ok, eq⟩ := map_eq_ok h
    grind
  · obtain ⟨a, ok, eq⟩ := map_eq_ok h
    grind
  · grind

theorem length_numberEnd {s rest : List Symbol} {fraction : Bool}
    (h : numberEnd s = .ok (fraction, rest)) : rest.length ≤ s.length := by
  have drop := length_dropWhile_le (α := Symbol) isDigit
  have tail := @length_exponentEnd
  unfold numberEnd at h
  grind

theorem length_unsigned {s rest : List Symbol} {n : Nat} {fraction : Bool}
    (h : unsigned s = .ok (n, fraction, rest)) : rest.length < s.length := by
  have drop := length_dropWhile_le (α := Symbol) isDigit
  have tail := @length_numberEnd
  unfold unsigned at h
  split at h
  · simp at h
  · split at h
    · simp at h
    · obtain ⟨a, ok, eq⟩ := map_eq_ok h
      grind
  · split at h
    · obtain ⟨a, ok, eq⟩ := map_eq_ok h
      grind
    · simp at h

theorem length_number {s rest : List Symbol} {n : Number} (h : number s = .ok (n, rest)) :
    rest.length < s.length := by
  have main := @length_unsigned
  unfold number at h
  split at h <;> obtain ⟨a, ok, eq⟩ := map_eq_ok h <;> grind

/-- What follows a number that is not wanted. -/
def passNumber (s : List Symbol) : Except Fault (List Symbol) :=
  match number s with
  | .ok (_, rest) => .ok rest
  | .error _ => .error .malformed

/-! ### Key words -/

/-- What follows a key word. -/
def keyword : List Char → List Symbol → Except Fault (List Symbol)
  | [], s => .ok s
  | _ :: _, [] => .error .truncated
  | c :: word, d :: rest => if d = some c then keyword word rest else .error .malformed

theorem length_keyword {word : List Char} {s rest : List Symbol}
    (h : keyword word s = .ok rest) : rest.length + word.length = s.length := by
  fun_induction keyword word s <;> simp_all
  omega

end MemoryAtlas.Json
