import MemoryAtlas.Json.Lexeme
import MemoryAtlas.Json.Writer
import MemoryAtlas.Proofs.Text.Numeral

/-!
# Written lexemes are read

A string is read from what it is written as, whatever its characters and whatever comes after it. A
number is read where nothing comes after it that could belong to it.

## Main definitions

* `Json.Closed`: what may come after a number.

## Main results

* `Json.stringFrom_writeChar`, `Json.stringFrom_flatMap_writeChar`: one character of a string, and
  all of them.
* `Json.unsigned_writeNat`, `Json.number_writeInteger`: numbers.
* `Json.keyword_append`: key words.
-/

namespace MemoryAtlas.Json

open Text

variable {found rest tail : List Symbol} {c e : Char} {n : Nat}

/-! ### Strings -/

theorem stringFrom_plain (quote : c ≠ '"') (escape : c ≠ '\\') (plain : ¬c.toNat < 0x20) :
    stringFrom found (some c :: tail) = stringFrom (some c :: found) tail := by
  rw [stringFrom]
  · simp [isControl, plain]
  all_goals simp [quote, escape]

theorem stringFrom_escaped (letter : e ≠ 'u') (escape : escaped? (some e) = some c) :
    stringFrom found (some '\\' :: some e :: tail) = stringFrom (some c :: found) tail := by
  rw [stringFrom]
  · rw [escape]
  all_goals simp [letter]

theorem stringFrom_numbered {a b c d : Char}
    (number : hex4? (some a) (some b) (some c) (some d) = some n) (single : n < 0xD800) :
    stringFrom found (some '\\' :: some 'u' :: some a :: some b :: some c :: some d :: tail) =
      stringFrom (some (Char.ofNat n) :: found) tail := by
  have lead : isLead n = false := by
    rw [isLead, decide_eq_false (by omega)]
    rfl
  have trail : isTrail n = false := by
    rw [isTrail, decide_eq_false (by omega)]
    rfl
  rw [stringFrom, number]
  simp only [lead, trail, Bool.false_eq_true, if_false]

/-- A control character is written with four digits. -/
theorem hexDigits_of_control (control : n < 0x20) :
    hexDigits 4 n = ['0', '0', (n / 16).digitChar, (n % 16).digitChar] ∧
      hex4? (some '0') (some '0') (some (n / 16).digitChar) (some (n % 16).digitChar) = some n := by
  have table : ∀ n < 0x20,
      hexDigits 4 n = ['0', '0', (n / 16).digitChar, (n % 16).digitChar] ∧
        hex4? (some '0') (some '0') (some (n / 16).digitChar) (some (n % 16).digitChar) =
          some n := by decide
  exact table n control

/-- A character of a string is read from what it is written as. -/
theorem stringFrom_writeChar (c : Char) (found tail : List Symbol) :
    stringFrom found ((writeChar c).map some ++ tail) = stringFrom (some c :: found) tail := by
  unfold writeChar
  split
  -- The characters with a letter of their own come first.
  all_goals try exact stringFrom_escaped (by decide) rfl
  next quote escape _ _ _ _ _ =>
    split
    · next control =>
      obtain ⟨digits, value⟩ := hexDigits_of_control control
      have text : ('\\' :: 'u' :: hexDigits 4 c.toNat).map some ++ tail =
          some '\\' :: some 'u' :: some '0' :: some '0' :: some (c.toNat / 16).digitChar ::
            some (c.toNat % 16).digitChar :: tail := by
        rw [digits]
        rfl
      rw [text, stringFrom_numbered value (by omega), Char.ofNat_toNat]
    · next plain => exact stringFrom_plain quote escape plain

/-- The characters of a string up to its closing quote. -/
theorem stringFrom_flatMap_writeChar (s : List Char) (found rest : List Symbol) :
    stringFrom found ((s.flatMap writeChar).map some ++ some '"' :: rest) =
      .ok (found.reverse ++ s.map some, rest) := by
  induction s generalizing found with
  | nil => simp [stringFrom]
  | cons c s ih =>
    rw [List.flatMap_cons, List.map_append, List.append_assoc, stringFrom_writeChar, ih,
      List.reverse_cons, List.append_assoc]
    rfl

/-! ### Numbers -/

/-- Nothing that could belong to a number comes first. -/
def Closed (rest : List Symbol) : Prop :=
  ∀ c ∈ rest.head?, isDigit c = false ∧ c ≠ some '.' ∧ c ≠ some 'e' ∧ c ≠ some 'E'

theorem closed_nil : Closed [] := fun _ mem => nomatch mem

theorem closed_cons {c : Symbol} (digit : isDigit c = false) (point : c ≠ some '.')
    (small : c ≠ some 'e') (capital : c ≠ some 'E') : Closed (c :: rest) := by
  intro d mem
  cases mem
  exact ⟨digit, point, small, capital⟩

theorem numberEnd_of_closed (closed : Closed rest) : numberEnd rest = .ok (false, rest) := by
  cases rest with
  | nil => rfl
  | cons c rest =>
    obtain ⟨-, point, small, capital⟩ := closed c rfl
    rw [numberEnd, exponentEnd]
    all_goals simp [point, small, capital]

theorem hexValue?_of_digit? {d : Nat} (digit : digit? 10 c = some d) :
    isDigit (some c) = true ∧ hexValue? (some c) = some d := by
  obtain ⟨lt, range⟩ := digit?_eq_some_iff.1 digit
  have bounds : '0' ≤ c ∧ c ≤ '9' :=
    ⟨UInt32.le_iff_toNat_le.2 (by change 48 ≤ c.toNat; omega),
      UInt32.le_iff_toNat_le.2 (by change c.toNat ≤ 57; omega)⟩
  have zero : '0'.toNat = 48 := rfl
  refine ⟨by simp [isDigit, bounds], ?_⟩
  rw [hexValue?, if_pos bounds, zero]
  exact congrArg some (by omega)

theorem foldl_digits {s : List Char} {a : Nat} (read : readDigits? 10 n s = some a) :
    (s.map some).foldl (fun n d => 10 * n + (hexValue? d).getD 0) n = a := by
  induction s generalizing n with
  | nil => exact Option.some.inj read
  | cons c s ih =>
    obtain ⟨d, digit, read⟩ := Option.bind_eq_some_iff.1 read
    rw [List.map_cons, List.foldl_cons, (hexValue?_of_digit? digit).2]
    exact ih read

theorem exists_digit?_of_mem_writeNat (mem : c ∈ writeNat n) : ∃ d, digit? 10 c = some d :=
  digit?_of_readDigits? (readDigits?_toDigits (by decide) (by decide) n) mem

theorem isDigit_of_mem_writeNat (mem : c ∈ writeNat n) : isDigit (some c) = true := by
  obtain ⟨d, digit⟩ := exists_digit?_of_mem_writeNat mem
  exact (hexValue?_of_digit? digit).1

theorem natOfDigits_writeNat (n : Nat) : natOfDigits ((writeNat n).map some) = n :=
  foldl_digits (readDigits?_toDigits (by decide) (by decide) n)

theorem exists_writeNat_eq_cons (n : Nat) : ∃ c s, writeNat n = c :: s :=
  List.exists_cons_of_ne_nil Nat.toDigits_ne_nil

theorem span_digits {s : List Symbol} (digits : ∀ c ∈ s, isDigit c = true) (closed : Closed rest) :
    (s ++ rest).takeWhile isDigit = s ∧ (s ++ rest).dropWhile isDigit = rest := by
  have stops : rest.takeWhile isDigit = [] ∧ rest.dropWhile isDigit = rest := by
    cases rest with
    | nil => exact ⟨rfl, rfl⟩
    | cons c rest => simp [(closed c rfl).1]
  rw [List.takeWhile_append_of_pos digits, List.dropWhile_append_of_pos digits, stops.1, stops.2,
    List.append_nil]
  exact ⟨rfl, rfl⟩

/-- A number is read where nothing that could belong to it comes after it. -/
theorem unsigned_writeNat (n : Nat) (closed : Closed rest) :
    unsigned ((writeNat n).map some ++ rest) = .ok (n, false, rest) := by
  rcases Nat.eq_zero_or_pos n with rfl | pos
  · -- A zero stands alone: a digit after it would be an error.
    have ends : rest.head?.any isDigit = false := by
      cases rest with
      | nil => rfl
      | cons c rest => exact (closed c rfl).1
    change unsigned (some '0' :: rest) = _
    rw [unsigned, ends, numberEnd_of_closed closed]
    rfl
  · obtain ⟨c, s, eq⟩ := exists_writeNat_eq_cons n
    have digit : ∀ d ∈ c :: s, isDigit (some d) = true := fun d mem =>
      isDigit_of_mem_writeNat (eq ▸ mem)
    have lead : c ≠ '0' := by
      have := head?_toDigits_ne_zero (by decide : 1 < 10) (by decide) pos
      rw [show Nat.toDigits 10 n = c :: s from eq] at this
      simpa using this
    -- All digits are taken, and no more, since the rest is closed.
    have digits : ∀ d ∈ s.map some, isDigit d = true := by
      intro d mem
      obtain ⟨x, found, rfl⟩ := List.mem_map.1 mem
      exact digit x (List.mem_cons_of_mem c found)
    obtain ⟨taken, dropped⟩ := span_digits digits closed
    have value := natOfDigits_writeNat n
    rw [eq] at value
    rw [eq, List.map_cons, List.cons_append, unsigned, if_pos (digit c List.mem_cons_self), taken,
      dropped, numberEnd_of_closed closed]
    · exact congrArg (fun n => Except.ok (n, false, rest)) value
    · simpa using lead

/-- An integer is read where nothing that could belong to it comes after it. -/
theorem number_writeInteger (n : Int) (closed : Closed rest) :
    number ((writeInteger n).map some ++ rest) = .ok (.integer n, rest) := by
  cases n with
  | ofNat n =>
    obtain ⟨c, s, eq⟩ := exists_writeNat_eq_cons n
    have unsignedFirst : c ≠ '-' := by
      rintro rfl
      exact absurd (isDigit_of_mem_writeNat (eq ▸ List.mem_cons_self)) (by decide)
    have read := unsigned_writeNat n closed
    rw [writeInteger, eq, List.map_cons, List.cons_append] at *
    rw [number, read]
    · rfl
    · simpa using unsignedFirst
  | negSucc n =>
    rw [writeInteger, List.map_cons, List.cons_append, number, unsigned_writeNat _ closed]
    simp [Except.map, Int.negSucc_eq]

/-! ### Key words -/

theorem keyword_append (word : List Char) (rest : List Symbol) :
    keyword word (word.map some ++ rest) = .ok rest := by
  induction word with
  | nil => rfl
  | cons c word ih => rw [List.map_cons, List.cons_append, keyword, if_pos rfl, ih]

end MemoryAtlas.Json
