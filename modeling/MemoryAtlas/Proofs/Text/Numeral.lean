import Mathlib.Data.List.DropRight
import MemoryAtlas.Text.Numeral

/-!
# Reading what is written

The digits of a number denote that number, whatever their case and with any zeros before them. No
digit is a blank, so blanks around a numeral do not matter.

## Main definitions

* `Text.IsNumeral`: the ways to write a number.

## Main results

* `Text.trim_append_blank`, `Text.trimEnd_append_cons`, `Text.trim_trim`: what trimming takes away.
* `Text.IsNumeral.readBelow?_eq`: a written number is read.
* `Text.readDigitString?_eq_some_iff`, `Text.readBelow?_eq_some_iff`: nothing else is.
-/

namespace MemoryAtlas.Text

variable {s r : List Char} {c : Char} {base bound d n a : Nat}

/-! ### Blanks -/

theorem trimEnd_append_blank (blank : isBlank c = true) : trimEnd (s ++ [c]) = trimEnd s := by
  rw [trimEnd, List.reverse_append, List.reverse_singleton, List.singleton_append,
    List.dropWhile_cons_of_pos blank, trimEnd]

/-- A blank at the end of a text is trimmed. -/
theorem trim_append_blank (blank : isBlank c = true) : trim (s ++ [c]) = trim s := by
  rw [trim, trim, trimStart, trimStart, List.dropWhile_append]
  split
  · next empty =>
    rw [List.isEmpty_iff] at empty
    rw [empty, List.dropWhile_cons_of_pos blank, List.dropWhile_nil]
  · exact trimEnd_append_blank blank

/-- A text of blanks is trimmed to nothing. -/
theorem trim_of_blank (blank : ∀ c ∈ s, isBlank c = true) : trim s = [] := by
  induction s with
  | nil => rfl
  | cons c s ih =>
    rw [trim, trimStart, List.dropWhile_cons_of_pos (blank c List.mem_cons_self)]
    exact ih fun c mem => blank c (List.mem_cons_of_mem _ mem)

/-- Up to a character that is no blank nothing is trimmed. -/
theorem trimEnd_append_cons (solid : isBlank c = false) :
    trimEnd (s ++ c :: r) = s ++ c :: trimEnd r := by
  rw [trimEnd, List.reverse_append, List.reverse_cons, List.append_assoc, List.dropWhile_append]
  have kept : List.dropWhile isBlank ([c] ++ s.reverse) = [c] ++ s.reverse := by
    rw [List.singleton_append, List.dropWhile_cons_of_neg (by simp [solid])]
  split
  · -- All that comes after the character is blank.
    next empty =>
    rw [List.isEmpty_iff] at empty
    rw [kept, trimEnd, empty]
    simp
  · rw [trimEnd]
    simp

theorem trimStart_cons (solid : isBlank c = false) : trimStart (c :: s) = c :: s :=
  List.dropWhile_cons_of_neg (by simp [solid])

/-- Trimming leaves nothing to trim. -/
theorem trim_trim (s : List Char) : trim (trim s) = trim s := by
  have ends : ∀ r, trimEnd (trimEnd r) = trimEnd r := by
    intro r
    rw [trimEnd, trimEnd, List.reverse_reverse, List.dropWhile_idempotent]
  have starts : trimStart (trim s) = trim s := by
    rw [trim]
    cases start : trimStart s with
    | nil => rfl
    | cons c r =>
      have solid : isBlank c = false := by
        have := List.head?_dropWhile_not isBlank s
        rw [trimStart] at start
        rw [start] at this
        simpa using this
      rw [show trimEnd (c :: r) = c :: trimEnd r from trimEnd_append_cons (s := []) solid]
      exact trimStart_cons solid
  rw [trim, starts, trim, ends]

theorem trimEnd_prefix (s : List Char) : trimEnd s <+: s := by
  have ending := List.dropWhile_suffix isBlank (l := s.reverse)
  rw [trimEnd, ← List.reverse_suffix, List.reverse_reverse]
  exact ending

/-- A text of characters that are no blanks is not trimmed. -/
theorem trim_of_solid (solid : ∀ c ∈ s, isBlank c = false) : trim s = s := by
  cases s with
  | nil => rfl
  | cons c r =>
    rw [trim, trimStart_cons (solid c List.mem_cons_self)]
    obtain ⟨init, last, eq⟩ : ∃ init last, c :: r = init ++ [last] :=
      ⟨_, _, (List.dropLast_concat_getLast (List.cons_ne_nil c r)).symm⟩
    rw [eq, trimEnd_append_cons (solid last (by rw [eq]; simp))]
    rfl

/-! ### Digits -/

/-- The digits by the numbers of their characters. -/
theorem digit?_eq_some_iff :
    digit? base c = some d ↔ d < base ∧
      (48 ≤ c.toNat ∧ c.toNat ≤ 57 ∧ c.toNat = d + 48 ∨
        97 ≤ c.toNat ∧ c.toNat ≤ 102 ∧ c.toNat = d + 87 ∨
          65 ≤ c.toNat ∧ c.toNat ≤ 70 ∧ c.toNat = d + 55) := by
  have le_iff : ∀ x y : Char, x ≤ y ↔ x.toNat ≤ y.toNat := fun x y => UInt32.le_iff_toNat_le
  simp only [digit?, le_iff]
  have zero : '0'.toNat = 48 := rfl
  have nine : '9'.toNat = 57 := rfl
  have lowerA : 'a'.toNat = 97 := rfl
  have lowerF : 'f'.toNat = 102 := rfl
  have upperA : 'A'.toNat = 65 := rfl
  have upperF : 'F'.toNat = 70 := rfl
  rw [zero, nine, lowerA, lowerF, upperA, upperF]
  grind

theorem toNat_toLower (c : Char) :
    c.toLower.toNat = if 65 ≤ c.toNat ∧ c.toNat ≤ 90 then c.toNat + 32 else c.toNat := by
  have upper : c.val ≥ 'A'.val ∧ c.val ≤ 'Z'.val ↔ 65 ≤ c.toNat ∧ c.toNat ≤ 90 :=
    and_congr UInt32.le_iff_toNat_le UInt32.le_iff_toNat_le
  delta Char.toLower
  split
  · next range =>
    rw [if_pos (upper.1 range)]
    have := upper.1 range
    have shift : ('a'.val - 'A'.val).toNat = 32 := by decide
    have : c.val.toNat ≤ 90 := this.2
    change (c.val + ('a'.val - 'A'.val)).toNat = c.val.toNat + 32
    rw [UInt32.toNat_add, shift]
    omega
  · next range => rw [if_neg fun h => range (upper.2 h)]

theorem toNat_toUpper (c : Char) :
    c.toUpper.toNat = if 97 ≤ c.toNat ∧ c.toNat ≤ 122 then c.toNat - 32 else c.toNat := by
  have lower : c.val ≥ 'a'.val ∧ c.val ≤ 'z'.val ↔ 97 ≤ c.toNat ∧ c.toNat ≤ 122 :=
    and_congr UInt32.le_iff_toNat_le UInt32.le_iff_toNat_le
  delta Char.toUpper
  split
  · next range =>
    rw [if_pos (lower.1 range)]
    have := lower.1 range
    have shift : ('A'.val - 'a'.val).toNat = 2 ^ 32 - 32 := by decide
    have low : 97 ≤ c.val.toNat := this.1
    have high : c.val.toNat ≤ 122 := this.2
    change (c.val + ('A'.val - 'a'.val)).toNat = c.val.toNat - 32
    rw [UInt32.toNat_add, shift]
    omega
  · next range => rw [if_neg fun h => range (lower.2 h)]

theorem toLower_toUpper (c : Char) : c.toUpper.toLower = c.toLower := by
  apply Char.toNat_inj.1
  rw [toNat_toLower, toNat_toLower, toNat_toUpper]
  split
  · rw [if_pos (by omega), if_neg (by omega)]
    omega
  · rfl

/-- The case of a digit does not matter. -/
theorem digit?_toLower (base : Nat) (c : Char) : digit? base c.toLower = digit? base c := by
  ext d
  rw [digit?_eq_some_iff, digit?_eq_some_iff, toNat_toLower]
  split
  · omega
  · rfl

theorem toNat_digitChar (lt : d < 16) :
    (Nat.digitChar d).toNat = if d < 10 then 48 + d else 87 + d := by
  have table : ∀ d < 16, (Nat.digitChar d).toNat = if d < 10 then 48 + d else 87 + d := by decide
  exact table d lt

theorem digit?_digitChar (lt : d < base) (le : base ≤ 16) :
    digit? base (Nat.digitChar d) = some d := by
  rw [digit?_eq_some_iff, toNat_digitChar (by omega)]
  split <;> omega

/-- In lower case, a digit is the character of its value. -/
theorem toLower_eq_digitChar (digit : digit? base c = some d) (le : base ≤ 16) :
    c.toLower = Nat.digitChar d := by
  obtain ⟨lt, range⟩ := digit?_eq_some_iff.1 digit
  apply Char.toNat_inj.1
  rw [toNat_toLower, toNat_digitChar (by omega)]
  split <;> split <;> omega

/-- A digit is neither a blank nor any other character that a line sets apart. -/
theorem solid_of_digit? (digit : digit? base c = some d) :
    isBlank c = false ∧ c ≠ ',' ∧ c ≠ ':' ∧ c ≠ '+' := by
  obtain ⟨-, range⟩ := digit?_eq_some_iff.1 digit
  refine ⟨?_, ?_, ?_, ?_⟩
  · simp only [isBlank, inRanges, blankRanges, List.any_cons, List.any_nil, Bool.or_false,
      Bool.or_eq_false_iff, Bool.and_eq_false_iff, decide_eq_false_iff_not]
    omega
  all_goals
    rintro rfl
    simp at range

/-! ### Numerals -/

theorem readDigits?_append :
    readDigits? base n (s ++ r) = (readDigits? base n s).bind fun v => readDigits? base v r := by
  induction s generalizing n with
  | nil => rfl
  | cons c s ih =>
    rw [List.cons_append, readDigits?, readDigits?]
    cases digit? base c with
    | none => rfl
    | some d => exact ih

theorem readDigits?_map_toLower :
    readDigits? base n (s.map Char.toLower) = readDigits? base n s := by
  induction s generalizing n with
  | nil => rfl
  | cons c s ih =>
    rw [List.map_cons, readDigits?, readDigits?, digit?_toLower]
    exact congrArg _ (funext fun _ => ih)

theorem readDigits?_zeros (pos : 0 < base) (k : Nat) :
    readDigits? base 0 (List.replicate k '0' ++ s) = readDigits? base 0 s := by
  have zero : digit? base '0' = some 0 := digit?_eq_some_iff.2 ⟨pos, .inl (by decide)⟩
  induction k with
  | zero => rfl
  | succ k ih =>
    rw [List.replicate_succ, List.cons_append, readDigits?, zero]
    exact ih

/-- The digits of a number denote it. -/
theorem readDigits?_toDigits (two : 1 < base) (le : base ≤ 16) (a : Nat) :
    readDigits? base 0 (Nat.toDigits base a) = some a := by
  -- The digits of a number are those of its quotient by the base, and its remainder.
  induction a using Nat.strongRecOn with
  | ind a ih =>
    rw [Nat.toDigits_eq_if two]
    split
    · next lt => simp [readDigits?, digit?_digitChar lt le]
    · next ge =>
      have quotient := ih (a / base) (Nat.div_lt_self (by omega) two)
      have digit := digit?_digitChar (Nat.mod_lt a (by omega : 0 < base)) le
      rw [readDigits?_append, quotient]
      simp [readDigits?, digit, Nat.div_add_mod]

/-- The digits of a number have no zeros before them. -/
theorem head?_toDigits_ne_zero (two : 1 < base) (le : base ≤ 16) (pos : 0 < a) :
    (Nat.toDigits base a).head? ≠ some '0' := by
  induction a using Nat.strongRecOn with
  | ind a ih =>
    rw [Nat.toDigits_eq_if two]
    split
    · next lt =>
      intro zero
      have code := congrArg Char.toNat (Option.some.inj zero)
      rw [toNat_digitChar (by omega)] at code
      have : '0'.toNat = 48 := rfl
      split at code <;> omega
    · next ge =>
      have quotient : 0 < a / base := Nat.div_pos (by omega) (by omega)
      rw [List.head?_append_of_ne_nil _ Nat.toDigits_ne_nil]
      exact ih (a / base) (Nat.div_lt_self pos two) quotient

theorem digit?_of_readDigits? (read : readDigits? base n s = some a) (mem : c ∈ s) :
    ∃ d, digit? base c = some d := by
  induction s generalizing n with
  | nil => cases mem
  | cons e s ih =>
    obtain ⟨d, digit, read⟩ := Option.bind_eq_some_iff.1 read
    rcases List.mem_cons.1 mem with rfl | mem
    · exact ⟨d, digit⟩
    · exact ih read mem

/-- The digits of `a`, in either case and with any zeros before them. -/
def IsNumeral (base a : Nat) (s : List Char) : Prop :=
  ∃ k, s.map Char.toLower = List.replicate k '0' ++ Nat.toDigits base a

namespace IsNumeral

theorem readDigits?_eq (h : IsNumeral base a s) (two : 1 < base) (le : base ≤ 16) :
    readDigits? base 0 s = some a := by
  obtain ⟨k, eq⟩ := h
  rw [← readDigits?_map_toLower, eq, readDigits?_zeros (by omega), readDigits?_toDigits two le]

theorem ne_nil (h : IsNumeral base a s) : s ≠ [] := by
  rintro rfl
  obtain ⟨k, eq⟩ := h
  exact Nat.toDigits_ne_nil (List.append_eq_nil_iff.1 eq.symm).2

/-- A written number is read, if it is below the bound. -/
theorem readBelow?_eq (h : IsNumeral base a s) (two : 1 < base) (le : base ≤ 16) (lt : a < bound) :
    readBelow? bound base s = some a := by
  have read := h.readDigits?_eq two le
  obtain ⟨c, r, rfl⟩ := List.exists_cons_of_ne_nil h.ne_nil
  obtain ⟨d, digit⟩ := digit?_of_readDigits? read List.mem_cons_self
  -- A digit is no sign, so all of the text is digits.
  have unsigned : readNumeral? base (c :: r) = readDigitString? base (c :: r) := by
    rw [readNumeral?]
    intro rest eq
    exact (solid_of_digit? digit).2.2.2 (List.cons.inj eq).1
  rw [readBelow?, unsigned, readDigitString?, read]
  · simp [lt]
  · exact List.cons_ne_nil c r

theorem solid (h : IsNumeral base a s) (two : 1 < base) (le : base ≤ 16) (mem : c ∈ s) :
    isBlank c = false ∧ c ≠ ',' ∧ c ≠ ':' := by
  obtain ⟨d, digit⟩ := digit?_of_readDigits? (h.readDigits?_eq two le) mem
  obtain ⟨solid, comma, colon, -⟩ := solid_of_digit? digit
  exact ⟨solid, comma, colon⟩

theorem singleton (digit : digit? base c = some d) (le : base ≤ 16) : IsNumeral base d [c] := by
  have lt := (digit?_eq_some_iff.1 digit).1
  refine ⟨0, ?_⟩
  rw [Nat.toDigits_of_lt_base lt, List.map_singleton, toLower_eq_digitChar digit le]
  rfl

/-- One more digit at the end of a written number. -/
theorem append_digit (h : IsNumeral base n s) (digit : digit? base c = some d) (two : 1 < base)
    (le : base ≤ 16) : IsNumeral base (base * n + d) (s ++ [c]) := by
  obtain ⟨k, eq⟩ := h
  have lt := (digit?_eq_some_iff.1 digit).1
  have last : [c.toLower] = Nat.toDigits base d := by
    rw [toLower_eq_digitChar digit le, Nat.toDigits_of_lt_base lt]
  rw [IsNumeral, List.map_append, eq, List.map_singleton, last]
  rcases Nat.eq_zero_or_pos n with rfl | pos
  · -- All the digits so far are zeros, and count among those before the number.
    refine ⟨k + 1, ?_⟩
    rw [Nat.toDigits_of_lt_base (by omega : 0 < base), Nat.mul_zero, Nat.zero_add,
      List.replicate_succ']
    rfl
  · exact ⟨k, by rw [List.append_assoc, Nat.toDigits_append_toDigits two pos lt]⟩

theorem map_toUpper (h : IsNumeral base a s) : IsNumeral base a (s.map Char.toUpper) := by
  obtain ⟨k, eq⟩ := h
  refine ⟨k, ?_⟩
  rw [List.map_map, ← eq]
  exact List.map_congr_left fun c _ => toLower_toUpper c

theorem zeros_append (h : IsNumeral base a s) (k : Nat) :
    IsNumeral base a (List.replicate k '0' ++ s) := by
  obtain ⟨j, eq⟩ := h
  refine ⟨k + j, ?_⟩
  rw [List.map_append, List.map_replicate, eq, List.replicate_add, List.append_assoc]
  rfl

end IsNumeral

/-- Digits denote a number exactly if they are a way to write it. -/
theorem readDigitString?_eq_some_iff (two : 1 < base) (le : base ≤ 16) :
    readDigitString? base s = some a ↔ IsNumeral base a s := by
  constructor
  · intro read
    -- The induction goes from the left, as the digits are read.
    induction s using List.reverseRecOn generalizing a with
    | nil => cases read
    | append_singleton s c ih =>
      rw [readDigitString?, readDigits?_append] at read
      · obtain ⟨n, start, last⟩ := Option.bind_eq_some_iff.1 read
        obtain ⟨d, digit, value⟩ := Option.bind_eq_some_iff.1 last
        cases value
        cases s with
        | nil =>
          cases start
          simpa using IsNumeral.singleton digit le
        | cons e s => exact (ih start).append_digit digit two le
      · exact List.append_ne_nil_of_right_ne_nil s (List.cons_ne_nil c [])
  · intro numeral
    obtain ⟨c, r, rfl⟩ := List.exists_cons_of_ne_nil numeral.ne_nil
    exact numeral.readDigits?_eq two le

theorem isNumeral_toDigits (two : 1 < base) (le : base ≤ 16) (a : Nat) :
    IsNumeral base a (Nat.toDigits base a) := by
  rw [← readDigitString?_eq_some_iff two le]
  obtain ⟨c, r, eq⟩ := List.exists_cons_of_ne_nil (Nat.toDigits_ne_nil : Nat.toDigits base a ≠ [])
  rw [eq, readDigitString?, ← eq, readDigits?_toDigits two le]
  exact List.cons_ne_nil c r

/-- What is read as a number below a bound: a sign or none, and a way to write the number. -/
theorem readBelow?_eq_some_iff (two : 1 < base) (le : base ≤ 16) :
    readBelow? bound base s = some a ↔
      ∃ digits, (s = digits ∨ s = '+' :: digits) ∧ IsNumeral base a digits ∧ a < bound := by
  constructor
  · intro read
    obtain ⟨value, lt⟩ := Option.filter_eq_some_iff.1 read
    have lt : a < bound := by simpa using lt
    unfold readNumeral? at value
    split at value
    · next rest => exact ⟨rest, .inr rfl, (readDigitString?_eq_some_iff two le).1 value, lt⟩
    · exact ⟨s, .inl rfl, (readDigitString?_eq_some_iff two le).1 value, lt⟩
  · rintro ⟨digits, rfl | rfl, numeral, lt⟩
    · exact numeral.readBelow?_eq two le lt
    · rw [readBelow?, readNumeral?, (readDigitString?_eq_some_iff two le).2 numeral]
      simp [lt]

end MemoryAtlas.Text
