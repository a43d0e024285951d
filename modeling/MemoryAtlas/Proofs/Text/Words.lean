import MemoryAtlas.Proofs.TextScan
import MemoryAtlas.Text.LowerCase.Basic

/-!
# The text that a scan finds

A scan lists the longest runs of text characters, and keeps those that are long enough and hold a
word of the dictionary. Text is ASCII, so the lower case of a run, in which words are looked for,
can be told character by character: no letter has two in lower case, and none depends on its
neighbours.

## Main results

* `Text.lowerFrom_map_charOf`: the lower case of ASCII text.
* `occursIn_iff`: what it means to hold a word.
* `isText_iff`: which runs of text characters are text.
* `findText_exact`: the text of a range.
-/

namespace MemoryAtlas

/-! ### Lower case -/

/-- The character with a given code. -/
def charOf (b : UInt8) : Char := Char.ofNat b.toNat

/-- The bytes of a range as a text. -/
def Image.textOf (m : Image) (start stop : Nat) : String :=
  .ofList ((m.slice start stop).map charOf)

namespace Text

/-- An ASCII character is no capital sigma, and has one character in lower case. -/
theorem lowerChar_charOf {b : UInt8} (ascii : b < 128) :
    charOf b ≠ 'Σ' ∧ lowerChar (charOf b) = [(charOf b).toLower] := by
  have table : ∀ n < 128, Char.ofNat n ≠ 'Σ' ∧
      lowerChar (Char.ofNat n) = [(Char.ofNat n).toLower] := by decide +kernel
  exact table b.toNat ascii

/-- The lower case of ASCII text, whatever comes before it. -/
theorem lowerFrom_map_charOf {bytes : List UInt8} (ascii : ∀ b ∈ bytes, b < 128)
    (before : List Char) : lowerFrom before (bytes.map charOf) = lowerCase bytes := by
  induction bytes generalizing before with
  | nil => rfl
  | cons b rest ih =>
    obtain ⟨plain, single⟩ := lowerChar_charOf (ascii b List.mem_cons_self)
    rw [List.map_cons, lowerFrom, if_neg plain, single,
      ih fun c mem => ascii c (List.mem_cons_of_mem _ mem)]
    rfl

end Text

variable {s : Settings} {m : Image} {context : TextContext} {a b : Nat}

theorem toList_lower_textOf (text : ∀ x, a ≤ x → x < b → s.isTextByte (m.read x) = true) :
    (Text.lower (m.textOf a b)).toList = lowerCase (m.slice a b) := by
  rw [Text.lower, Image.textOf, String.toList_ofList, String.toList_ofList,
    Text.lowerFrom_map_charOf]
  intro c mem
  obtain ⟨x, bounds, rfl⟩ := List.mem_map.1 mem
  rw [List.mem_range'_1] at bounds
  have found := text x bounds.1 (by omega)
  rw [Settings.isTextByte, Bool.and_eq_true, decide_eq_true_eq] at found
  exact found.1

/-! ### Words -/

theorem occursIn_iff {word text : List Char} : occursIn word text = true ↔ word <:+: text := by
  induction text with
  | nil => rw [occursIn, List.isEmpty_iff, List.infix_nil]
  | cons c rest ih =>
    rw [occursIn, Bool.or_eq_true, List.isPrefixOf_iff_prefix, ih, List.infix_cons_iff]

/-- A run of text characters is text if it is long enough, and a word of the dictionary, if there is
one, occurs in its lower case. -/
theorem isText_iff (text : ∀ x, a ≤ x → x < b → s.isTextByte (m.read x) = true) :
    isText s m context ⟨a, b⟩ = true ↔ s.leastLength context ≤ b - a ∧
      ∀ words ∈ s.dictionary, ∃ word ∈ words,
        word.toList <:+: (Text.lower (m.textOf a b)).toList := by
  rw [isText, Bool.and_eq_true, decide_eq_true_eq]
  refine and_congr_right fun _ => ?_
  cases s.dictionary with
  | none => simp
  | some words =>
    simp only [List.any_eq_true, occursIn_iff, toList_lower_textOf text, Option.mem_def,
      Option.some.injEq, forall_eq']

/-! ### The text of a range -/

/-- The text of a range is what it ought to be: the runs of text characters that cannot be made
longer within the range, have at least the length for the context and, if there is a dictionary,
hold one of its words in lower case. They are listed in ascending order, with a byte or more between
one and the next. A scan in one pass, which takes one address at a time and keeps where the open run
started, finds them all. -/
theorem findText_exact (s : Settings) (m : Image) (context : TextContext) (start stop : Nat) :
    scan (fun a => s.isTextByte (m.read a)) (isText s m context) stop [] none start =
      findText s m context start stop ∧
    (∀ a b, ⟨a, b⟩ ∈ findText s m context start stop ↔
      start ≤ a ∧ a < b ∧ b ≤ stop ∧
      (∀ x, a ≤ x → x < b → s.isTextByte (m.read x) = true) ∧
      (a = start ∨ s.isTextByte (m.read (a - 1)) = false) ∧
      (b = stop ∨ s.isTextByte (m.read b) = false) ∧
      s.leastLength context ≤ b - a ∧
      ∀ words ∈ s.dictionary, ∃ word ∈ words,
        word.toList <:+: (Text.lower (m.textOf a b)).toList) ∧
    (findText s m context start stop).Pairwise fun r r' =>
      r.start < r'.start ∧ r.stop < r'.start := by
  refine ⟨scan_eq_filter .., fun a b => ?_, ?_⟩
  · rw [mem_findText_iff]
    constructor
    · rintro ⟨run, text⟩
      exact ⟨run.lower, run.nonempty, run.upper, run.holds, run.first, run.last,
        (isText_iff run.holds).1 text⟩
    · rintro ⟨lower, nonempty, upper, holds, first, last, text⟩
      exact ⟨⟨lower, nonempty, upper, holds, first, last⟩, (isText_iff holds).2 text⟩
  · refine pairwise_findText.imp_of_mem fun {r r'} mem _ apart => ?_
    have bounds := bounds_of_mem_findText mem
    exact ⟨by omega, apart⟩

end MemoryAtlas
