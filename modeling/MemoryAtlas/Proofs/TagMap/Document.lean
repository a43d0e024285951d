import Mathlib.Data.List.Forall2
import MemoryAtlas.Proofs.Json.Reading
import MemoryAtlas.TagMap.Document

/-!
# Map documents lose nothing

A map is read from its text, whether that is compact or spread over lines. The text names the
boundaries in decimal, in their order as numbers.

## Main definitions

* `Text.IsDecimal`: the one way to write a number in decimal without needless zeros.

## Main results

* `TagMap.reads_boundary`, `TagMap.reads_tag`: keys and values.
* `TagMap.reads_members`: the members of a map, with any blanks between them.
* `TagMap.read_write_in_order`: the text of a map holds the map, in the order of the boundaries.
-/

namespace MemoryAtlas

open Text Json Reader

/-! ### Digits between quotes -/

/-- Digits that denote a number, with no zero before them unless they are that zero. -/
def Text.IsDecimal (a : Nat) (s : List Char) : Prop :=
  IsNumeral 10 a s ∧ (s.head? = some '0' → s = ['0'])

theorem Text.isDecimal_writeNat (a : Nat) : IsDecimal a (writeNat a) := by
  refine ⟨isNumeral_toDigits (by decide) (by decide) a, fun zero => ?_⟩
  rcases Nat.eq_zero_or_pos a with rfl | pos
  · rfl
  · exact absurd zero (head?_toDigits_ne_zero (by decide) (by decide) pos)

namespace Json

theorem writeChar_of_plain {c : Char} (quote : c ≠ '"') (escape : c ≠ '\\')
    (plain : ¬c.toNat < 0x20) : writeChar c = [c] := by
  rw [writeChar]
  · exact if_neg plain
  · exact quote
  · exact escape
  -- The other characters that are escaped are control characters.
  all_goals
    rintro rfl
    exact plain (by decide)

/-- Digits are written as they are. -/
theorem writeString_writeNat (n : Nat) :
    writeString (.ofList (writeNat n)) = '"' :: writeNat n ++ ['"'] := by
  have plain : ∀ c ∈ writeNat n, writeChar c = [c] := by
    intro c mem
    obtain ⟨d, digit⟩ := exists_digit?_of_mem_writeNat mem
    obtain ⟨lt, range⟩ := digit?_eq_some_iff.1 digit
    apply writeChar_of_plain
    · rintro rfl
      simp at range
    · rintro rfl
      simp at range
    · omega
  have same : (writeNat n).flatMap writeChar = (writeNat n).flatMap fun c => [c] :=
    List.flatMap_congr plain
  rw [writeString, String.toList_ofList, same, List.flatMap_singleton']

end Json

namespace TagMap

variable {m : TagMap} {gap pad last : List Char}

/-! ### Keys and values -/

theorem reads_boundary {a : Nat} (word : a < wordBound) :
    boundary.Reads (writeString (.ofList (writeNat a))) a := by
  intro rest _
  have closed : Closed (some '"' :: rest) :=
    closed_cons (by decide) (by decide) (by decide) (by decide)
  have quoted : (writeString (.ofList (writeNat a))).map some ++ rest =
      some '"' :: ((writeNat a).map some ++ some '"' :: rest) := by
    rw [writeString_writeNat]
    simp
  rw [quoted]
  simp only [boundary, unsigned_writeNat a closed, if_pos word]

theorem writeString_letter (t : Tag) : writeString t.letter.toString = ['"', t.letter, '"'] := by
  cases t <;> decide

theorem reads_tag (t : Tag) : tag.Reads (writeString t.letter.toString) t := by
  intro rest closed
  have read : letter.Reads (writeString t.letter.toString) t := by
    apply (reads_string _).refine
    cases t <;> rfl
  have other : (skipSpace ((writeString t.letter.toString).map some ++ rest)).head? ≠
      some (some '{') := by
    rw [writeString_letter, List.map_cons, List.cons_append, skipSpace_cons rfl]
    simp
  simp only [tag, if_neg other]
  exact read rest closed

theorem skipsSpace_tag : tag.SkipsSpace := by
  intro s
  have wrapped_skips : wrapped.SkipsSpace := skipsSpace_sequence.refine id
  have letter_skips : letter.SkipsSpace := skipsSpace_string.refine _
  simp only [tag, skipSpace_skipSpace, wrapped_skips s, letter_skips s]

/-! ### Members -/

/-- A boundary with its tag, written with blanks before the tag. -/
def writeSpaced (pad : List Char) (e : Nat × Tag) : List Char :=
  writeString (writeEntry e).1 ++ ':' :: (pad ++ (writeEntry e).2)

/-- The members of a map are read, whatever the blanks between them. -/
theorem reads_members (word : ∀ a ∈ m.keys, a < wordBound)
    (gap_blank : ∀ c ∈ gap, isSpace (some c) = true)
    (pad_blank : ∀ c ∈ pad, isSpace (some c) = true)
    (last_blank : ∀ c ∈ last, isSpace (some c) = true) :
    reader.Reads ('{' :: separated (m.entries.map fun e => gap ++ writeSpaced pad e) ++
      (last ++ ['}'])) m := by
  apply reads_object _ last_blank
  -- Members are inserted in ascending order, so the map that they make is the one they are from.
  have whole : m.entries.foldl (fun found e => SortedMap.insert found e.1 e.2) ∅ = m :=
    SortedMap.ofList_entries m
  nth_rewrite 2 [← whole]
  apply Folds.of_foldl _ _ gap_blank fun _ => rfl
  intro e mem
  refine ⟨(starts_writeString (.inr rfl) _).append _, fun found => ?_⟩
  have key := reads_boundary (word e.1 (List.mem_map_of_mem mem))
  have value := (reads_tag e.2).blank_append skipsSpace_tag pad_blank
  exact key.entry rfl (value.map (SortedMap.insert found e.1 ·))

theorem write_eq (m : TagMap) :
    m.write = '{' :: separated (m.entries.map fun e => [] ++ writeSpaced [] e) ++ ([] ++ ['}']) :=
  rfl

theorem reads_write (word : ∀ a ∈ m.keys, a < wordBound) : reader.Reads m.write m := by
  have blank : ∀ c ∈ ([] : List Char), isSpace (some c) = true := List.forall_mem_nil _
  rw [write_eq]
  exact reads_members word blank blank blank

theorem isSpace_newLine (depth : Nat) : ∀ c ∈ newLine depth, isSpace (some c) = true := by
  intro c mem
  rcases List.mem_cons.1 mem with rfl | mem
  · rfl
  · rw [List.eq_of_mem_replicate mem]
    rfl

theorem layOut_eq (ne : m.entries ≠ []) (depth : Nat) :
    m.layOut depth = '{' :: separated (m.entries.map fun e =>
      newLine (depth + 1) ++ writeSpaced [' '] e) ++ (newLine depth ++ ['}']) := by
  rw [layOut, Json.layOut]
  · simp [writeSpaced, Function.comp_def]
  · simpa using ne

/-- A map is read from its lines. -/
theorem reads_layOut (word : ∀ a ∈ m.keys, a < wordBound) (depth : Nat) :
    reader.Reads (m.layOut depth) m := by
  by_cases empty : m.entries = []
  · -- Without boundaries there are no lines.
    have compact : m.layOut depth = m.write := by
      rw [layOut, write, empty]
      rfl
    rw [compact]
    exact reads_write word
  · have pad_blank : ∀ c ∈ [' '], isSpace (some c) = true := List.forall_mem_singleton.2 rfl
    rw [layOut_eq empty]
    exact reads_members word (isSpace_newLine (depth + 1)) pad_blank (isSpace_newLine depth)

/-! ### The text of a map -/

theorem separated_eq_intercalate (texts : List (List Char)) :
    separated texts = [','].intercalate texts := by
  induction texts with
  | nil => rfl
  | cons text texts ih =>
    cases texts with
    | nil => rw [separated, List.intercalate_singleton]
    | cons next texts =>
      rw [separated, ih, List.intercalate_cons_cons, List.append_assoc]
      · rfl
      · exact List.cons_ne_nil next texts

/-- The text of a map holds the map, compact or in lines at any depth. It lists the boundaries by
their decimal numerals, in ascending order of the numbers. -/
theorem read_write_in_order (m : TagMap) (word : ∀ a ∈ m.keys, a < wordBound) :
    read (m.write.map some) = .ok m ∧
    (∀ depth, read ((m.layOut depth).map some) = .ok m) ∧
    m.keys.Pairwise (· < ·) ∧
    ∃ names, List.Forall₂ IsDecimal m.keys names ∧
      m.write = '{' :: [','].intercalate (List.zipWith (fun name e =>
        '"' :: name ++ ['"', ':', '"', e.2.letter, '"']) names m.entries) ++ ['}'] := by
  refine ⟨(reads_write word).document, fun depth => (reads_layOut word depth).document, ?_,
    m.keys.map writeNat, ?_, ?_⟩
  · exact List.pairwise_map.2 m.ascending
  · exact List.forall₂_map_right_iff.2 (List.forall₂_same.2 fun a _ => isDecimal_writeNat a)
  · have member (e : Nat × Tag) : writeMember (writeEntry e).1 (writeEntry e).2 =
        '"' :: writeNat e.1 ++ ['"', ':', '"', e.2.letter, '"'] := by
      rw [writeMember, writeEntry, writeString_writeNat, writeString_letter, List.append_assoc]
      rfl
    simp only [write, writeObject, separated_eq_intercalate, SortedMap.keys, List.map_map,
      List.zipWith_map_left, List.zipWith_self, member, Function.comp_def]

/-- Boundaries whose numerals are not in the order of the numbers. -/
def unevenMap : TagMap := .ofList [(10, .text), (4294967295, .limit), (9, .code)]

theorem read_write_in_order_unevenMap :
    unevenMap.write = "\x7b\"9\":\"c\",\"10\":\"t\",\"4294967295\":\"i\"\x7d".toList ∧
    read (unevenMap.write.map some) = .ok unevenMap ∧
    read ((unevenMap.layOut 1).map some) = .ok unevenMap := by
  have holds := read_write_in_order unevenMap (by decide +kernel)
  exact ⟨by decide +kernel, holds.1, holds.2.1 1⟩

end TagMap

end MemoryAtlas
