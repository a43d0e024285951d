import MemoryAtlas.Text.LowerCase.Basic

/-!
# Lower case is kept

The lower case of a text has no character with a lower case of its own, so it is its own lower case.
Of single characters this is a matter of the table: each range, moved by its distance, meets no
range of the table.

## Main definitions

* `Text.IsLower`: the characters that have no lower case.
* `Text.CaseRange.moved`, `Text.CaseRange.misses`: where a range goes, and ranges that do not meet.

## Main results

* `Text.isLower_of_mem_lowerFrom`: what lower case consists of.
* `Text.lower_lower`: lower case is its own lower case.
-/

namespace MemoryAtlas.Text

/-- The one capital with two letters in lower case, as a range. -/
def dottedRange : CaseRange := ⟨0x130, 0x130, 1, 0⟩

/-- A character without a lower case. -/
def IsLower (c : Char) : Prop := ∀ r ∈ dottedRange :: caseRanges, r.contains c.toNat = false

instance (c : Char) : Decidable (IsLower c) := inferInstanceAs (Decidable (∀ r ∈ _, _))

namespace CaseRange

variable {r q : CaseRange} {n : Nat}

theorem contains_iff : r.contains n = true ↔
    r.first ≤ n ∧ n ≤ r.last ∧ (n - r.first) % r.step = 0 := by
  simp [contains, and_assoc]

/-- The characters that a range goes to. -/
def moved (r : CaseRange) : CaseRange where
  first := (r.first + r.distance).toNat
  last := (r.last + r.distance).toNat
  step := r.step
  distance := 0

/-- Whether a range goes to characters. -/
def isSound (r : CaseRange) : Bool :=
  0 ≤ r.first + r.distance &&
    (r.last + r.distance < 0xD800 || 0xE000 ≤ r.first + r.distance && r.last + r.distance < 0x110000)

/-- Whether a range has no character of another one: it lies below it, above it, or between its
characters. -/
def misses (r q : CaseRange) : Bool :=
  r.last.blt q.first || q.last.blt r.first ||
    q.step == 2 && (r.step == 2 || r.first == r.last) && (r.first + q.first) % 2 == 1

theorem isSound_iff : r.isSound = true ↔ 0 ≤ r.first + r.distance ∧
    (r.last + r.distance < 0xD800 ∨
      0xE000 ≤ r.first + r.distance ∧ r.last + r.distance < 0x110000) := by
  simp [isSound]

/-- What a range goes to, character by character. -/
theorem contains_moved (sound : r.isSound = true) (mem : r.contains n = true) :
    ∃ k, (n + r.distance).toNat = k ∧ k.isValidChar ∧ r.moved.contains k = true := by
  obtain ⟨low, high, place⟩ := contains_iff.1 mem
  obtain ⟨start, valid⟩ := isSound_iff.1 sound
  refine ⟨_, rfl, ?_, contains_iff.2 ⟨?_, ?_, ?_⟩⟩
  · unfold Nat.isValidChar
    omega
  · exact Int.toNat_le_toNat (by omega)
  · exact Int.toNat_le_toNat (by omega)
  · have gap : (n + r.distance).toNat - (r.first + r.distance).toNat = n - r.first := by omega
    rw [moved, gap, place]

theorem contains_eq_false_of_misses (clear : r.misses q = true) (mem : r.contains n = true) :
    q.contains n = false := by
  apply Bool.eq_false_iff.2
  intro meets
  obtain ⟨low, high, place⟩ := contains_iff.1 mem
  obtain ⟨low', high', place'⟩ := contains_iff.1 meets
  simp only [misses, Bool.and_eq_true, Bool.or_eq_true, Nat.blt_eq, beq_iff_eq] at clear
  rcases clear with (below | above) | ⟨⟨even, even' | single⟩, odd⟩
  · omega
  · omega
  -- Between the characters of a range of every second one, those of the other parity are free.
  · rw [even] at place'
    rw [even'] at place
    omega
  · rw [even] at place'
    omega

end CaseRange

/-- Every range of the table goes to characters that no range holds. -/
theorem caseRanges_clear : caseRanges.all (fun r =>
    r.isSound && (dottedRange :: caseRanges).all r.moved.misses) = true := by
  decide +kernel

theorem isLower_iff {c : Char} :
    IsLower c ↔ c.toNat ≠ 0x130 ∧ caseRanges.find? (·.contains c.toNat) = none := by
  have dotted : dottedRange.contains c.toNat = false ↔ c.toNat ≠ 0x130 := by
    rw [← Bool.not_eq_true, CaseRange.contains_iff]
    simp only [dottedRange]
    omega
  rw [IsLower, List.forall_mem_cons, dotted, List.find?_eq_none]
  simp only [Bool.not_eq_true]

theorem isLower_of_mem_lowerChar {c x : Char} (mem : x ∈ lowerChar c) : IsLower x := by
  rw [lowerChar] at mem
  split at mem
  -- The dotted capital, a character of the table, and any other character.
  · rcases List.mem_cons.1 mem with rfl | dot
    · decide +kernel
    · rw [List.mem_singleton.1 dot]
      decide +kernel
  · next other =>
    split at mem
    · next r found =>
      have clear := List.all_eq_true.1 caseRanges_clear r (List.mem_of_find?_eq_some found)
      obtain ⟨sound, misses⟩ := Bool.and_eq_true_iff.1 clear
      have mine : r.contains c.toNat = true := by simpa using List.find?_some found
      obtain ⟨k, moved, valid, holds⟩ := CaseRange.contains_moved sound mine
      have letter : x.toNat = k := by
        rw [List.mem_singleton.1 mem, moved, Char.ofNat, dif_pos valid]
        rfl
      intro q which
      rw [letter]
      exact CaseRange.contains_eq_false_of_misses (List.all_eq_true.1 misses q which) holds
    · next missing =>
      rw [List.mem_singleton.1 mem]
      exact isLower_iff.2 ⟨other, missing⟩

theorem isLower_lowerSigma (before rest : List Char) : IsLower (lowerSigma before rest) := by
  rw [lowerSigma]
  split <;> decide +kernel

/-- No character of a lower-case text has a lower case. -/
theorem isLower_of_mem_lowerFrom {before s : List Char} {x : Char} (mem : x ∈ lowerFrom before s) :
    IsLower x := by
  induction s generalizing before with
  | nil => exact absurd mem List.not_mem_nil
  | cons c rest ih =>
    rw [lowerFrom] at mem
    rcases List.mem_append.1 mem with here | later
    · split at here
      · rw [List.mem_singleton.1 here]
        exact isLower_lowerSigma before rest
      · exact isLower_of_mem_lowerChar here
    · exact ih later

theorem IsLower.lowerChar {c : Char} (h : IsLower c) : lowerChar c = [c] := by
  obtain ⟨other, missing⟩ := isLower_iff.1 h
  rw [Text.lowerChar, if_neg other, missing]

theorem IsLower.ne_sigma {c : Char} (h : IsLower c) : c ≠ 'Σ' := by
  rintro rfl
  exact absurd h (by decide +kernel)

/-- A text of such characters is its own lower case, whatever stands before it. -/
theorem lowerFrom_eq_self {s : List Char} (h : ∀ c ∈ s, IsLower c) (before : List Char) :
    lowerFrom before s = s := by
  induction s generalizing before with
  | nil => rfl
  | cons c rest ih =>
    obtain ⟨first, later⟩ := List.forall_mem_cons.1 h
    rw [lowerFrom, if_neg first.ne_sigma, first.lowerChar, ih later]
    rfl

theorem lower_lower (s : String) : lower (lower s) = lower s := by
  have kept : lowerFrom [] (lower s).toList = (lower s).toList := by
    apply lowerFrom_eq_self
    intro c mem
    rw [lower, String.toList_ofList] at mem
    exact isLower_of_mem_lowerFrom mem
  rw [lower, kept, String.ofList_toList]

end MemoryAtlas.Text
