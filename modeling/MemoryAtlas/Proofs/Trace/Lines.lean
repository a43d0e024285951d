import MemoryAtlas.Proofs.Trace.Log

/-!
# What a line of a log says

A line is read exactly if the text of its address, between blanks, is a written number that is an
address. The format that a line can be read in is the one that it is detected as, so no line can be
read in two ways.

## Main results

* `Trace.Format.detect?_of_readLine?`: a line is read in the format that it is detected as.
* `Trace.Format.readLine?_exact`: which lines are read, as what and in which format.
-/

namespace MemoryAtlas.Trace.Format

open Text

variable {f : Format} {line : List Char} {a : Nat}

theorem base_bounds (f : Format) : 1 < f.base ∧ f.base ≤ 16 := by
  cases f <;> decide

theorem readLine?_eq_some_iff :
    f.readLine? line = some a ↔ ∃ token ∈ f.token? line, ∃ digits,
      (trim token = digits ∨ trim token = '+' :: digits) ∧ IsNumeral f.base a digits ∧
        a < greatestAddress + 1 := by
  obtain ⟨two, le⟩ := f.base_bounds
  rw [readLine?, Option.bind_eq_some_iff]
  exact exists_congr fun token => and_congr_right fun _ => readBelow?_eq_some_iff two le

/-- A line that is read is detected as the format in which it is read. -/
theorem detect?_of_readLine? (read : f.readLine? line = some a) : detect? line = some f := by
  obtain ⟨token, found, -⟩ := Option.bind_eq_some_iff.1 read
  obtain ⟨body, marked, -⟩ := Option.bind_eq_some_iff.1 found
  exact detect?_of_body? marked

/-- Lines have one reading. An address is read from a line exactly if the text of the address is,
between blanks, a sign or none and then digits that denote it, decimal in one format and hexadecimal
in the others, in either case and with any zeros before them. The line is then detected as the
format that it is read in, and can be read in no other. -/
theorem readLine?_exact (f : Format) (line : List Char) :
    (∀ a, f.readLine? line = some a ↔ ∃ token, f.token? line = some token ∧ ∃ digits,
      (trim token = digits ∨ trim token = '+' :: digits) ∧
        IsNumeral (if f = .zero then 10 else 16) a digits ∧ a ≤ 65535) ∧
    ∀ a, f.readLine? line = some a →
      detect? line = some f ∧ ∀ g b, g.readLine? line = some b → g = f := by
  refine ⟨fun a => ?_, fun a read => ⟨detect?_of_readLine? read, fun g b other => ?_⟩⟩
  · have base : f.base = if f = .zero then 10 else 16 := by cases f <;> rfl
    rw [readLine?_eq_some_iff, base]
    simp only [Option.mem_def, greatestAddress, Nat.lt_succ_iff]
  · have same := (detect?_of_readLine? other).symm.trans (detect?_of_readLine? read)
    exact Option.some.inj same

/-- A line whose address stands between blanks, with a sign, zeros and digits of both cases. -/
def spacedLine : List Char := "\t0x\u00a0+00fFf0 , 12\u3000".toList

theorem readLine?_exact_spacedLine :
    fuse.token? spacedLine = some "\u00a0+00fFf0 ".toList ∧ fuse.readLine? spacedLine = some 0xFFF0 ∧
    detect? spacedLine = some fuse ∧ ∀ g b, g.readLine? spacedLine = some b → g = fuse := by
  have token : fuse.token? spacedLine = some "\u00a0+00fFf0 ".toList := by decide
  obtain ⟨reading, detected⟩ := readLine?_exact fuse spacedLine
  have read : fuse.readLine? spacedLine = some 0xFFF0 :=
    (reading 0xFFF0).2 ⟨_, token, "00fFf0".toList, .inr (by decide), ⟨2, by decide⟩, by decide⟩
  exact ⟨token, read, detected _ read⟩

end MemoryAtlas.Trace.Format
