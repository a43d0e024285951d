import MemoryAtlas.Proofs.Heuristic.Relocation
import MemoryAtlas.Proofs.Heuristic.Segments

/-!
# Sweeps with higher ceilings

A ceiling that is higher, or none at all, makes fewer streaks data in disguise. The instructions of
a range are the same whatever the ceilings are, and so are its segments and streaks. So in each
segment data ends no later than before, and what was code stays code.

## Main definitions

* `Z80.Lifts`: one ceiling is at most as strict as another.
* `Z80.Instruction.Lifted`: the same instruction with a ceiling at most as strict.

## Main results

* `Z80.lifted_instructions`: the instructions of a range with two tables of ceilings.
* `Heuristic.getD_dataEnd?_le_of_lifted`: where the data of a segment ends.
* `Heuristic.tagAt?_sweep_eq_code_of_lifts`: code stays code.
-/

namespace MemoryAtlas

namespace Z80

/-- The second ceiling is at most as strict as the first: it is no limit, or as high at least. -/
def Lifts (ceiling ceiling' : Int) : Prop := ceiling' ≤ 0 ∨ 0 < ceiling ∧ ceiling ≤ ceiling'

theorem Lifts.refl (ceiling : Int) : Lifts ceiling ceiling := by
  by_cases positive : 0 < ceiling
  · exact .inr ⟨positive, Int.le_refl ceiling⟩
  · exact .inl (Int.not_lt.1 positive)

/-- The second instruction is the first with a ceiling at most as strict. -/
structure Instruction.Lifted (i i' : Instruction) : Prop where
  address : i'.address = i.address
  bytes : i'.bytes = i.bytes
  classId : i'.classId = i.classId
  operation : i'.operation = i.operation
  ceiling : Lifts i.ceiling i'.ceiling

variable {t t' : RepeatCeilings} {m : Image} {a c d limit : Nat} {i i' : Instruction}
  {l l' : List Instruction}

namespace Instruction.Lifted

theorem stop (h : i.Lifted i') : i'.stop = i.stop := by
  rw [Instruction.stop, Instruction.size, h.address, h.bytes]
  rfl

theorem isTerminal (h : i.Lifted i') : i'.isTerminal = i.isTerminal := by
  rw [Instruction.isTerminal, Instruction.flow, h.operation]
  rfl

end Instruction.Lifted

theorem lifted_decode (lifts : ∀ c, Lifts (t.ceiling c) (t'.ceiling c)) (m : Image)
    (a limit : Nat) : (decode t m a limit).Lifted (decode t' m a limit) := by
  rcases decode_cases t m a limit with ⟨fits, eq⟩ | ⟨past, eq⟩
  · rw [eq, decode_of_le fits]
    exact ⟨rfl, rfl, rfl, rfl, lifts _⟩
  · rw [eq, decode_of_lt past]
    exact ⟨rfl, rfl, rfl, rfl, .inl (Int.le_refl 0)⟩

/-- With another table of ceilings a walk meets the same instructions. -/
theorem lifted_instructions (lifts : ∀ c, Lifts (t.ceiling c) (t'.ceiling c)) (m : Image)
    (a limit : Nat) :
    List.Forall₂ Instruction.Lifted (instructions t m a limit) (instructions t' m a limit) := by
  induction a using walk_induction t m limit with
  | done a le =>
    rw [instructions_of_le t m le, instructions_of_le t' m le]
    exact .nil
  | step a lt ih =>
    have first := lifted_decode lifts m a limit
    rw [instructions_of_lt t m lt, instructions_of_lt t' m lt, first.stop]
    exact .cons first ih

theorem Tiles.lifted (alike : List.Forall₂ Instruction.Lifted l l') (tiles : Tiles c l d) :
    Tiles c l' d := by
  induction alike generalizing c with
  | nil => exact tiles
  | cons first rest ih =>
    obtain ⟨address, lt, tiles⟩ := tiles
    refine ⟨first.address.trans address, ?_, ?_⟩
    · rwa [first.stop]
    · rw [first.stop]
      exact ih tiles

end Z80

namespace Heuristic

open Z80

variable {t t' : RepeatCeilings} {m : Image} {start stop a c d x x' : Nat} {l l' : List Instruction}
  {lists lists' : List (List Instruction)}

/-! ### One segment -/

/-- A streak that is data in disguise by the higher ceiling is so by the lower one. -/
theorem isDisguised_of_lifted (alike : List.Forall₂ Instruction.Lifted l l')
    (disguised : isDisguised l' = true) : isDisguised l = true := by
  have length := alike.length_eq
  cases alike with
  | nil => exact disguised
  | cons first rest =>
    have lifts := first.ceiling
    rw [isDisguised, ← length, streakOf, first.bytes, Streak.isDisguised] at disguised
    rw [isDisguised, streakOf, Streak.isDisguised]
    simp only [Bool.and_eq_true, decide_eq_true_eq] at disguised ⊢
    obtain ⟨⟨positive, reached⟩, single⟩ := disguised
    rcases lifts with none | ⟨positive', le⟩
    · omega
    · exact ⟨⟨positive', Int.le_trans le reached⟩, single⟩

/-- The last streak of data in disguise ends no later with higher ceilings. -/
theorem getD_dataEnd?_le_of_lifted
    (alike : List.Forall₂ (List.Forall₂ Instruction.Lifted) lists lists')
    (tiles : Tiles c lists.flatten d) (ne : [] ∉ lists) (le : x' ≤ x) (below : x ≤ c) :
    (dataEnd? lists').getD x' ≤ (dataEnd? lists).getD x := by
  induction alike generalizing c x x' with
  | nil => exact le
  | @cons l l' lists lists' first rest ih =>
    obtain ⟨b, tiles, tiles'⟩ := Tiles.append_iff.1 tiles
    rw [List.mem_cons, not_or] at ne
    have full : l ≠ [] := Ne.symm ne.1
    have full' : l' ≠ [] := by
      rintro rfl
      exact full (List.forall₂_nil_right_iff.1 first)
    have lt := tiles.lt full
    rw [getD_dataEnd?_cons tiles full, getD_dataEnd?_cons (tiles.lifted first) full']
    cases disguised : isDisguised l' with
    | true =>
      rw [isDisguised_of_lifted first disguised]
      exact ih tiles' ne.2 (Nat.le_refl b) (Nat.le_refl b)
    | false =>
      -- Only by the lower ceiling may the streak carry the data on.
      rw [if_neg Bool.false_ne_true]
      refine ih tiles' ne.2 ?_ ?_
      · split <;> omega
      · split <;> omega

/-- Code starts in a segment where its data ends, if it ends with a terminal instruction. -/
theorem segmentTag_eq_code_iff (le : c ≤ a) :
    segmentTag l lists a = .code ↔
      (dataEnd? lists).getD c ≤ a ∧ l.getLast?.any (·.isTerminal) = true := by
  rw [segmentTag, any_lt_dataEnd? le]
  by_cases lt : a < (dataEnd? lists).getD c
  · simp [lt]
  · simp [lt, Nat.le_of_not_lt lt]

theorem streaks_lifted (alike : List.Forall₂ Instruction.Lifted l l') :
    List.Forall₂ (List.Forall₂ Instruction.Lifted) (streaks l) (streaks l') :=
  splitBy_forall₂ (fun _ _ _ _ first second => by rw [first.classId, second.classId]) alike

theorem segments_lifted (alike : List.Forall₂ Instruction.Lifted l l') :
    List.Forall₂ (List.Forall₂ Instruction.Lifted) (segments l) (segments l') :=
  splitBy_forall₂ (fun _ _ _ _ first _ => by rw [first.isTerminal]) alike

/-- What is code in a segment is code with higher ceilings. -/
theorem segmentTag_lifted (alike : List.Forall₂ Instruction.Lifted l l') (tiles : Tiles c l d)
    (le : c ≤ a) (code : segmentTag l (streaks l) a = .code) :
    segmentTag l' (streaks l') a = .code := by
  obtain ⟨data, terminal⟩ := (segmentTag_eq_code_iff le).1 code
  refine (segmentTag_eq_code_iff le).2 ⟨?_, ?_⟩
  · have earlier := getD_dataEnd?_le_of_lifted (streaks_lifted alike) (tiles_streaks tiles)
      (List.nil_notMem_splitBy _ _) (Nat.le_refl c) (Nat.le_refl c)
    exact Nat.le_trans earlier data
  · rcases getLast?_forall₂ alike with ⟨none, -⟩ | ⟨last, last', found, found', same⟩
    · rw [none] at terminal
      cases terminal
    · rw [found, Option.any_some] at terminal
      rw [found', Option.any_some, same.isTerminal, terminal]

/-! ### The map -/

/-- The tag at an address of a segment. -/
theorem tagAt?_sweep_of_covers (lt : start < stop)
    (mem : l ∈ segments (instructions t m start stop)) (covers : Covers l a) :
    (sweep t m start stop).value.tagAt? a = some (segmentTag l (streaks l) a) := by
  have cut := cutInto_segments (instructions t m start stop)
  have tiles := tiles_segments t m (Nat.le_of_lt lt)
  have below : a < stop := by
    obtain ⟨i, inside, holds⟩ := covers
    exact ((covers_iff_of_tiles tiles).1 ⟨i, List.mem_flatten.2 ⟨l, mem, inside⟩, holds⟩).2
  rw [tagAt?_sweep_eq lt below, sweepProgress]
  exact (Progress.tag?_foldl_afterSegment (Progress.reached_initial start) rfl tiles cut.nonempty
    cut.closed).2 l mem a covers

/-- Raising ceilings takes no code from a sweep: what is code by one table of ceilings is code by
any other in which each class has no ceiling, or has one in the first and a higher one, or the same,
in the second. -/
theorem tagAt?_sweep_eq_code_of_lifts (lifts : ∀ c, Lifts (t.ceiling c) (t'.ceiling c))
    (m : Image) (lt : start < stop) (a : Nat)
    (code : (sweep t m start stop).value.tagAt? a = some .code) :
    (sweep t' m start stop).value.tagAt? a = some .code := by
  have inside := (wellFormed_sweep lt).bounds_of_tagAt? code (by decide)
  have tiles := tiles_segments t m (Nat.le_of_lt lt)
  -- The segment of the address, and the one in its place with the other table.
  obtain ⟨i, found, holds⟩ := (covers_iff_of_tiles tiles).2 inside
  obtain ⟨l, mem, found⟩ := List.mem_flatten.1 found
  obtain ⟨b, e, whole⟩ := exists_tiles_of_mem tiles mem
  have alike := segments_lifted (lifted_instructions lifts m start stop)
  obtain ⟨l', mem', alike⟩ := exists_mem_of_forall₂ alike mem
  have covers : Covers l a := ⟨i, found, holds⟩
  have bounds := (covers_iff_of_tiles whole).1 covers
  rw [tagAt?_sweep_of_covers lt mem covers] at code
  rw [tagAt?_sweep_of_covers lt mem' ((covers_iff_of_tiles (whole.lifted alike)).2 bounds),
    segmentTag_lifted alike whole bounds.1 (Option.some.inj code)]

/-- The usual table with a higher ceiling for one class of loads and none for another. -/
def lenient : RepeatCeilings := (RepeatCeilings.usual.set 0x40 4).set 0x7F 0

/-- The return is code by the usual table, and stays so by one that makes the streaks of loads
before it code too. -/
theorem tagAt?_sweep_eq_code_of_lifts_lenient :
    (∀ c, Lifts (RepeatCeilings.usual.ceiling c) (lenient.ceiling c)) ∧
      (sweep .usual disguises 0 9).value.tagAt? 7 = some .code ∧
      (sweep lenient disguises 0 9).value.tagAt? 7 = some .code ∧
      (sweep .usual disguises 0 9).value.tagAt? 3 = some .bytes ∧
      (sweep lenient disguises 0 9).value.tagAt? 3 = some .code := by
  have lifts : ∀ c, Lifts (RepeatCeilings.usual.ceiling c) (lenient.ceiling c) := by
    intro c
    rw [lenient, RepeatCeilings.ceiling_set, RepeatCeilings.ceiling_set]
    split
    · exact .inl (Int.le_refl 0)
    · split
      · next same =>
        rw [same]
        exact .inr (by decide)
      · exact Lifts.refl _
  have code : (sweep .usual disguises 0 9).value.tagAt? 7 = some .code := by decide +kernel
  exact ⟨lifts, code, tagAt?_sweep_eq_code_of_lifts lifts disguises (by decide) 7 code,
    by decide +kernel, by decide +kernel⟩

end Heuristic

end MemoryAtlas
