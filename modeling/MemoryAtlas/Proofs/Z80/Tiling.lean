import MemoryAtlas.Z80.Instruction

/-!
# Instructions tile their range

A walk through memory goes from each instruction to the next, and no instruction passes the limit.
So the instructions of a range lie end to end from its start to its limit.

## Main definitions

* `Z80.Tiles`: instructions that lie end to end from one address to another.

## Main results

* `Z80.tiles_instructions`: the instructions of a range tile it.
* `Z80.Tiles.ends_or_straddles`: an address inside a tiled range is the end of one of the
  instructions or lies inside one.
* `Z80.instructions_eq_append`: a walk goes on from each of its instructions as a walk from there.
* `Z80.instructionsUntil_spec`: what a halting walk is.
-/

namespace MemoryAtlas.Z80

variable {a b c k limit : Nat} {i last : Instruction} {l r : List Instruction}

/-- The instructions lie end to end from `a` to `b`. -/
def Tiles (a : Nat) : List Instruction → Nat → Prop
  | [], b => a = b
  | i :: rest, b => i.address = a ∧ a < i.stop ∧ Tiles i.stop rest b

namespace Tiles

theorem le (h : Tiles a l b) : a ≤ b := by
  induction l generalizing a with
  | nil => exact Nat.le_of_eq h
  | cons i rest ih =>
    obtain ⟨-, lt, h⟩ := h
    exact Nat.le_trans (Nat.le_of_lt lt) (ih h)

theorem lt (h : Tiles a l b) (ne : l ≠ []) : a < b := by
  cases l with
  | nil => exact absurd rfl ne
  | cons i rest => exact Nat.lt_of_lt_of_le h.2.1 h.2.2.le

theorem append_iff : Tiles a (l ++ r) c ↔ ∃ b, Tiles a l b ∧ Tiles b r c := by
  induction l generalizing a with
  | nil =>
    constructor
    · exact fun h => ⟨a, rfl, h⟩
    · rintro ⟨b, rfl, h⟩
      exact h
  | cons i rest ih =>
    rw [List.cons_append, Tiles, ih]
    constructor
    · rintro ⟨address, lt, b, h, h'⟩
      exact ⟨b, ⟨address, lt, h⟩, h'⟩
    · rintro ⟨b, ⟨address, lt, h⟩, h'⟩
      exact ⟨address, lt, b, h, h'⟩

/-- Every instruction lies in the range. -/
theorem bounds (h : Tiles a l b) (mem : i ∈ l) :
    a ≤ i.address ∧ i.address < i.stop ∧ i.stop ≤ b := by
  induction l generalizing a with
  | nil => cases mem
  | cons j rest ih =>
    obtain ⟨rfl, lt, h⟩ := h
    rcases List.mem_cons.1 mem with rfl | mem
    · exact ⟨Nat.le_refl _, lt, h.le⟩
    · have := ih h mem
      omega

/-- Each instruction ends before the later ones start. -/
theorem pairwise (h : Tiles a l b) : l.Pairwise fun i j => i.stop ≤ j.address := by
  induction l generalizing a with
  | nil => exact .nil
  | cons i rest ih =>
    obtain ⟨-, -, h⟩ := h
    exact (ih h).cons fun j mem => (h.bounds mem).1

/-- The last instruction ends where the range does. -/
theorem stop_getLast? (h : Tiles a l b) (found : l.getLast? = some last) : last.stop = b := by
  obtain ⟨init, rfl⟩ := List.getLast?_eq_some_iff.1 found
  obtain ⟨c, -, -, -, rfl⟩ := append_iff.1 h
  rfl

/-- An instruction other than the last ends before the range does. -/
theorem stop_lt_of_mem_dropLast (h : Tiles a l b) (mem : i ∈ l.dropLast) : i.stop < b := by
  have ne : l ≠ [] := by
    rintro rfl
    cases mem
  rw [← List.dropLast_concat_getLast ne] at h
  obtain ⟨c, before, -, lt, rfl⟩ := append_iff.1 h
  exact Nat.lt_of_le_of_lt (before.bounds mem).2.2 lt

/-- An address inside a tiled range is the end of an instruction other than the last, or lies inside
an instruction. -/
theorem ends_or_straddles (h : Tiles a l b) (above : a < k) (below : k < b) :
    (∃ i ∈ l.dropLast, i.stop = k) ∨ ∃ i ∈ l, i.address < k ∧ k < i.stop := by
  induction l generalizing a with
  | nil =>
    have : a = b := h
    omega
  | cons i rest ih =>
    obtain ⟨rfl, -, h⟩ := h
    by_cases inside : k < i.stop
    · exact .inr ⟨i, List.mem_cons_self, above, inside⟩
    have ne : rest ≠ [] := by
      rintro rfl
      have : i.stop = b := h
      omega
    rw [List.dropLast_cons_of_ne_nil ne]
    rcases Nat.eq_or_lt_of_le (Nat.le_of_not_lt inside) with ends | later
    · exact .inl ⟨i, List.mem_cons_self, ends⟩
    · rcases ih h later with ⟨j, mem, ends⟩ | ⟨j, mem, straddles⟩
      · exact .inl ⟨j, List.mem_cons_of_mem _ mem, ends⟩
      · exact .inr ⟨j, List.mem_cons_of_mem _ mem, straddles⟩

end Tiles

/-! ### Walks -/

variable (halt : Instruction → Bool) (t : RepeatCeilings) (m : Image)

/-- The instructions of a range tile it. -/
theorem tiles_instructions (le : a ≤ limit) : Tiles a (instructions t m a limit) limit := by
  induction a using walk_induction t m limit with
  | done a ge =>
    rw [instructions_of_le t m ge]
    exact Nat.le_antisymm le ge
  | step a lt ih =>
    rw [instructions_of_lt t m lt]
    exact ⟨address_decode t m a limit, lt_stop_decode t m a limit, ih (stop_decode_le t m lt)⟩

theorem instructions_ne_nil (lt : a < limit) : instructions t m a limit ≠ [] := by
  rw [instructions_of_lt t m lt]
  exact List.cons_ne_nil _ _

/-- A walk goes on after each of its instructions as a walk from there. -/
theorem instructions_eq_append (h : i ∈ instructions t m a limit) :
    ∃ before, instructions t m a limit = before ++ i :: instructions t m i.stop limit := by
  induction a using walk_induction t m limit with
  | done a ge =>
    rw [instructions_of_le t m ge] at h
    cases h
  | step a lt ih =>
    rw [instructions_of_lt t m lt] at h ⊢
    rcases List.mem_cons.1 h with rfl | h
    · exact ⟨[], rfl⟩
    · obtain ⟨before, eq⟩ := ih h
      exact ⟨decode t m a limit :: before, by rw [List.cons_append, ← eq]⟩

/-- An instruction of a walk is what its address decodes to. -/
theorem eq_decode_of_mem_instructions (h : i ∈ instructions t m a limit) :
    i = decode t m i.address limit := by
  induction a using walk_induction t m limit with
  | done a ge =>
    rw [instructions_of_le t m ge] at h
    cases h
  | step a lt ih =>
    rw [instructions_of_lt t m lt] at h
    rcases List.mem_cons.1 h with rfl | h
    · rw [address_decode]
    · exact ih h

/-- The last instruction of a range is the same from wherever in the walk one starts. -/
theorem getLast?_instructions_of_stop (h : i ∈ instructions t m a limit) (lt : i.stop < limit) :
    (instructions t m i.stop limit).getLast? = (instructions t m a limit).getLast? := by
  -- What is left of the walk is not empty below the limit, so it has the last instruction.
  obtain ⟨before, eq⟩ := instructions_eq_append t m h
  have ne := instructions_ne_nil t m lt
  rw [eq, List.getLast?_append, List.getLast?_cons, List.getLast?_eq_some_getLast ne]
  rfl

/-- A walk depends on where it halts only after its start. -/
theorem instructionsUntil_congr {halt' : Instruction → Bool}
    (same : ∀ i : Instruction, a < i.stop → halt i = halt' i) :
    instructionsUntil halt t m a limit = instructionsUntil halt' t m a limit := by
  induction a using walk_induction t m limit with
  | done a ge => rw [instructionsUntil_of_le halt t m ge, instructionsUntil_of_le halt' t m ge]
  | step a lt ih =>
    have advance := lt_stop_decode t m a limit
    rw [instructionsUntil_of_lt halt t m lt, instructionsUntil_of_lt halt' t m lt,
      same _ advance, ih fun i later => same i (Nat.lt_trans advance later)]

/-- A halting walk below its limit ends with an instruction that halts, or at the limit; none of
the instructions before the last halts. -/
theorem instructionsUntil_spec (lt : a < limit) :
    ∃ init last, instructionsUntil halt t m a limit = init ++ [last] ∧
      (∀ i ∈ init, halt i = false) ∧ (halt last = true ∨ last.stop = limit) ∧
        Tiles a (init ++ [last]) last.stop := by
  -- Along the walk: it ends at the first instruction that halts or at the limit.
  induction a using walk_induction t m limit with
  | done a ge => omega
  | step a lt ih =>
    have advance := lt_stop_decode t m a limit
    have address := address_decode t m a limit
    rw [instructionsUntil_of_lt halt t m lt]
    by_cases halts : halt (decode t m a limit)
    · rw [if_pos halts]
      exact ⟨[], decode t m a limit, rfl, by simp, .inl halts, address, advance, rfl⟩
    rw [if_neg halts]
    rcases Nat.eq_or_lt_of_le (stop_decode_le t m lt) with stop | below
    · rw [instructionsUntil_of_le halt t m (Nat.le_of_eq stop.symm)]
      exact ⟨[], decode t m a limit, rfl, by simp, .inr stop, address, advance, rfl⟩
    · obtain ⟨init, last, eq, quiet, ends, tiles⟩ := ih below
      refine ⟨decode t m a limit :: init, last, by rw [eq]; rfl, ?_, ends, address, advance, tiles⟩
      intro i mem
      rcases List.mem_cons.1 mem with rfl | mem
      · simpa using halts
      · exact quiet i mem

end MemoryAtlas.Z80
