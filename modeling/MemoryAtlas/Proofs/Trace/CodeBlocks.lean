import Mathlib.Data.Finset.Sort
import MemoryAtlas.Proofs.Trace.Addresses
import MemoryAtlas.Proofs.Z80.Tiling

/-!
# The blocks of executed code

Executed instructions are joined into blocks, in ascending order of their addresses. The blocks lie
in the range, apart from one another, and every executed address lies in one of them. Instructions
may overlap in any way, since a jump may lead into the middle of another instruction; whatever they
do, the blocks hold the bytes of the executed instructions and no others.

## Main definitions

* `Joined`: what the blocks made so far are, last first.

## Main results

* `Joined.joinBlock`: one more instruction starts a block, by `Joined.cons`, or joins one, by
  `Joined.lengthen`.
* `codeBlocks_spec`: the blocks of a set of addresses.
* `exists_mem_joinBlock_iff`: one more instruction adds its bytes to those of the blocks.
* `codeBlocks_exact`: the blocks of any set of addresses, and the bytes they hold.
-/

namespace MemoryAtlas

open Z80

variable {t : RepeatCeilings} {m : Image} {stop : Nat} {executed : List Nat} {blocks : List Span}

/-- The blocks, last first, that executed addresses make up: each starts at one of them and ends at
or below `stop`, there is a gap before each, and each address lies in one. -/
structure Joined (stop : Nat) (executed : List Nat) (blocks : List Span) : Prop where
  bounds : ∀ b ∈ blocks, b.start ∈ executed ∧ b.start < b.stop ∧ b.stop ≤ stop
  apart : blocks.Pairwise fun later earlier => earlier.stop < later.start
  cover : ∀ a ∈ executed, ∃ b ∈ blocks, b.start ≤ a ∧ a < b.stop

/-- An instruction past all blocks starts one. -/
theorem Joined.cons (h : Joined stop executed blocks) {i : Instruction}
    (past : ∀ b ∈ blocks, b.stop < i.address) (advance : i.address < i.stop) (le : i.stop ≤ stop) :
    Joined stop (executed ++ [i.address]) (⟨i.address, i.stop⟩ :: blocks) where
  bounds b mem := by
    rcases List.mem_cons.1 mem with rfl | mem
    · exact ⟨by simp, advance, le⟩
    · obtain ⟨started, rest⟩ := h.bounds b mem
      exact ⟨List.mem_append_left _ started, rest⟩
  apart := List.pairwise_cons.2 ⟨past, h.apart⟩
  cover a mem := by
    rcases List.mem_append.1 mem with mem | mem
    · obtain ⟨b, hb, inside⟩ := h.cover a mem
      exact ⟨b, List.mem_cons_of_mem _ hb, inside⟩
    · rw [List.mem_singleton.1 mem]
      exact ⟨_, List.mem_cons_self, Nat.le_refl _, advance⟩

/-- An instruction that starts in the last block makes it longer. -/
theorem Joined.lengthen {last : Span} (h : Joined stop executed (last :: blocks)) {i : Instruction}
    (above : last.start ≤ i.address) (advance : i.address < i.stop) (le : i.stop ≤ stop) :
    Joined stop (executed ++ [i.address]) (⟨last.start, max last.stop i.stop⟩ :: blocks) where
  bounds b mem := by
    rcases List.mem_cons.1 mem with rfl | mem
    · obtain ⟨started, nonempty, below⟩ := h.bounds last List.mem_cons_self
      exact ⟨List.mem_append_left _ started, by dsimp only; omega, by dsimp only; omega⟩
    · obtain ⟨started, rest⟩ := h.bounds b (List.mem_cons_of_mem _ mem)
      exact ⟨List.mem_append_left _ started, rest⟩
  -- The gap before a block is a matter of its start, which stays.
  apart := List.pairwise_cons.2 (List.pairwise_cons.1 h.apart)
  cover a mem := by
    rcases List.mem_append.1 mem with mem | mem
    · obtain ⟨b, hb, lower, upper⟩ := h.cover a mem
      rcases List.mem_cons.1 hb with rfl | hb
      · exact ⟨_, List.mem_cons_self, lower, by dsimp only; omega⟩
      · exact ⟨b, List.mem_cons_of_mem _ hb, lower, upper⟩
    · rw [List.mem_singleton.1 mem]
      exact ⟨_, List.mem_cons_self, above, by dsimp only; omega⟩

/-- An instruction after all executed so far joins the last block or starts one. -/
theorem Joined.joinBlock (h : Joined stop executed blocks) {i : Instruction}
    (later : ∀ a ∈ executed, a ≤ i.address) (advance : i.address < i.stop) (le : i.stop ≤ stop) :
    Joined stop (executed ++ [i.address]) (MemoryAtlas.joinBlock blocks i) := by
  cases blocks with
  | nil => exact h.cons (by simp) advance le
  | cons last earlier =>
    obtain ⟨started, nonempty, -⟩ := h.bounds last List.mem_cons_self
    rw [MemoryAtlas.joinBlock]
    by_cases joins : i.address ≤ last.stop
    · rw [if_pos joins]
      exact h.lengthen (later _ started) advance le
    · rw [if_neg joins]
      refine h.cons (fun b mem => ?_) advance le
      rcases List.mem_cons.1 mem with rfl | mem
      · exact Nat.lt_of_not_le joins
      · -- Blocks are kept last first, so all others end below the start of the first.
        have := (List.pairwise_cons.1 h.apart).1 b mem
        omega

theorem Joined.foldl (h : Joined stop executed blocks) {addresses : List Nat}
    (sorted : (executed ++ addresses).Pairwise (· < ·)) (below : ∀ a ∈ addresses, a < stop) :
    Joined stop (executed ++ addresses)
      ((addresses.map fun a => decode t m a stop).foldl MemoryAtlas.joinBlock blocks) := by
  induction addresses generalizing executed blocks with
  | nil => rwa [List.append_nil]
  | cons a addresses ih =>
    have lt := below a List.mem_cons_self
    have shift : executed ++ a :: addresses = executed ++ [a] ++ addresses := by simp
    have step :
        Joined stop (executed ++ [a]) (MemoryAtlas.joinBlock blocks (decode t m a stop)) := by
      have := h.joinBlock (i := decode t m a stop)
      rw [address_decode] at this
      refine this (fun b mem => ?_) (lt_stop_decode t m a stop) (stop_decode_le t m lt)
      exact Nat.le_of_lt ((List.pairwise_append.1 sorted).2.2 b mem a List.mem_cons_self)
    rw [shift] at sorted ⊢
    exact ih step sorted fun b mem => below b (List.mem_cons_of_mem _ mem)

/-- The blocks of a set of executed addresses: each lies in the range and starts at an executed
address, there is a gap between any two, and every executed address lies in one. -/
theorem codeBlocks_spec {start : Nat} (h : Trace.AddressesOf ⟨start, stop⟩ executed) :
    (∀ b ∈ codeBlocks t m executed stop, b.start ∈ executed ∧ b.start < b.stop ∧ b.stop ≤ stop) ∧
      ((codeBlocks t m executed stop).Pairwise fun earlier later => earlier.stop < later.start) ∧
        ∀ a ∈ executed, ∃ b ∈ codeBlocks t m executed stop, b.start ≤ a ∧ a < b.stop := by
  obtain ⟨sorted, bounds⟩ := h
  -- No address is dropped for lying beyond the range.
  have all : executed.filter (· < stop) = executed :=
    List.filter_eq_self.2 fun a mem => by simpa using (bounds a mem).2
  have none : Joined stop [] [] := ⟨by simp, .nil, by simp⟩
  have joined := none.foldl (t := t) (m := m) sorted fun a mem => (bounds a mem).2
  simp only [codeBlocks, all, List.mem_reverse, List.pairwise_reverse]
  exact ⟨joined.bounds, joined.apart, joined.cover⟩

/-! ### The bytes of the blocks -/

/-- An instruction that starts no lower than the last block adds its bytes to those of the
blocks. -/
theorem exists_mem_joinBlock_iff {i : Instruction} {x : Nat}
    (above : ∀ last ∈ blocks.head?, last.start ≤ i.address) :
    (∃ b ∈ joinBlock blocks i, b.start ≤ x ∧ x < b.stop) ↔
      (∃ b ∈ blocks, b.start ≤ x ∧ x < b.stop) ∨ i.address ≤ x ∧ x < i.stop := by
  cases blocks with
  | nil => simp [joinBlock]
  | cons last earlier =>
    have above := above last rfl
    rw [joinBlock]
    by_cases joins : i.address ≤ last.stop
    · -- There is no gap between the two, so together they have the bytes of both.
      have both : last.start ≤ x ∧ x < max last.stop i.stop ↔
          (last.start ≤ x ∧ x < last.stop) ∨ i.address ≤ x ∧ x < i.stop := by omega
      simp only [if_pos joins, List.exists_mem_cons_iff, both]
      exact or_right_comm
    · rw [if_neg joins, List.exists_mem_cons_iff]
      exact or_comm

/-- The last block starts no higher than the last instruction. -/
theorem start_le_of_mem_head?_joinBlock {i : Instruction} {last : Span}
    (above : ∀ last ∈ blocks.head?, last.start ≤ i.address)
    (head : last ∈ (joinBlock blocks i).head?) : last.start ≤ i.address := by
  cases blocks with
  | nil =>
    cases head
    exact Nat.le_refl _
  | cons first earlier =>
    rw [joinBlock] at head
    split at head
    · cases head
      exact above first rfl
    · cases head
      exact Nat.le_refl _

/-- A run over instructions in ascending order adds the bytes of all of them. -/
theorem exists_mem_foldl_joinBlock_iff {addresses : List Nat} {x : Nat}
    (sorted : addresses.Pairwise (· < ·))
    (above : ∀ last ∈ blocks.head?, ∀ a ∈ addresses, last.start ≤ a) :
    (∃ b ∈ (addresses.map fun a => decode t m a stop).foldl joinBlock blocks,
        b.start ≤ x ∧ x < b.stop) ↔
      (∃ b ∈ blocks, b.start ≤ x ∧ x < b.stop) ∨
        ∃ a ∈ addresses, a ≤ x ∧ x < (decode t m a stop).stop := by
  induction addresses generalizing blocks with
  | nil => simp
  | cons a addresses ih =>
    obtain ⟨least, sorted⟩ := List.pairwise_cons.1 sorted
    have first : ∀ last ∈ blocks.head?, last.start ≤ (decode t m a stop).address := by
      intro last head
      rw [address_decode]
      exact above last head a List.mem_cons_self
    have rest : ∀ last ∈ (joinBlock blocks (decode t m a stop)).head?, ∀ c ∈ addresses,
        last.start ≤ c := by
      intro last head c mem
      have := start_le_of_mem_head?_joinBlock first head
      rw [address_decode] at this
      exact Nat.le_trans this (Nat.le_of_lt (least c mem))
    rw [List.map_cons, List.foldl_cons, ih sorted rest, exists_mem_joinBlock_iff first,
      address_decode, List.exists_mem_cons_iff, or_assoc]

/-- Addresses beyond the end make no blocks. -/
theorem codeBlocks_filter (l : List Nat) :
    codeBlocks t m (l.filter (· < stop)) stop = codeBlocks t m l stop := by
  rw [codeBlocks, codeBlocks, List.filter_filter]
  simp only [Bool.and_self]

/-- The blocks of any set of executed addresses. Each starts at one of them, is not empty and ends
at or below the end; each starts past the end of the one before it; and together they hold exactly
the bytes of the instructions at the addresses below the end. -/
theorem codeBlocks_exact (t : RepeatCeilings) (m : Image) (S : Finset Nat) (stop : Nat) :
    (∀ b ∈ codeBlocks t m (S.sort (· ≤ ·)) stop,
      b.start ∈ S ∧ b.start < b.stop ∧ b.stop ≤ stop) ∧
    (codeBlocks t m (S.sort (· ≤ ·)) stop).Pairwise
      (fun earlier later => earlier.stop < later.start) ∧
    ∀ x, (∃ b ∈ codeBlocks t m (S.sort (· ≤ ·)) stop, b.start ≤ x ∧ x < b.stop) ↔
      ∃ a ∈ S, a < stop ∧ a ≤ x ∧ x < (decode t m a stop).stop := by
  have mem : ∀ a, a ∈ (S.sort (· ≤ ·)).filter (· < stop) ↔ a ∈ S ∧ a < stop := by
    intro a
    rw [List.mem_filter, Finset.mem_sort, decide_eq_true_iff]
  have below : Trace.AddressesOf ⟨0, stop⟩ ((S.sort (· ≤ ·)).filter (· < stop)) :=
    ⟨(Finset.sortedLT_sort S).pairwise.filter _, fun a ha => ⟨Nat.zero_le a, ((mem a).1 ha).2⟩⟩
  obtain ⟨bounds, apart, -⟩ := codeBlocks_spec (t := t) (m := m) below
  rw [codeBlocks_filter] at bounds apart
  refine ⟨fun b hb => ⟨((mem _).1 (bounds b hb).1).1, (bounds b hb).2⟩, apart, fun x => ?_⟩
  have none : ∀ last ∈ ([] : List Span).head?, ∀ a ∈ (S.sort (· ≤ ·)).filter (· < stop),
      last.start ≤ a := by
    intro last head
    cases head
  simp only [codeBlocks, List.mem_reverse]
  rw [exists_mem_foldl_joinBlock_iff below.1 none]
  simp only [mem, List.not_mem_nil, false_and, exists_false, false_or, and_assoc]

/-- An instruction with another one inside of it, one right after it, and a jump at the end. -/
def nested : Image := ⟨0, #[0x21, 0x3E, 0xC9, 0x00, 0xFF, 0xFF, 0xC3, 0x00], by decide⟩

/-- The first two instructions overlap, the third starts where they end, and the jump is left with
one byte; the address above the end adds nothing. -/
theorem codeBlocks_exact_nested :
    codeBlocks .usual nested (({0, 1, 3, 6, 9} : Finset Nat).sort (· ≤ ·)) 8 = [⟨0, 4⟩, ⟨6, 7⟩] ∧
      ∀ x, x < 4 ∨ x = 6 ↔ ∃ a ∈ ({0, 1, 3, 6, 9} : Finset Nat),
        a < 8 ∧ a ≤ x ∧ x < (decode .usual nested a 8).stop := by
  have sorted : ({0, 1, 3, 6, 9} : Finset Nat).sort (· ≤ ·) = [0, 1, 3, 6, 9] := by
    refine (Finset.sortedLT_sort _).pairwise.eq_of_mem_iff (by decide) fun a => ?_
    simp only [Finset.mem_sort, Finset.mem_insert, Finset.mem_singleton, List.mem_cons,
      List.not_mem_nil, or_false]
  have blocks : codeBlocks .usual nested (({0, 1, 3, 6, 9} : Finset Nat).sort (· ≤ ·)) 8 =
      [⟨0, 4⟩, ⟨6, 7⟩] := by
    rw [sorted]
    decide +kernel
  obtain ⟨-, -, bytes⟩ := codeBlocks_exact .usual nested {0, 1, 3, 6, 9} 8
  rw [blocks] at bytes
  refine ⟨blocks, fun x => ?_⟩
  rw [← bytes]
  simp only [List.mem_cons, List.not_mem_nil, or_false, exists_eq_or_imp, exists_eq_left]
  omega

end MemoryAtlas
