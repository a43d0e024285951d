import Mathlib.Order.Bounds.Basic
import MemoryAtlas.Proofs.TagMap.ByBlock

/-!
# The blocks of a map and the tag at an address

A map is read in two ways: as the list of blocks between its boundaries, and address by address, by
the last boundary at or below. Both readings coincide on every map, well-formed or not. The blocks
follow each other without a gap from the least boundary to the greatest, and the tag at an address
is that of the one block it lies in.

Removing the boundaries strictly between two addresses lets the tag at the lower one hold on to the
next boundary that is left. Nothing changes below or after.

## Main definitions

* `TagMap.boundaries`: the addresses that are boundaries.

## Main results

* `TagMap.isChain_blocks`, `TagMap.isLeast_start_of_head?`, `TagMap.isGreatest_stop_of_getLast?`:
  the blocks go from the least boundary to the greatest.
* `TagMap.exists_filter_contains_eq`: an address between the two lies in one block.
* `TagMap.get?_clearWithin`, `TagMap.head?_within_eq_some_iff`: what removal removes and yields.
* `TagMap.blocks_agree_and_removal_exact`: all of it, and the tags after a removal.
-/

namespace MemoryAtlas

theorem Block.contains_iff {b : Block} {a : Nat} :
    b.contains a = true ↔ b.start ≤ a ∧ a < b.stop := by
  simp [contains]

namespace TagMap

variable {m n : TagMap} {b : Block} {a k lo hi : Nat} {t : Tag}

/-- The addresses that are boundaries. -/
def boundaries (m : TagMap) : Set Nat := {k | (m.get? k).isSome}

theorem mem_boundaries : k ∈ m.boundaries ↔ (m.get? k).isSome := Iff.rfl

theorem mem_boundaries_of_get? (key : m.get? k = some t) : k ∈ m.boundaries := by
  rw [mem_boundaries, key]
  rfl

/-! ### From the least boundary to the greatest -/

theorem isChain_zipWith_between (l : List (Nat × Tag)) :
    (List.zipWith between l l.tail).IsChain fun b c => b.stop = c.start := by
  induction l with
  | nil => exact .nil
  | cons first rest ih =>
    match rest, ih with
    | [], _ => exact .nil
    | [_], _ => exact .singleton _
    | _ :: _ :: _, ih => exact .cons_cons rfl ih

/-- Each block starts where the one before it ends. -/
theorem isChain_blocks (m : TagMap) : m.blocks.IsChain fun b c => b.stop = c.start :=
  isChain_zipWith_between m.entries

/-- Blocks stand in the order of their starts. -/
theorem pairwise_start_blocks (m : TagMap) : m.blocks.Pairwise fun b c => b.start < c.start :=
  (pairwise_blocks m).imp_of_mem fun hb _ le =>
    Nat.lt_of_lt_of_le (start_lt_stop_of_mem_blocks hb) le

/-- A boundary below another one starts a block. -/
theorem exists_start_eq (key : k ∈ m.boundaries) (upper : ∃ j ∈ m.boundaries, k < j) :
    ∃ b ∈ m.blocks, b.start = k := by
  obtain ⟨t, key⟩ := Option.isSome_iff_exists.1 key
  obtain ⟨j, upper, lt⟩ := upper
  obtain ⟨b, hb, start, -⟩ := exists_mem_blocks (a := k) ⟨Nat.le_refl k, fun j _ _ => by omega⟩ key
    ⟨j, lt, upper⟩
  exact ⟨b, hb, start⟩

/-- The first block starts at the least boundary. -/
theorem isLeast_start_of_head? (first : m.blocks.head? = some b) :
    IsLeast m.boundaries b.start := by
  obtain ⟨rest, eq⟩ := List.head?_eq_some_iff.1 first
  have key := mem_boundaries_of_get? (get?_start_of_mem_blocks (List.mem_of_head? first))
  refine ⟨key, fun k lower => Nat.le_of_not_lt fun lt => ?_⟩
  -- A boundary below it would start a block, which would have to come before the first.
  obtain ⟨c, hc, rfl⟩ := exists_start_eq lower ⟨b.start, key, lt⟩
  have order := pairwise_start_blocks m
  rw [eq, List.pairwise_cons] at order
  rw [eq, List.mem_cons] at hc
  rcases hc with rfl | hc
  · exact Nat.lt_irrefl _ lt
  · exact Nat.lt_asymm lt (order.1 c hc)

/-- The last block ends at the greatest boundary. -/
theorem isGreatest_stop_of_getLast? (last : m.blocks.getLast? = some b) :
    IsGreatest m.boundaries b.stop := by
  obtain ⟨init, eq⟩ := List.getLast?_eq_some_iff.1 last
  have hb := List.mem_of_getLast? last
  obtain ⟨upper, stop⟩ := get?_stop_of_mem_blocks hb
  have key := mem_boundaries_of_get? stop
  refine ⟨key, fun k greater => Nat.le_of_not_lt fun lt => ?_⟩
  -- The end of the last block would start another one, if there were a boundary after it.
  obtain ⟨c, hc, start⟩ := exists_start_eq key ⟨k, greater, lt⟩
  have nonempty := start_lt_stop_of_mem_blocks hb
  have order := pairwise_start_blocks m
  rw [eq, List.pairwise_append] at order
  rw [eq, List.mem_append, List.mem_singleton] at hc
  rcases hc with hc | rfl
  · have := order.2.2 c hc b List.mem_cons_self
    omega
  · omega

/-! ### One block for each address -/

/-- Of all blocks only one holds a given address. -/
theorem filter_contains_eq (hb : b ∈ m.blocks) (holds : b.contains a = true) :
    m.blocks.filter (·.contains a) = [b] := by
  have distinct : (m.blocks.filter (·.contains a)).Nodup := (nodup_blocks m).filter _
  refine List.perm_singleton.1 ((List.perm_ext_iff_of_nodup distinct (List.nodup_singleton b)).2 ?_)
  intro c
  rw [List.mem_filter, List.mem_singleton]
  constructor
  · rintro ⟨hc, holds'⟩
    rw [Block.contains_iff] at holds holds'
    exact eq_of_mem_of_mem hc hb holds'.1 holds'.2 holds.1 holds.2
  · rintro rfl
    exact ⟨hb, holds⟩

/-- An address between two boundaries lies in one block, which has the tag at the address. -/
theorem exists_filter_contains_eq (lower : ∃ k ∈ m.boundaries, k ≤ a)
    (upper : ∃ k ∈ m.boundaries, a < k) :
    ∃ b, m.blocks.filter (·.contains a) = [b] ∧ m.tagAt? a = some b.tag := by
  obtain ⟨k, key, le⟩ := lower
  obtain ⟨t, key⟩ := Option.isSome_iff_exists.1 key
  obtain ⟨j, key', above⟩ := upper
  obtain ⟨b, hb, lower, below⟩ := exists_mem_blocks_of_le key le ⟨j, above, key'⟩
  exact ⟨b, filter_contains_eq hb (Block.contains_iff.2 ⟨lower, below⟩),
    tagAt?_of_mem_blocks hb lower below⟩

/-! ### Removal between two addresses -/

theorem mem_within_iff : (k, t) ∈ m.within lo hi ↔ m.get? k = some t ∧ lo < k ∧ k < hi := by
  rw [within, List.mem_filter, SortedMap.get?_eq_some_iff, Bool.and_eq_true, decide_eq_true_iff,
    decide_eq_true_iff]

theorem clear_mem_clearWithin_iff :
    .clear k ∈ m.clearWithin lo hi ↔ k ∈ m.boundaries ∧ lo < k ∧ k < hi := by
  rw [clearWithin, List.mem_map, mem_boundaries, Option.isSome_iff_exists]
  constructor
  · rintro ⟨⟨j, t⟩, mem, same⟩
    cases same
    obtain ⟨key, between⟩ := mem_within_iff.1 mem
    exact ⟨⟨t, key⟩, between⟩
  · rintro ⟨⟨t, key⟩, between⟩
    exact ⟨(k, t), mem_within_iff.2 ⟨key, between⟩, rfl⟩

theorem assign_notMem_clearWithin : .assign k t ∉ m.clearWithin lo hi := by
  rw [clearWithin, List.mem_map]
  rintro ⟨e, -, same⟩
  cases same

/-- Removal takes the boundaries strictly between the two addresses, and no others. -/
theorem get?_clearWithin (m : TagMap) (lo hi k : Nat) :
    (m.edit (m.clearWithin lo hi)).get? k = if lo < k ∧ k < hi then none else m.get? k := by
  by_cases cleared : .clear k ∈ m.clearWithin lo hi
  · rw [if_pos (clear_mem_clearWithin_iff.1 cleared).2]
    exact get?_edit_of_clear cleared fun _ => assign_notMem_clearWithin
  · rw [get?_edit_of_forall_ne (fun _ => assign_notMem_clearWithin) cleared]
    split
    · next between =>
      rw [clear_mem_clearWithin_iff, mem_boundaries] at cleared
      cases key : m.get? k with
      | none => rfl
      | some t => exact absurd ⟨by rw [key]; rfl, between⟩ cleared
    · rfl

/-- The lowest of the removed boundaries comes first among them. -/
theorem head?_within_eq_some_iff :
    (m.within lo hi).head? = some (k, t) ↔
      IsLeast {j ∈ m.boundaries | lo < j ∧ j < hi} k ∧ m.get? k = some t := by
  have sorted : (m.within lo hi).Pairwise fun x y => x.1 < y.1 := m.ascending.filter _
  constructor
  · intro head
    obtain ⟨rest, eq⟩ := List.head?_eq_some_iff.1 head
    obtain ⟨key, between⟩ := mem_within_iff.1 (List.mem_of_head? head)
    refine ⟨⟨⟨mem_boundaries_of_get? key, between⟩, fun j lower => ?_⟩, key⟩
    obtain ⟨u, key'⟩ := Option.isSome_iff_exists.1 lower.1
    have mem := mem_within_iff.2 ⟨key', lower.2⟩
    rw [eq, List.pairwise_cons] at sorted
    rw [eq, List.mem_cons] at mem
    rcases mem with same | mem
    · exact Nat.le_of_eq (congrArg Prod.fst same).symm
    · exact Nat.le_of_lt (sorted.1 _ mem)
  · rintro ⟨⟨⟨-, between⟩, least⟩, key⟩
    have mem := mem_within_iff.2 ⟨key, between⟩
    cases eq : m.within lo hi with
    | nil =>
      rw [eq] at mem
      cases mem
    | cons first rest =>
      rw [eq] at mem sorted
      rcases List.mem_cons.1 mem with same | later
      · rw [same]
        rfl
      · -- The first entry is one of them too, so none of the later ones is the least.
        have first_mem : (first.1, first.2) ∈ m.within lo hi := by
          rw [eq]
          exact List.mem_cons_self
        obtain ⟨key', between'⟩ := mem_within_iff.1 first_mem
        have le := least ⟨mem_boundaries_of_get? key', between'⟩
        have lt := (List.pairwise_cons.1 sorted).1 _ later
        exact absurd (Nat.lt_of_lt_of_le lt le) (Nat.lt_irrefl _)

/-! ### Tags after a change -/

theorem tagAt?_of_agree (le : k ≤ a) (key : k = 0 ∨ k ∈ n.boundaries)
    (same : ∀ j, k ≤ j → j ≤ a → n.get? j = m.get? j) (found : n.tagAt? a = some t) :
    m.tagAt? a = some t := by
  obtain ⟨j, governs, get⟩ := tagAt?_eq_some_iff.1 found
  have above : k ≤ j := by
    rcases key with rfl | key
    · exact Nat.zero_le j
    · by_contra below
      rw [mem_boundaries, governs.2 k (by omega) le] at key
      cases key
  refine tagAt?_eq_some_iff.2 ⟨j, ⟨governs.le, fun i lower upper => ?_⟩, ?_⟩
  · rw [← same i (by omega) upper]
    exact governs.2 i lower upper
  · rw [← same j above governs.le]
    exact get

/-- The tag at an address depends on the boundaries from any one below it on. -/
theorem tagAt?_congr (le : k ≤ a) (key : k = 0 ∨ k ∈ n.boundaries)
    (same : ∀ j, k ≤ j → j ≤ a → n.get? j = m.get? j) : n.tagAt? a = m.tagAt? a := by
  refine Option.ext fun t => ⟨tagAt?_of_agree le key same, ?_⟩
  have key' : k = 0 ∨ k ∈ m.boundaries := key.imp_right fun key => by
    rwa [mem_boundaries, ← same k (Nat.le_refl k) le]
  exact tagAt?_of_agree le key' fun j lower upper => (same j lower upper).symm

/-- Up to the lower address removal changes no tag. -/
theorem tagAt?_clearWithin_of_le (le : a ≤ lo) :
    (m.edit (m.clearWithin lo hi)).tagAt? a = m.tagAt? a := by
  refine tagAt?_congr (Nat.zero_le a) (.inl rfl) fun j _ upper => ?_
  rw [get?_clearWithin, if_neg (by omega)]

/-- From a boundary on that is left at or after the upper address, removal changes no tag. -/
theorem tagAt?_clearWithin_of_ge (key : k ∈ (m.edit (m.clearWithin lo hi)).boundaries)
    (above : hi ≤ k) (le : k ≤ a) : (m.edit (m.clearWithin lo hi)).tagAt? a = m.tagAt? a := by
  refine tagAt?_congr le (.inr key) fun j lower _ => ?_
  rw [get?_clearWithin, if_neg (by omega)]

/-- Up to the next boundary that is left, the tag at the lower address holds. -/
theorem tagAt?_clearWithin_of_forall (le : lo ≤ a)
    (next : ∀ k ∈ (m.edit (m.clearWithin lo hi)).boundaries, hi ≤ k → a < k) :
    (m.edit (m.clearWithin lo hi)).tagAt? a = m.tagAt? lo := by
  have governs : (m.edit (m.clearWithin lo hi)).Governs lo a := by
    refine ⟨le, fun j lower upper => ?_⟩
    by_cases above : hi ≤ j
    · rw [← Option.not_isSome_iff_eq_none]
      intro key
      exact Nat.not_lt.2 upper (next j key above)
    · rw [get?_clearWithin, if_pos (by omega)]
  rw [governs.tagAt?_eq_tagAt?, tagAt?_clearWithin_of_le (Nat.le_refl lo)]

/-- The blocks of a map are not empty and stand in ascending order. The first starts at the least
boundary, each later one where the one before it ends, and the last ends at the greatest. Every
address from the least boundary up to the greatest lies in one block, and the tag at the address is
that of the block.

Removal takes the boundaries strictly between two addresses and keeps all others. The tag is the
same at every address up to the lower one and from the next boundary on that is left at or after the
upper one; between the two the tag at the lower address holds. What is yielded is the tag of the
least boundary that is removed. -/
theorem blocks_agree_and_removal_exact (m : TagMap) :
    ((∀ b ∈ m.blocks, b.start < b.stop) ∧ m.blocks.Pairwise (fun b c => b.start < c.start) ∧
      (∀ b ∈ m.blocks.head?, IsLeast m.boundaries b.start) ∧
      m.blocks.IsChain (fun b c => b.stop = c.start) ∧
      (∀ b ∈ m.blocks.getLast?, IsGreatest m.boundaries b.stop) ∧
      ∀ least greatest, IsLeast m.boundaries least → IsGreatest m.boundaries greatest →
        ∀ a, least ≤ a → a < greatest →
          ∃ b, m.blocks.filter (·.contains a) = [b] ∧ m.tagAt? a = some b.tag) ∧
    ∀ lo hi, let removed := (m.removeWithin lo hi).value
      (∀ k, removed.2.get? k = if lo < k ∧ k < hi then none else m.get? k) ∧
      (∀ a ≤ lo, removed.2.tagAt? a = m.tagAt? a) ∧
      (∀ k ∈ removed.2.boundaries, hi ≤ k → ∀ a ≥ k, removed.2.tagAt? a = m.tagAt? a) ∧
      (∀ a ≥ lo, (∀ k ∈ removed.2.boundaries, hi ≤ k → a < k) →
        removed.2.tagAt? a = m.tagAt? lo) ∧
      ∀ t, removed.1 = some t ↔
        ∃ k, IsLeast {j ∈ m.boundaries | lo < j ∧ j < hi} k ∧ m.get? k = some t := by
  refine ⟨⟨fun b hb => start_lt_stop_of_mem_blocks hb, pairwise_start_blocks m,
    fun b first => isLeast_start_of_head? first, isChain_blocks m,
    fun b last => isGreatest_stop_of_getLast? last, ?_⟩, ?_⟩
  · intro least greatest lower upper a above below
    exact exists_filter_contains_eq ⟨least, lower.1, above⟩ ⟨greatest, upper.1, below⟩
  · intro lo hi removed
    refine ⟨get?_clearWithin m lo hi, fun a le => tagAt?_clearWithin_of_le le,
      fun k key above a le => tagAt?_clearWithin_of_ge key above le,
      fun a le next => tagAt?_clearWithin_of_forall le next, fun t => ?_⟩
    change (m.within lo hi).head?.map (·.2) = some t ↔ _
    rw [Option.map_eq_some_iff]
    constructor
    · rintro ⟨⟨k, _⟩, head, rfl⟩
      exact ⟨k, head?_within_eq_some_iff.1 head⟩
    · rintro ⟨k, least⟩
      exact ⟨(k, t), head?_within_eq_some_iff.2 least, rfl⟩

/-- A map that reaches up to the greatest address of 32 bits. -/
def wideMap : TagMap := .ofList [(3, .code), (7, .text), (9, .zero), (0xFFFFFFFF, .limit)]

theorem blocks_agree_and_removal_exact_wideMap :
    IsLeast wideMap.boundaries 3 ∧ IsGreatest wideMap.boundaries 0xFFFFFFFF ∧
      (∃ b, wideMap.blocks.filter (·.contains 8) = [b] ∧ wideMap.tagAt? 8 = some b.tag) ∧
      (wideMap.removeWithin 3 0xFFFFFFFF).value.1 = some .text ∧
      (wideMap.removeWithin 3 0xFFFFFFFF).value.2.tagAt? 0xFFFFFFFE = some .code ∧
      (wideMap.removeWithin 3 0xFFFFFFFF).value.2.tagAt? 0xFFFFFFFF = some .limit := by
  obtain ⟨⟨-, -, first, -, last, cover⟩, removal⟩ := blocks_agree_and_removal_exact wideMap
  have least := first ⟨3, 7, .code⟩ (by decide)
  have greatest := last ⟨9, 0xFFFFFFFF, .zero⟩ (by decide)
  obtain ⟨get, -, after, inside, lowest⟩ := removal 3 0xFFFFFFFF
  have kept : 0xFFFFFFFF ∈ (wideMap.removeWithin 3 0xFFFFFFFF).value.2.boundaries := by
    rw [mem_boundaries, get]
    decide
  have text : IsLeast {j ∈ wideMap.boundaries | 3 < j ∧ j < 0xFFFFFFFF} 7 := by
    refine ⟨⟨by rw [mem_boundaries]; decide, by decide⟩, fun j => ?_⟩
    rintro ⟨key, above, -⟩
    by_contra below
    have : j = 4 ∨ j = 5 ∨ j = 6 := by omega
    rcases this with rfl | rfl | rfl <;> cases key
  refine ⟨least, greatest, cover 3 _ least greatest 8 (by decide) (by decide),
    (lowest .text).2 ⟨7, text, by decide⟩, ?_, ?_⟩
  · rw [inside 0xFFFFFFFE (by decide) fun k _ le => by omega]
    decide
  · rw [after _ kept (Nat.le_refl _) _ (Nat.le_refl _)]
    decide

end TagMap

end MemoryAtlas
