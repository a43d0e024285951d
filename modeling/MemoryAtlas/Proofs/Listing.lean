import MemoryAtlas.Proofs.TagMap.InOrder
import MemoryAtlas.Proofs.Z80.Tiling
import MemoryAtlas.Traced.Promote

/-!
# References in a listing

The index of a listing groups references by their targets. It is an aid to look them up: what it
yields for an address is what a search through all instructions of the listing finds. Blocks are
listed in ascending order and so are the instructions of each, so references are found in the order
of their sources, and the first one from code is the one with the lowest source.

## Main definitions

* `ListingEntry.referencesTo`: the references of a block's instructions to an address.
* `Listing.Exact`: what the listing of a map holds.

## Main results

* `Listing.referrers_build`: the references to an address.
* `Listing.codeReferrer?_build`: the first of them from code.
* `Listing.pairwise_source_referrers`: references stand in the order of their sources.
* `Listing.exact_build`: a listing loses no reference and makes none up.
* `Traced.entryPoint?_build`: the first unclassified instruction that code refers to.
-/

namespace MemoryAtlas

open Z80

variable {t : RepeatCeilings} {m : Image} {tags : TagMap} {a : Nat}

theorem ReferenceIndex.getD_add (index : ReferenceIndex) (r : Reference) :
    (index.add r).getD a [] = if r.target = a then r :: index.getD a [] else index.getD a [] := by
  rw [add, Std.HashMap.getD_insert]
  by_cases same : r.target = a
  · rw [if_pos (beq_iff_eq.2 same), if_pos same, same]
  · rw [if_neg fun eq => same (beq_iff_eq.1 eq), if_neg same]

/-- Each group of an index holds the references added to it, last first. -/
theorem ReferenceIndex.getD_foldl_add (references : List Reference) (index : ReferenceIndex) :
    (references.foldl add index).getD a [] =
      (references.filter (·.target == a)).reverse ++ index.getD a [] := by
  induction references generalizing index with
  | nil => rfl
  | cons r rest ih =>
    rw [List.foldl_cons, ih, getD_add, List.filter_cons]
    by_cases same : r.target = a
    · rw [if_pos same, if_pos (beq_iff_eq.2 same), List.reverse_cons, List.append_assoc]
      rfl
    · rw [if_neg same, if_neg fun eq => same (beq_iff_eq.1 eq)]

namespace Listing

/-- The references of all instructions, in order. -/
def references (l : Listing) : List Reference := l.entries.flatMap ListingEntry.references

theorem referrers_build :
    (build t m tags).referrers a = (build t m tags).references.filter (·.target == a) := by
  have group := ReferenceIndex.getD_foldl_add (a := a) (build t m tags).references ∅
  rw [Std.HashMap.getD_empty, List.append_nil] at group
  exact (congrArg List.reverse group).trans (List.reverse_reverse _)

theorem codeReferrer?_build :
    (build t m tags).codeReferrer? a =
      (build t m tags).references.find? fun r => r.target == a && r.tag == .code := by
  rw [codeReferrer?, referrers_build, List.find?_filter]
  congr 1
  funext r
  rw [Bool.decide_and, Bool.decide_eq_true, Bool.decide_eq_true]

end Listing

/-! ### Order of sources -/

/-- In an ascending list the first element of a kind is the lowest. -/
theorem find?_eq_some_iff_of_ascending {α : Type} {key : α → Nat} {l : List α} {p : α → Bool} {r : α}
    (sorted : l.Pairwise fun r s => key r < key s) :
    l.find? p = some r ↔ r ∈ l ∧ p r = true ∧ ∀ s ∈ l, p s = true → key r ≤ key s := by
  -- Nothing of the kind stands before what is found, and what stands behind it is higher.
  have lowest : ∀ {r}, l.find? p = some r → ∀ s ∈ l, p s = true → s = r ∨ key r < key s := by
    intro r found s mem holds
    obtain ⟨-, before, after, rfl, others⟩ := List.find?_eq_some_iff_append.1 found
    rcases List.mem_append.1 mem with mem | mem
    · exact absurd holds (by simpa using others s mem)
    · rcases List.mem_cons.1 mem with rfl | mem
      · exact .inl rfl
      · exact .inr ((List.pairwise_cons.1 (List.pairwise_append.1 sorted).2.1).1 s mem)
  constructor
  · intro found
    refine ⟨List.mem_of_find?_eq_some found, List.find?_some found, fun s mem holds => ?_⟩
    rcases lowest found s mem holds with rfl | lt
    · exact Nat.le_refl _
    · exact Nat.le_of_lt lt
  · rintro ⟨mem, holds, least⟩
    cases found : l.find? p with
    | none => exact absurd holds (List.find?_eq_none.1 found r mem)
    | some first =>
      rcases lowest found r mem holds with rfl | lt
      · rfl
      · have := least first (List.mem_of_find?_eq_some found) (List.find?_some found)
        omega

namespace ListingEntry

/-- The references to `x` that the instructions of a block make, in order. -/
def referencesTo (e : ListingEntry) (x : Nat) : List Reference :=
  (e.instructions.filter fun i => i.target? = some x).map fun i =>
    { source := i.address
      target := x
      kind := if i.flow = .conditional ∨ i.flow = .jump then .location else .routine
      tag := e.block.tag }

theorem filter_references (e : ListingEntry) (x : Nat) :
    e.references.filter (·.target == x) = e.referencesTo x := by
  have kind : ∀ i : Instruction, i.referenceKind =
      if i.flow = .conditional ∨ i.flow = .jump then .location else .routine := fun i => by
    rw [Instruction.referenceKind]
    cases i.flow <;> rfl
  unfold references referencesTo
  induction e.instructions with
  | nil => rfl
  | cons i rest ih =>
    have reference : Reference.ofInstruction? e.block.tag i =
        i.target?.map fun y => ⟨i.address, y, i.referenceKind, e.block.tag⟩ := rfl
    rw [List.filterMap_cons, reference]
    cases target : i.target? with
    | none =>
      rw [List.filter_cons_of_neg (by simp [target])]
      exact ih
    | some y =>
      by_cases same : y = x
      · rw [List.filter_cons_of_pos (by simp [target, same]), List.map_cons, ← ih, ← kind i]
        simp [same]
      · rw [List.filter_cons_of_neg (by simp [target, same]), ← ih]
        simp [same]

theorem exists_of_mem_referencesTo {e : ListingEntry} {x : Nat} {r : Reference}
    (mem : r ∈ e.referencesTo x) : ∃ i ∈ e.instructions, r.source = i.address := by
  obtain ⟨i, found, rfl⟩ := List.mem_map.1 mem
  exact ⟨i, (List.mem_filter.1 found).1, rfl⟩

end ListingEntry

namespace Listing

theorem entries_build :
    (build t m tags).entries = tags.blocks.map fun b => ⟨b, instructions t m b.start b.stop⟩ := rfl

theorem referrers_build_eq_flatMap (x : Nat) :
    (build t m tags).referrers x = (build t m tags).entries.flatMap (·.referencesTo x) := by
  rw [referrers_build, references, List.filter_flatMap]
  simp only [ListingEntry.filter_references]

/-- References stand in the order of their sources. -/
theorem pairwise_source_referrers (x : Nat) :
    ((build t m tags).referrers x).Pairwise fun r s => r.source < s.source := by
  rw [referrers_build_eq_flatMap, entries_build, List.flatMap_map, List.pairwise_flatMap]
  constructor
  · -- Inside of a block, each instruction ends before the next ones start.
    intro b mem
    have tiles := tiles_instructions t m (Nat.le_of_lt (TagMap.start_lt_stop_of_mem_blocks mem))
    refine List.pairwise_map.2 (List.Pairwise.filter _ ?_)
    refine tiles.pairwise.imp_of_mem fun {i j} mem _ le => ?_
    exact Nat.lt_of_lt_of_le (tiles.bounds mem).2.1 le
  · -- Each block ends before the next ones start.
    refine (TagMap.pairwise_blocks tags).imp_of_mem fun {b c} mem mem' le r hr s hs => ?_
    obtain ⟨i, hi, source⟩ := ListingEntry.exists_of_mem_referencesTo hr
    obtain ⟨j, hj, source'⟩ := ListingEntry.exists_of_mem_referencesTo hs
    have below := bounds_of_mem_instructionsUntil _ t m hi
    have above := bounds_of_mem_instructionsUntil _ t m hj
    omega

/-- What the listing of a map holds. -/
structure Exact (l : Listing) (t : RepeatCeilings) (m : Image) (tags : TagMap) : Prop where
  /-- There is one entry for each block. -/
  blocks : l.entries.map (·.block) = tags.blocks
  /-- Entries are ascending. -/
  ascending : l.entries.Pairwise fun e f => e.block.stop ≤ f.block.start
  /-- An entry has the instructions of its block. -/
  instructions : ∀ e ∈ l.entries, e.instructions = instructions t m e.block.start e.block.stop
  /-- An address is referred to once by each instruction that has it as its destination. -/
  referrers : ∀ x, l.referrers x = l.entries.flatMap (·.referencesTo x)
  /-- References are ascending, so no source has two. -/
  sources : ∀ x, (l.referrers x).Pairwise fun r s => r.source < s.source
  /-- There is a reference from code if any of them is. -/
  codeReferrer_none : ∀ x, l.codeReferrer? x = none ↔ ∀ r ∈ l.referrers x, r.tag ≠ .code
  /-- And then it is the one with the lowest source. -/
  codeReferrer_some : ∀ x r, l.codeReferrer? x = some r ↔
    r ∈ l.referrers x ∧ r.tag = .code ∧ ∀ s ∈ l.referrers x, s.tag = .code → r.source ≤ s.source

/-- The listing of a map has one entry for each block, in ascending order, with the instructions of
the block. The references to an address are those of the instructions that have it as their
destination, each of them once, in the order of their sources; the one from code is the lowest. -/
theorem exact_build (t : RepeatCeilings) (m : Image) (tags : TagMap) :
    (build t m tags).Exact t m tags where
  blocks := by
    rw [entries_build, List.map_map]
    exact List.map_id _
  ascending := by
    rw [entries_build, List.pairwise_map]
    exact TagMap.pairwise_blocks tags
  instructions := by
    rw [entries_build]
    rintro e mem
    obtain ⟨b, -, rfl⟩ := List.mem_map.1 mem
    rfl
  referrers := referrers_build_eq_flatMap
  sources := pairwise_source_referrers
  codeReferrer_none := fun x => by simp [codeReferrer?]
  codeReferrer_some := fun x r => by
    rw [codeReferrer?, find?_eq_some_iff_of_ascending (pairwise_source_referrers x)]
    simp

end Listing

/-- An entry point is found by a search through all instructions. -/
theorem Traced.entryPoint?_build :
    entryPoint? (Listing.build t m tags) =
      ((Listing.build t m tags).entries.filter (·.block.tag == .unknown)).findSome? fun e =>
        e.instructions.findSome? fun i =>
          ((Listing.build t m tags).references.find? fun r =>
            r.target == i.address && r.tag == .code).map (i.address, ·) := by
  rw [entryPoint?]
  congr 1
  funext e
  congr 1
  funext i
  rw [Listing.codeReferrer?_build]

end MemoryAtlas
