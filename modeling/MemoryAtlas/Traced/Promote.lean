import MemoryAtlas.Fixpoint
import MemoryAtlas.Listing
import MemoryAtlas.Traced.Terminal

/-!
# Promoting entry points

An unclassified instruction that code refers to is code as well, up to the end of its run.

## Main definitions

* `entryPoint?`: the first unclassified instruction that code refers to.
* `promote`: its promotion to code.
* `promoteAll`: promotion until code refers to no unclassified instruction.
-/

namespace MemoryAtlas.Traced

open Z80

/-- The first instruction of an unclassified block that code refers to, with the reference. -/
def entryPoint? (l : Listing) : Option (Nat × Reference) :=
  (l.entries.filter (·.block.tag == .unknown)).findSome? fun e =>
    e.instructions.findSome? fun i => (l.codeReferrer? i.address).map (i.address, ·)

/-- The edits that promote an address to code, up to the end of its run and at most `stop`. -/
def promotion (t : RepeatCeilings) (m : Image) (stop : Nat) (tags : TagMap) (a : Nat) :
    List Edit :=
  .assign a .code :: (findTerminal t m (tags.insert a .code) a stop (some .unknown)).edits

/-- The promotion of the first entry point, if there is one. -/
def promote (t : RepeatCeilings) (m : Image) (stop : Nat) (tags : TagMap) :
    Option (Logged TagMap) :=
  (entryPoint? (Listing.build t m tags)).map fun found => do
    .report (.referenced found.2.kind found.1 found.2.source)
    tags.perform (promotion t m stop tags found.1)

/-! ### Promotion ends -/

/-- An entry point lies in an unclassified block. -/
theorem mem_block_of_entryPoint? {t : RepeatCeilings} {m : Image} {tags : TagMap}
    {found : Nat × Reference} (h : entryPoint? (Listing.build t m tags) = some found) :
    ∃ b ∈ tags.blocks, b.tag = .unknown ∧ b.start ≤ found.1 ∧ found.1 < b.stop := by
  obtain ⟨e, he, h⟩ := List.exists_of_findSome?_eq_some h
  obtain ⟨i, hi, h⟩ := List.exists_of_findSome?_eq_some h
  obtain ⟨r, -, rfl⟩ := Option.map_eq_some_iff.1 h
  obtain ⟨he, unknown⟩ := List.mem_filter.1 he
  obtain ⟨b, hb, rfl⟩ := List.mem_map.1 he
  have inRange := bounds_of_mem_instructionsUntil _ t m hi
  exact ⟨b, hb, by simpa using unknown, inRange.1,
    Nat.lt_of_lt_of_le inRange.2.1 inRange.2.2⟩

/-- The address of an entry point is no boundary of code. -/
theorem get?_ne_code_of_entryPoint? {t : RepeatCeilings} {m : Image} {tags : TagMap}
    {found : Nat × Reference} (h : entryPoint? (Listing.build t m tags) = some found) :
    tags.get? found.1 ≠ some .code := by
  obtain ⟨b, hb, unknown, above, below⟩ := mem_block_of_entryPoint? h
  rcases Nat.eq_or_lt_of_le above with eq | lt
  · rw [← eq, TagMap.get?_start_of_mem_blocks hb, unknown]
    decide
  · rw [TagMap.get?_eq_none_of_mem_blocks hb lt below]
    decide

/-- The addresses below `stop` or below some boundary. -/
def reach (stop : Nat) (tags : TagMap) : Nat := max stop (tags.keys.foldr max 0)

theorem foldr_max_insertEntry (a : Nat) (t : Tag) (l : List (Nat × Tag)) :
    ((SortedMap.insertEntry a t l).map (·.1)).foldr max 0 = max a ((l.map (·.1)).foldr max 0) := by
  induction l with
  | nil => rfl
  | cons d rest ih =>
    rw [SortedMap.insertEntry]
    split
    · rfl
    · split
      · next eq =>
        subst eq
        simp only [List.map_cons, List.foldr_cons]
        omega
      · simp only [List.map_cons, List.foldr_cons, ih]
        omega

theorem reach_insert (stop : Nat) (tags : TagMap) (a : Nat) (t : Tag) :
    reach stop (tags.insert a t) = max a (reach stop tags) := by
  have := foldr_max_insertEntry a t tags.entries
  simp only [reach, SortedMap.keys, SortedMap.insert, this]
  omega

theorem le_foldr_max {n : Nat} {l : List Nat} (h : n ∈ l) : n ≤ l.foldr max 0 := by
  induction l with
  | nil => simp at h
  | cons d rest ih =>
    rw [List.foldr_cons]
    rcases List.mem_cons.1 h with rfl | h
    · omega
    · have := ih h
      omega

theorem lt_reach_of_mem_blocks (stop : Nat) {tags : TagMap} {b : Block} (h : b ∈ tags.blocks)
    {a : Nat} (below : a < b.stop) : a < reach stop tags := by
  obtain ⟨upper, hb⟩ := TagMap.get?_stop_of_mem_blocks h
  have mem : b.stop ∈ tags.keys := List.mem_map_of_mem (SortedMap.get?_eq_some_iff.1 hb)
  have := le_foldr_max mem
  simp only [reach]
  omega

/-- The addresses in reach that are no boundary of code. -/
def unpromoted (stop : Nat) (tags : TagMap) : Nat :=
  (List.range (reach stop tags)).countP fun a => tags.get? a != some .code

theorem countP_lt_countP {α : Type} {p q : α → Bool} {l : List α} {a : α} (mem : a ∈ l)
    (imp : ∀ x ∈ l, p x = true → q x = true) (hq : q a = true) (hp : p a = false) :
    l.countP p < l.countP q := by
  obtain ⟨before, after, rfl⟩ := List.append_of_mem mem
  have left : before.countP p ≤ before.countP q :=
    List.countP_mono_left fun x hx => imp x (by simp [hx])
  have right : after.countP p ≤ after.countP q :=
    List.countP_mono_left fun x hx => imp x (by simp [hx])
  simp only [List.countP_append, List.countP_cons, hq, hp, if_true, Bool.false_eq_true, if_false]
  omega

/-- A promotion enters a boundary of code where there was none, and removes none. -/
theorem unpromoted_promote (t : RepeatCeilings) (m : Image) (stop : Nat) (tags : TagMap)
    (next : Logged TagMap) (h : promote t m stop tags = some next) :
    unpromoted stop next.value < unpromoted stop tags := by
  obtain ⟨found, entry, rfl⟩ := Option.map_eq_some_iff.1 h
  obtain ⟨b, hb, -, -, below⟩ := mem_block_of_entryPoint? entry
  have inReach := lt_reach_of_mem_blocks stop hb below
  have fresh := get?_ne_code_of_entryPoint? entry
  simp only [Logged.value_bind, TagMap.value_perform, promotion, TagMap.edit_cons, TagMap.apply]
  rcases edits_findTerminal_some t m (tags.insert found.1 .code) found.1 stop .unknown with
    none | ⟨a, above, below, free, one⟩
  · have same : reach stop (tags.insert found.1 .code) = reach stop tags := by
      rw [reach_insert]
      omega
    rw [none, TagMap.edit_nil, unpromoted, unpromoted, same]
    refine countP_lt_countP (List.mem_range.2 inReach) (fun x _ hx => ?_) (by simpa using fresh)
      (by simp)
    rw [SortedMap.get?_insert] at hx
    split at hx <;> simp_all
  · have same : reach stop ((tags.insert found.1 .code).insert a .unknown) = reach stop tags := by
      have : a < reach stop tags := by
        simp only [reach]
        omega
      rw [reach_insert, reach_insert]
      omega
    rw [one, TagMap.edit_cons, TagMap.edit_nil, TagMap.apply, unpromoted, unpromoted, same]
    refine countP_lt_countP (List.mem_range.2 inReach) (fun x _ hx => ?_) (by simpa using fresh)
      ?_
    · rw [SortedMap.get?_insert, if_neg (by omega)] at free
      rw [SortedMap.get?_insert, SortedMap.get?_insert] at hx
      by_cases atEnd : x = a
      · simp [atEnd, free]
      · rw [if_neg atEnd] at hx
        split at hx <;> simp_all
    · rw [SortedMap.get?_insert, SortedMap.get?_insert, if_neg (by omega)]
      simp

/-- Promotion until there is no entry point left, with the number of promotions. -/
def promoteAll (t : RepeatCeilings) (m : Image) (stop : Nat) (tags : TagMap) :
    Logged (Nat × TagMap) :=
  fixpoint (promote t m stop) (unpromoted stop) (unpromoted_promote t m stop) tags

end MemoryAtlas.Traced
