import MemoryAtlas.Proofs.Traced.Merging
import MemoryAtlas.Proofs.Traced.Splitting
import MemoryAtlas.Proofs.Traced.Stages

/-!
# The outline of a map

Once extension and promotion are done, it is settled which addresses are code. Splitting and merging
enter and remove boundaries of code inside code, and what is left is resolved to kinds of data. None
of them moves a border between code and anything else.

## Main definitions

* `TagMap.outline`: code, the end of the range or anything else, at an address.

## Main results

* `TagMap.outline_edit`: boundaries of the kind that already holds keep the outline.
* `Traced.outline_splitAtTerminals`, `Traced.outline_merge`, `Traced.outline_classifyUnknown`,
  `Traced.outline_markZeroFill`: the phases after promotion keep the outline.
-/

namespace MemoryAtlas

open Z80 TagMap

variable {s : Settings} {t : RepeatCeilings} {m : Image} {tags : TagMap} {a x : Nat} {u : Tag}
  {edits : List Edit}

/-- The kind of a tag: code, the end of a range, or anything else. -/
def Tag.kind : Tag → Tag
  | code => code
  | limit => limit
  | bytes | text | zero | unknown => unknown

theorem Tag.kind_eq_code_iff : u.kind = .code ↔ u = .code := by
  cases u <;> decide

theorem Tag.kind_eq_unknown_iff : u.kind = .unknown ↔ u ≠ .code ∧ u ≠ .limit := by
  cases u <;> decide

namespace TagMap

/-- The kind of the tag at an address. -/
def outline (tags : TagMap) (a : Nat) : Option Tag := (tags.tagAt? a).map Tag.kind

theorem outline_eq_code_iff : tags.outline a = some .code ↔ tags.tagAt? a = some .code := by
  simp [outline, Tag.kind_eq_code_iff]

theorem outline_insert (same : tags.outline x = some u.kind) :
    outline (tags.insert x u) a = tags.outline a := by
  by_cases governs : tags.Governs x a
  · rw [outline, tagAt?_insert_of_governs governs, outline, governs.tagAt?_eq_tagAt?]
    exact same.symm
  · rw [outline, tagAt?_insert_of_not_governs governs, outline]

/-- Boundaries of the kind that already holds keep the outline. -/
theorem outline_edit
    (same : ∀ e ∈ edits, ∃ x u, e = .assign x u ∧ tags.outline x = some u.kind) :
    (tags.edit edits).outline a = tags.outline a := by
  induction edits generalizing tags with
  | nil => rfl
  | cons e edits ih =>
    obtain ⟨x, u, rfl, first⟩ := same e List.mem_cons_self
    rw [edit_cons, apply, ih, outline_insert first]
    intro e mem
    obtain ⟨y, v, rfl, later⟩ := same e (List.mem_cons_of_mem _ mem)
    exact ⟨y, v, rfl, by rw [outline_insert first, later]⟩

end TagMap

theorem outline_of_mem_blocks {b : Block} (hb : b ∈ tags.blocks) (above : b.start ≤ a)
    (below : a < b.stop) : tags.outline a = some b.tag.kind := by
  rw [outline, tagAt?_of_mem_blocks hb above below]
  rfl

namespace Traced

theorem outline_splitAtTerminals :
    (tags.edit (splitAtTerminals t m tags)).outline a = tags.outline a := by
  rw [outline, tagAt?_split, outline]

theorem outline_merge {next : Logged TagMap} (step : merge t m tags = some next) :
    next.value.outline a = tags.outline a := by
  rw [outline, tagAt?_merge step, outline]

theorem outline_classifyUnknown :
    (tags.edit (classifyUnknown s m tags)).outline a = tags.outline a := by
  refine outline_edit fun e mem => ?_
  obtain ⟨b, hb, unknown, y, u, rfl, above, below, tag⟩ := mem_classifyUnknown mem
  refine ⟨y, u, rfl, ?_⟩
  rw [outline_of_mem_blocks hb above below, unknown]
  rcases tag with rfl | rfl
  all_goals rfl

theorem outline_markZeroFill : (tags.edit (markZeroFill m tags)).outline a = tags.outline a := by
  refine outline_edit fun e mem => ?_
  obtain ⟨b, hb, bytes, rfl⟩ := mem_markZeroFill mem
  refine ⟨b.start, .zero, rfl, ?_⟩
  rw [outline_of_mem_blocks hb (Nat.le_refl _) (start_lt_stop_of_mem_blocks hb), bytes]
  rfl

end Traced

end MemoryAtlas
