import MemoryAtlas.Proofs.Heuristic.Boundaries
import MemoryAtlas.Proofs.Traced.Stages

/-!
# Classification covers its range

With a trace or without one, the map of a range starts at the start of the range, ends at its end,
and says of every address in between what it holds: no block is left unclassified.

## Main definitions

* `Edit.Settles`: the edit does not leave a boundary unclassified.

## Main results

* `Heuristic.wellFormed_classify`, `Traced.wellFormed_classify`: both ways of classification yield
  well-formed maps.
* `Heuristic.settled_classify`, `Traced.settled_classify`: they leave nothing unclassified.
* `classify_covers`: classification succeeds, if its trace can be read, and covers the range.
-/

namespace MemoryAtlas

open Z80 TagMap

variable {s : Settings} {t : RepeatCeilings} {m : Image} {tags : TagMap} {start stop a : Nat}
  {range : Span} {u : Tag} {e : Edit} {edits : List Edit} {blocks : List Span}

/-! ### Nothing unclassified -/

/-- No boundary of the map is unclassified. -/
def TagMap.Settled (tags : TagMap) : Prop := ∀ a, tags.get? a ≠ some .unknown

theorem TagMap.hasUnknown_eq_false_iff : tags.hasUnknown = false ↔ tags.Settled := by
  simp only [hasUnknown, List.any_eq_false, beq_iff_eq, Settled, ne_eq, SortedMap.get?_eq_some_iff]
  constructor
  · exact fun h a mem => h _ mem rfl
  · rintro h ⟨a, u⟩ mem rfl
    exact h a mem

/-- The edit does not leave a boundary unclassified. -/
def Edit.Settles (e : Edit) : Prop := ∀ a, e ≠ .assign a .unknown

theorem TagMap.Settled.edit (h : tags.Settled) (settles : ∀ e ∈ edits, e.Settles) :
    (tags.edit edits).Settled := by
  intro a key
  rcases get?_edit_eq_some key with key | mem
  · exact h a key
  · exact settles _ mem a rfl

theorem settles_assign (known : u ≠ .unknown) : (Edit.assign a u).Settles := by
  intro x eq
  exact known (Edit.assign.inj eq).2

theorem settles_markText (mem : e ∈ markText s m range) : e.Settles := by
  obtain ⟨x, u, rfl, -, -, rfl | rfl⟩ := mem_markText mem
  all_goals exact settles_assign (by decide)

theorem settles_markTextInCode (mem : e ∈ markTextInCode s m range) : e.Settles := by
  obtain ⟨x, u, rfl, -, -, rfl | rfl | rfl⟩ := mem_markTextInCode mem
  all_goals exact settles_assign (by decide)

theorem settles_markZeroFill (mem : e ∈ markZeroFill m tags) : e.Settles := by
  obtain ⟨b, -, -, rfl⟩ := mem_markZeroFill mem
  exact settles_assign (by decide)

/-! ### Without a trace -/

namespace Heuristic

theorem settles_splitLeadingZeros (mem : e ∈ splitLeadingZeros m tags) : e.Settles := by
  obtain ⟨b, -, x, u, rfl, -, -, rfl | rfl⟩ := mem_splitLeadingZeros mem
  all_goals exact settles_assign (by decide)

theorem settles_mergeData (mem : e ∈ mergeData tags) : e.Settles := by
  obtain ⟨x, y, u, v, -, -, -, -, rfl | rfl⟩ := mem_mergeData mem
  · exact settles_assign (by decide)
  · intro a eq
    cases eq

/-- What holds of the map of a sweep and is kept by the edits of every later phase holds of the
result. -/
theorem classify_induction {motive : TagMap → Prop}
    (sweep : motive (sweep t m start stop).value)
    (splitLeadingZeros : ∀ tags, motive tags → motive (tags.edit (splitLeadingZeros m tags)))
    (markZeroFill : ∀ tags, motive tags → motive (tags.edit (markZeroFill m tags)))
    (mergeData : ∀ tags, motive tags → motive (tags.edit (mergeData tags)))
    (markText : ∀ tags, motive tags → motive (tags.edit
      ((tags.blocksTagged .bytes).flatMap fun b => markText s m b.span)))
    (markTextInCode : ∀ tags, motive tags → motive (tags.edit
      ((tags.blocksTagged .code).flatMap fun b => markTextInCode s m b.span))) :
    motive (classify s t m start stop).value := by
  simp only [classify, Logged.value_bind, Logged.value_pure, value_perform]
  apply markTextInCode
  apply markText
  apply mergeData
  apply markZeroFill
  apply splitLeadingZeros
  exact sweep

theorem wellFormed_classify (lt : start < stop) :
    (classify s t m start stop).value.WellFormed start stop := by
  apply classify_induction (motive := fun tags => tags.WellFormed start stop)
  · exact wellFormed_sweep lt
  · exact fun tags h => h.edit fun _ mem => inside_splitLeadingZeros h mem
  · exact fun tags h => h.edit fun _ mem => inside_markZeroFill h mem
  · exact fun tags h => h.edit fun _ mem => inside_mergeData h mem
  · refine fun tags h => h.edit fun e mem => ?_
    obtain ⟨b, hb, mem⟩ := List.mem_flatMap.1 mem
    exact inside_markText h (List.mem_of_mem_filter hb) mem
  · refine fun tags h => h.edit fun e mem => ?_
    obtain ⟨b, hb, mem⟩ := List.mem_flatMap.1 mem
    exact inside_markTextInCode h (List.mem_of_mem_filter hb) mem

theorem settled_classify (lt : start < stop) : (classify s t m start stop).value.Settled := by
  apply classify_induction (motive := Settled)
  · intro a key
    rcases tag_sweep lt key with tag | tag | tag <;> cases tag
  · exact fun tags h => h.edit fun _ mem => settles_splitLeadingZeros mem
  · exact fun tags h => h.edit fun _ mem => settles_markZeroFill mem
  · exact fun tags h => h.edit fun _ mem => settles_mergeData mem
  · refine fun tags h => h.edit fun e mem => ?_
    obtain ⟨b, -, mem⟩ := List.mem_flatMap.1 mem
    exact settles_markText mem
  · refine fun tags h => h.edit fun e mem => ?_
    obtain ⟨b, -, mem⟩ := List.mem_flatMap.1 mem
    exact settles_markTextInCode mem

end Heuristic

/-! ### With a trace -/

namespace Traced

theorem settles_classifyUnknown (mem : e ∈ classifyUnknown s m tags) : e.Settles := by
  obtain ⟨b, -, -, x, u, rfl, -, -, rfl | rfl⟩ := mem_classifyUnknown mem
  all_goals exact settles_assign (by decide)

/-- Once unclassified blocks are data and text, nothing is unclassified: every unclassified boundary
starts a block, as it is not the end. -/
theorem settled_edit_classifyUnknown (h : tags.WellFormed start stop) :
    (tags.edit (classifyUnknown s m tags)).Settled := by
  intro a key
  rcases get?_edit_eq_some key with old | mem
  · -- An old boundary would start an unclassified block, which was set to bytes or text.
    have below := h.lt_stop old (by decide)
    have upper : ∃ j, a < j ∧ (tags.get? j).isSome := ⟨stop, below, by simp [h.get?_stop]⟩
    obtain ⟨b, hb, rfl, tag, -⟩ :=
      exists_mem_blocks ⟨Nat.le_refl a, fun j _ _ => by omega⟩ old upper
    have set : .assign b.start .bytes ∈ classifyUnknown s m tags :=
      List.mem_flatMap.2 ⟨b, List.mem_filter.2 ⟨hb, by simp [tag]⟩, List.mem_cons_self⟩
    have kept : .clear b.start ∉ classifyUnknown s m tags := by
      intro mem
      obtain ⟨c, hc, unknown, x, u, eq, -⟩ := mem_classifyUnknown mem
      cases eq
    obtain ⟨u, mem, key'⟩ := exists_get?_edit (m := tags) set kept
    rw [key] at key'
    cases key'
    exact settles_classifyUnknown mem _ rfl
  · exact settles_classifyUnknown mem _ rfl

theorem wellFormed_classify (h : (seeded start stop blocks).WellFormed start stop) :
    (classify s t m start stop blocks).value.WellFormed start stop := by
  have resolved := wellFormed_resolved (s := s) (t := t) (m := m) h
  rw [value_classify]
  exact resolved.edit fun _ mem => inside_markZeroFill resolved mem

theorem settled_classify (h : (seeded start stop blocks).WellFormed start stop) :
    (classify s t m start stop blocks).value.Settled := by
  rw [value_classify]
  exact (settled_edit_classifyUnknown (wellFormed_merged h)).edit
    fun _ mem => settles_markZeroFill mem

end Traced

/-! ### Either way -/

/-- Without a trace or with one that can be read, classification yields a map that starts at the
start of the range, ends at its end and nowhere else, and leaves nothing unclassified. -/
theorem classify_covers (lt : range.start < range.stop) {trace : Option Trace}
    (readable : ∀ file ∈ trace, ∃ executed,
      (file.addresses range s.traceFormat).run.value = .ok executed) :
    ∃ tags, (classify s t m range trace).run.value = .ok tags ∧
      tags.WellFormed range.start range.stop ∧ tags.hasUnknown = false := by
  have either : ∃ tags, (classifyRange s t m range trace).run.value = .ok tags ∧
      tags.WellFormed range.start range.stop ∧ tags.Settled := by
    cases trace with
    | none => exact ⟨_, rfl, Heuristic.wellFormed_classify lt, Heuristic.settled_classify lt⟩
    | some file =>
      obtain ⟨executed, read⟩ := readable file rfl
      have set := Trace.yields_addresses file range s.traceFormat executed read
      have seeded := Traced.wellFormed_seeded_codeBlocks (t := t) (m := m) lt set
      refine ⟨(Traced.classify s t m range.start range.stop _).value, ?_,
        Traced.wellFormed_classify seeded, Traced.settled_classify seeded⟩
      rw [classifyRange, Trace.value_bind_of_ok read]
      rfl
  -- Around the classification proper there are only reports.
  obtain ⟨tags, done, wellFormed, settled⟩ := either
  refine ⟨tags, ?_, wellFormed, hasUnknown_eq_false_iff.2 settled⟩
  rw [classify, if_neg (Nat.not_le_of_lt lt), Trace.value_bind_of_ok (Trace.value_report _),
    Trace.value_bind_of_ok done]
  rfl

/-- A call that ran, by the log of its address, and what lies around it. -/
theorem classify_covers_call :
    ∃ tags, (classify .usual .usual ⟨0, #[0xCD, 0x05, 0x00, 0xC9, 0x41, 0xC9], by decide⟩ ⟨0, 8⟩
        (some ⟨"run.log", .ok #[0x24, 0x30, 0x30, 0x30, 0x30, 0x0A]⟩)).run.value = .ok tags ∧
      tags.WellFormed 0 8 ∧ tags.hasUnknown = false := by
  apply classify_covers (by decide)
  rintro file ⟨⟩
  exact ⟨[0], by decide +kernel⟩

end MemoryAtlas
