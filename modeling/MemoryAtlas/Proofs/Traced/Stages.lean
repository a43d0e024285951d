import MemoryAtlas.Proofs.Fixpoint
import MemoryAtlas.Proofs.Phases.Inside
import MemoryAtlas.Proofs.Trace.CodeBlocks

/-!
# The maps between the phases

Classification with a trace goes through a map after each of its phases. Each of them is a
well-formed map of the range, and up to the phase that resolves unclassified blocks there is only
code and unclassified memory.

## Main definitions

* `Traced.seeded`, `Traced.extended`, `Traced.promoted`, `Traced.divided`, `Traced.merged`,
  `Traced.resolved`: the map after each phase but the last.
* `Traced.Unresolved`: a map of code and unclassified memory.

## Main results

* `Traced.value_classify`: the last phase turns the resolved map into the result.
* `Traced.wellFormed_resolved` and its like: the maps are well-formed.
* `Traced.unresolved_merged` and its like: the maps before the resolved one are unresolved.
-/

namespace MemoryAtlas.Traced

open Z80 TagMap

variable (s : Settings) (t : RepeatCeilings) (m : Image) (start stop : Nat) (blocks : List Span)

/-- The map with the executed blocks entered. -/
def seeded : TagMap := TagMap.edit ∅ (seed start stop blocks)

/-- The map after code is extended. -/
def extended : TagMap := (extendAll t m stop (seeded start stop blocks)).value.2

/-- The map after entry points are promoted. -/
def promoted : TagMap := (promoteAll t m stop (extended t m start stop blocks)).value.2

/-- The map after code is split at its terminal instructions. -/
def divided : TagMap :=
  (promoted t m start stop blocks).edit (splitAtTerminals t m (promoted t m start stop blocks))

/-- The map after blocks that jump on are merged. -/
def merged : TagMap := (mergeAll t m (divided t m start stop blocks)).value.2

/-- The map after unclassified blocks are data and text. -/
def resolved : TagMap :=
  (merged t m start stop blocks).edit (classifyUnknown s m (merged t m start stop blocks))

theorem value_classify :
    (classify s t m start stop blocks).value =
      (resolved s t m start stop blocks).edit
        (markZeroFill m (resolved s t m start stop blocks)) := by
  simp only [classify, Logged.value_bind, Logged.value_pure, value_perform]
  rfl

variable {s t m start stop blocks}

theorem wellFormed_rangeEdits (lt : start < stop) {u : Tag} (tag : u ≠ .limit) :
    (TagMap.edit ∅ (rangeEdits start stop u)).WellFormed start stop := by
  have get : ∀ a, (TagMap.edit ∅ (rangeEdits start stop u)).get? a =
      if a = stop then some .limit else if a = start then some u else none := by
    intro a
    simp only [rangeEdits, edit_cons, edit_nil, apply, SortedMap.get?_insert]
    rfl
  refine wellFormed_iff.2 ⟨⟨u, ?_⟩, ?_, fun a v key => ?_, fun a key => ?_⟩
  · rw [get, if_neg (by omega), if_pos rfl]
  · rw [get, if_pos rfl]
  · rw [get] at key
    split at key
    · omega
    · split at key
      · omega
      · cases key
  · rw [get] at key
    split at key
    · assumption
    · split at key
      · exact absurd (Option.some.inj key) tag
      · cases key

theorem mem_seedBlock {e : Edit} {b : Span} (mem : e ∈ seedBlock stop b) :
    e = .assign b.start .code ∨ e = .assign b.stop .unknown ∧ b.stop < stop := by
  rcases List.mem_cons.1 mem with rfl | mem
  · exact .inl rfl
  · split at mem
    · next below => exact .inr ⟨List.mem_singleton.1 mem, below⟩
    · cases mem

theorem wellFormed_seeded (lt : start < stop)
    (bounds : ∀ b ∈ blocks, start ≤ b.start ∧ b.start < b.stop ∧ b.stop ≤ stop) :
    (seeded start stop blocks).WellFormed start stop := by
  rw [seeded, seed, edit_append]
  refine (wellFormed_rangeEdits lt (by decide)).edit fun e mem => ?_
  obtain ⟨b, hb, mem⟩ := List.mem_flatMap.1 mem
  have := bounds b hb
  rcases mem_seedBlock mem with rfl | ⟨rfl, below⟩
  · exact ⟨by omega, by omega, by decide⟩
  · exact ⟨by omega, below, by decide⟩

theorem wellFormed_extended (h : (seeded start stop blocks).WellFormed start stop) :
    (extended t m start stop blocks).WellFormed start stop :=
  fixpoint_keeps (I := fun tags => tags.WellFormed start stop)
    (fun _ _ step h => wellFormed_extend h step) h

theorem wellFormed_promoted (h : (seeded start stop blocks).WellFormed start stop) :
    (promoted t m start stop blocks).WellFormed start stop :=
  fixpoint_keeps (I := fun tags => tags.WellFormed start stop)
    (fun _ _ step h => wellFormed_promote h step) (wellFormed_extended h)

theorem wellFormed_divided (h : (seeded start stop blocks).WellFormed start stop) :
    (divided t m start stop blocks).WellFormed start stop := by
  have promoted := wellFormed_promoted (t := t) (m := m) h
  exact promoted.edit fun _ mem => inside_splitAtTerminals promoted mem

theorem wellFormed_merged (h : (seeded start stop blocks).WellFormed start stop) :
    (merged t m start stop blocks).WellFormed start stop :=
  fixpoint_keeps (I := fun tags => tags.WellFormed start stop)
    (fun _ _ step h => wellFormed_merge h step) (wellFormed_divided h)

theorem wellFormed_resolved (h : (seeded start stop blocks).WellFormed start stop) :
    (resolved s t m start stop blocks).WellFormed start stop := by
  have merged := wellFormed_merged (t := t) (m := m) h
  exact merged.edit fun _ mem => inside_classifyUnknown merged mem

/-- The blocks of a set of executed addresses make a well-formed map. -/
theorem wellFormed_seeded_codeBlocks (lt : start < stop) {executed : List Nat}
    (h : Trace.AddressesOf ⟨start, stop⟩ executed) :
    (seeded start stop (codeBlocks t m executed stop)).WellFormed start stop := by
  refine wellFormed_seeded lt fun b hb => ?_
  obtain ⟨mem, nonempty, le⟩ := (codeBlocks_spec h).1 b hb
  exact ⟨(h.2 b.start mem).1, nonempty, le⟩

/-! ### Tags before unclassified blocks are resolved -/

section Unresolved

variable {tags : TagMap} {edits : List Edit} {next : Logged TagMap} {x : Nat}

/-- Until unclassified blocks are resolved there is only code and unclassified memory. -/
def Unresolved (tags : TagMap) : Prop :=
  ∀ a u, tags.get? a = some u → u = .code ∨ u = .unknown ∨ u = .limit

theorem Unresolved.edit (h : Unresolved tags)
    (tag : ∀ a u, .assign a u ∈ edits → u = .code ∨ u = .unknown ∨ u = .limit) :
    Unresolved (tags.edit edits) := by
  intro a u key
  rcases get?_edit_eq_some key with key | mem
  · exact h a u key
  · exact tag a u mem

theorem unresolved_seeded : Unresolved (seeded start stop blocks) := by
  have empty : Unresolved ∅ := fun a u key => by cases key
  refine empty.edit fun a u mem => ?_
  rcases List.mem_append.1 mem with mem | mem
  · simp only [rangeEdits, List.mem_cons, List.not_mem_nil, or_false, Edit.assign.injEq] at mem
    rcases mem with ⟨-, rfl⟩ | ⟨-, rfl⟩
    · exact .inr (.inl rfl)
    · exact .inr (.inr rfl)
  · obtain ⟨b, -, mem⟩ := List.mem_flatMap.1 mem
    rcases mem_seedBlock mem with eq | ⟨eq, -⟩
    · exact .inl (Edit.assign.inj eq).2
    · exact .inr (.inl (Edit.assign.inj eq).2)

/-- The boundary at the end of a run of code that grows is unclassified. -/
theorem eq_unknown_of_mem_findTerminal {a : Nat} {u : Tag}
    (mem : .assign a u ∈ (findTerminal t m tags x stop (some .unknown)).edits) :
    u = .unknown := by
  obtain ⟨last, v, -, given, -, eq⟩ := mem_runBoundary mem
  rw [(Edit.assign.inj eq).2]
  exact (Option.some.inj given).symm

theorem unresolved_extend (h : Unresolved tags) (step : extend t m stop tags = some next) :
    Unresolved next.value := by
  obtain ⟨b, -, rfl⟩ := Option.map_eq_some_iff.1 step
  refine h.edit fun a u mem => ?_
  rcases List.mem_cons.1 mem with eq | mem
  · cases eq
  · exact .inr (.inl (eq_unknown_of_mem_findTerminal mem))

theorem unresolved_promote (h : Unresolved tags) (step : promote t m stop tags = some next) :
    Unresolved next.value := by
  obtain ⟨found, -, rfl⟩ := Option.map_eq_some_iff.1 step
  refine h.edit fun a u mem => ?_
  rcases List.mem_cons.1 mem with eq | mem
  · exact .inl (Edit.assign.inj eq).2
  · exact .inr (.inl (eq_unknown_of_mem_findTerminal mem))

theorem unresolved_promoted : Unresolved (promoted t m start stop blocks) :=
  fixpoint_keeps (fun _ _ step h => unresolved_promote h step)
    (fixpoint_keeps (fun _ _ step h => unresolved_extend h step) unresolved_seeded)

theorem unresolved_divided : Unresolved (divided t m start stop blocks) := by
  refine unresolved_promoted.edit fun a u mem => ?_
  obtain ⟨b, -, -, i, -, -, -, eq⟩ := mem_splitAtTerminals mem
  exact .inl (Edit.assign.inj eq).2

theorem unresolved_merge (h : Unresolved tags) (step : merge t m tags = some next) :
    Unresolved next.value := by
  obtain ⟨b, -, c, -, -, -, -, -, erased⟩ := exists_of_merge step
  intro a u key
  rw [erased, SortedMap.get?_erase] at key
  split at key
  · cases key
  · exact h a u key

theorem unresolved_merged : Unresolved (merged t m start stop blocks) :=
  fixpoint_keeps (fun _ _ step h => unresolved_merge h step) unresolved_divided

end Unresolved

end MemoryAtlas.Traced
