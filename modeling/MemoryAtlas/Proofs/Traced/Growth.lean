import MemoryAtlas.Proofs.Traced.Stages

/-!
# How code grows

Extension and promotion make code grow in passes. A pass takes an address of unclassified memory,
makes it code up to the next boundary, and follows the run of code from there. If the run ends in a
terminal instruction, memory is unclassified again from the end of that instruction on.

The run stops at a boundary of code only if one of its instructions ends there. One that goes over
the boundary takes the run into code that is already there, and if a terminal instruction ends
inside of it, the pass cuts off the rest of that code.

## Main definitions

* `Traced.Growth`: a pass, by the map before it and the address it starts from.
* `Traced.Growth.CutsOff`, `Traced.Growth.Covers`: the addresses that a pass takes from code and
  those that it makes code.
* `Traced.Opens`: the map of a pass before it enters a boundary.
* `Traced.growths`: the passes of a classification, first to last.
* `Traced.Lost`: the address is cut off by a pass and covered by none after it.

## Main results

* `Traced.Opens.code_iff`: the code after one pass.
* `Traced.code_fixpoint_iff`: the code after repeated passes.
* `Traced.code_promoted_iff`: the code after extension and promotion.
-/

namespace MemoryAtlas.Traced

open Z80 TagMap

/-- A pass that makes code grow: the map before it, and the address that its run of code starts
from. -/
structure Growth where
  before : TagMap
  origin : Nat
  deriving DecidableEq

namespace Growth

variable (t : RepeatCeilings) (m : Image) (stop : Nat) (g : Growth) (a : Nat)

/-- The run of code that the pass follows. -/
def run : List Instruction := codeRun t m g.before g.origin stop

/-- The pass takes an address from code: its run goes over the start of the block of code that holds
the address, and ends in a terminal instruction inside the block, at or below the address. -/
def CutsOff : Prop :=
  ∃ b ∈ g.before.blocks, b.tag = .code ∧ a < b.stop ∧
    (∃ i ∈ g.run t m stop, i.address < b.start ∧ b.start < i.stop) ∧
      ∃ last, (g.run t m stop).getLast? = some last ∧ last.isTerminal = true ∧
        b.start < last.stop ∧ last.stop ≤ a

/-- The pass makes an address code: its run goes past the address, and there is no boundary on the
way. -/
def Covers : Prop :=
  g.before.Governs g.origin a ∧ ∃ last, (g.run t m stop).getLast? = some last ∧ a < last.stop

/-- The pass enters a boundary of unclassified memory: its run ends there in a terminal instruction,
below the end of the range and where there is no boundary. -/
def Enters (e : Nat) : Prop :=
  e < stop ∧ g.before.get? e = none ∧
    ∃ last, (g.run t m stop).getLast? = some last ∧ last.isTerminal = true ∧ last.stop = e

variable {t m stop g a} {start e : Nat}

theorem Covers.not_cutsOff (h : g.Covers t m stop a) : ¬ g.CutsOff t m stop a := by
  obtain ⟨-, last, found, past⟩ := h
  rintro ⟨-, -, -, -, -, last', found', -, -, le⟩
  cases Option.some.inj (found.symm.trans found')
  omega

/-- The run of a pass ends in a terminal instruction, at a boundary of code or at the end of the
range. No instruction before the last ends at a boundary of code. -/
theorem run_spec (lt : g.origin < stop) :
    ∃ init last, g.run t m stop = init ++ [last] ∧
      (∀ i ∈ init, g.before.get? i.stop ≠ some .code) ∧
        (last.isTerminal = true ∨ g.before.get? last.stop = some .code ∨ last.stop = stop) ∧
          Tiles g.origin (init ++ [last]) last.stop := by
  obtain ⟨init, last, eq, quiet, ends, tiles⟩ := instructionsUntil_spec
    (fun i => i.isTerminal || g.before.get? i.stop == some .code) t m lt
  refine ⟨init, last, eq, fun i mem code => ?_, ?_, tiles⟩
  · have := quiet i mem
    simp [code] at this
  · rw [Bool.or_eq_true, beq_iff_eq, or_assoc] at ends
    exact ends

theorem Enters.lt (h : g.Enters t m stop e) : g.origin < e := by
  obtain ⟨-, -, last, found, -, rfl⟩ := h
  have := bounds_of_mem_instructionsUntil _ t m (List.mem_of_getLast? found)
  omega

theorem Enters.unique {e' : Nat} (h : g.Enters t m stop e) (h' : g.Enters t m stop e') :
    e = e' := by
  obtain ⟨-, -, last, found, -, rfl⟩ := h
  obtain ⟨-, -, last', found', -, rfl⟩ := h'
  rw [Option.some.inj (found.symm.trans found')]

/-- A pass from unclassified memory takes from code the addresses of code that the boundary it
enters governs. -/
theorem cutsOff_iff (wellFormed : g.before.WellFormed start stop)
    (unknown : g.before.tagAt? g.origin = some .unknown) (lt : g.origin < stop) (below : a < stop) :
    g.CutsOff t m stop a ↔
      g.before.tagAt? a = some .code ∧ ∃ e, g.Enters t m stop e ∧ g.before.Governs e a := by
  constructor
  · rintro ⟨b, hb, code, inside, -, last, found, terminal, lower, upper⟩
    have none : ∀ j, last.stop ≤ j → j ≤ a → g.before.get? j = .none := fun j above le =>
      get?_eq_none_of_mem_blocks hb (by omega) (by omega)
    refine ⟨?_, last.stop, ⟨by omega, none _ (Nat.le_refl _) upper, last, found, terminal, rfl⟩,
      upper, fun j above le => none j (Nat.le_of_lt above) le⟩
    rw [tagAt?_of_mem_blocks hb (by omega) inside, code]
  · rintro ⟨code, e, ⟨-, fresh, last, found, terminal, rfl⟩, governs⟩
    obtain ⟨init, last', eq, quiet, -, tiles⟩ := run_spec (t := t) (m := m) lt
    obtain rfl : last' = last := by
      rw [eq, List.getLast?_concat] at found
      exact Option.some.inj found
    obtain ⟨k, holds, key⟩ := tagAt?_eq_some_iff.1 code
    -- The block of the address starts below the end of the run, which is no boundary, ...
    have lower : k < last'.stop := by
      rcases Nat.lt_trichotomy k last'.stop with lt | rfl | gt
      · exact lt
      · rw [fresh] at key
        cases key
      · rw [governs.2 k gt holds.le] at key
        cases key
    -- ... and above its start, where memory is unclassified.
    have upper : g.origin < k := by
      by_contra le
      have later := tiles.lt (by simp)
      have := governs.le
      have : g.before.Governs k g.origin :=
        ⟨by omega, fun j above le' => holds.2 j above (by omega)⟩
      rw [this.tagAt?_eq key] at unknown
      cases unknown
    obtain ⟨b, hb, rfl, tag, inside⟩ := TagMap.exists_mem_blocks holds key
      ⟨stop, below, by simp [wellFormed.get?_stop]⟩
    refine ⟨b, hb, tag, inside, ?_, last', found, terminal, lower, governs.le⟩
    rcases tiles.ends_or_straddles upper lower with ⟨i, mem, ends⟩ | straddles
    · -- An instruction that ends at the start of the block would have ended the run.
      rw [List.dropLast_concat] at mem
      exact absurd (ends ▸ key) (quiet i mem)
    · rwa [eq]

/-- A pass makes code the addresses up to the next boundary that the boundary it enters does not
govern. -/
theorem covers_iff (lt : g.origin < stop) (below : a < stop) :
    g.Covers t m stop a ↔
      g.before.Governs g.origin a ∧ ¬ ∃ e, g.Enters t m stop e ∧ g.before.Governs e a := by
  obtain ⟨init, last, eq, -, ends, tiles⟩ := run_spec (t := t) (m := m) lt
  have later := tiles.lt (by simp)
  have found : (g.run t m stop).getLast? = some last := by rw [eq, List.getLast?_concat]
  refine and_congr_right fun opens => ?_
  constructor
  · rintro ⟨last', found', past⟩ ⟨e, ⟨-, -, last'', found'', -, rfl⟩, governs⟩
    cases Option.some.inj (found'.symm.trans found'')
    have := governs.le
    omega
  · intro free
    refine ⟨last, found, ?_⟩
    by_contra le
    -- A run that ended before the address would have ended in a terminal instruction.
    have fresh := opens.2 last.stop later (by omega)
    rcases ends with terminal | code | atEnd
    · exact free ⟨last.stop, ⟨by omega, fresh, last, found, terminal, rfl⟩, by omega,
        fun j above upper => opens.2 j (by omega) upper⟩
    · rw [fresh] at code
      cases code
    · omega

end Growth

section Passes

variable (t : RepeatCeilings) (m : Image) (start stop a : Nat) (blocks : List Span)

/-- The pass that extends the first open block of a map. -/
def extension? (tags : TagMap) : Option Growth :=
  (tags.blocks.find? (isOpen t m tags)).map fun b => ⟨tags, b.stop⟩

/-- The pass that promotes the first entry point of a map. -/
def promotion? (tags : TagMap) : Option Growth :=
  (entryPoint? (Listing.build t m tags)).map fun found => ⟨tags, found.1⟩

/-- The passes that extend code, first to last. -/
def extensions (tags : TagMap) : List Growth :=
  (fixpointStates (extend t m stop) (openness stop) (openness_extend t m stop) tags).filterMap
    (extension? t m)

/-- The passes that promote entry points, first to last. -/
def promotions (tags : TagMap) : List Growth :=
  (fixpointStates (promote t m stop) (unpromoted stop) (unpromoted_promote t m stop) tags).filterMap
    (promotion? t m)

/-- The passes of a classification that make code grow, first to last. -/
def growths : List Growth :=
  extensions t m stop (seeded start stop blocks) ++
    promotions t m stop (extended t m start stop blocks)

/-- The address is cut off by a pass and covered by none after it. -/
def Lost : List Growth → Prop
  | [] => False
  | g :: later => (g.CutsOff t m stop a ∧ ∀ q ∈ later, ¬ q.Covers t m stop a) ∨ Lost later

/-- What passes make of an address: it is code if it was, given by `p`, or if one of them covers it,
unless it is lost. -/
def Remains (p : Prop) (passes : List Growth) : Prop :=
  (p ∨ ∃ g ∈ passes, g.Covers t m stop a) ∧ ¬ Lost t m stop a passes

end Passes

/-! ### One pass -/

/-- A map with code opened at an address: code holds from there to the next boundary, and above the
address the boundaries are as before. -/
structure Opens (before opened : TagMap) (origin : Nat) : Prop where
  above : ∀ j, origin < j → opened.get? j = before.get? j
  governed : ∀ a, before.Governs origin a → opened.tagAt? a = some .code
  elsewhere : ∀ a, ¬ before.Governs origin a → opened.tagAt? a = before.tagAt? a

variable {t : RepeatCeilings} {m : Image} {tags opened : TagMap} {start stop a e : Nat} {b : Block}
  {next : Logged TagMap} {g : Growth}

theorem opens_erase (hb : b ∈ tags.blocks) (code : b.tag = .code) :
    Opens tags (tags.erase b.stop) b.stop where
  above j later := by rw [SortedMap.get?_erase, if_neg (by omega)]
  governed a governs := by rw [tagAt?_erase_of_governs hb governs, code]
  elsewhere a other := tagAt?_erase_of_not_governs other

theorem opens_insert (tags : TagMap) (a : Nat) : Opens tags (tags.insert a .code) a where
  above j later := by rw [SortedMap.get?_insert, if_neg (by omega)]
  governed a governs := tagAt?_insert_of_governs governs
  elsewhere a other := tagAt?_insert_of_not_governs other

namespace Opens

theorem codeRun_eq (h : Opens g.before opened g.origin) :
    codeRun t m opened g.origin stop = g.run t m stop :=
  instructionsUntil_congr _ t m fun i later => by rw [h.above i.stop later]

theorem governs_iff (h : Opens g.before opened g.origin) {k : Nat} (above : g.origin ≤ k) :
    opened.Governs k a ↔ g.before.Governs k a := by
  refine and_congr_right fun _ => forall_congr' fun j => forall_congr' fun later => ?_
  rw [h.above j (by omega)]

/-- A pass enters one boundary or none. -/
theorem edits_findTerminal (t : RepeatCeilings) (m : Image) (stop : Nat)
    (h : Opens g.before opened g.origin) :
    (∃ e, g.Enters t m stop e ∧
      (findTerminal t m opened g.origin stop (some .unknown)).edits = [.assign e .unknown]) ∨
    (∀ e, ¬ g.Enters t m stop e) ∧
      (findTerminal t m opened g.origin stop (some .unknown)).edits = [] := by
  simp only [findTerminal, runBoundary, h.codeRun_eq]
  cases found : (g.run t m stop).getLast? with
  | none =>
    refine .inr ⟨?_, rfl⟩
    rintro e ⟨-, -, last, found', -⟩
    rw [found] at found'
    cases found'
  | some last =>
    have later : g.origin < last.stop := by
      have := bounds_of_mem_instructionsUntil _ t m (List.mem_of_getLast? found)
      omega
    -- The search looks for boundaries in the opened map, which has the same ones past its origin.
    have enters : (last.isTerminal && last.stop < stop && !opened.contains last.stop) = true ↔
        g.Enters t m stop last.stop := by
      simp [Growth.Enters, found, SortedMap.contains, h.above _ later, and_assoc, and_comm,
        and_left_comm]
    dsimp only
    split
    · next entered => exact .inl ⟨last.stop, enters.1 entered, rfl⟩
    · next omitted =>
      refine .inr ⟨fun e entered => omitted (enters.2 ?_), rfl⟩
      obtain ⟨last', found', -, rfl⟩ := entered.2.2
      cases Option.some.inj (found.symm.trans found')
      exact entered

/-- After a pass an address is code if it was and the pass does not cut it off, or if the pass
covers it. -/
theorem code_iff (h : Opens g.before opened g.origin) (wellFormed : g.before.WellFormed start stop)
    (unknown : g.before.tagAt? g.origin = some .unknown) (lt : g.origin < stop) (below : a < stop) :
    (opened.edit (findTerminal t m opened g.origin stop (some .unknown)).edits).tagAt? a =
        some .code ↔
      g.before.tagAt? a = some .code ∧ ¬ g.CutsOff t m stop a ∨ g.Covers t m stop a := by
  have opened_iff : opened.tagAt? a = some .code ↔
      g.before.tagAt? a = some .code ∨ g.before.Governs g.origin a := by
    by_cases opens : g.before.Governs g.origin a
    · simp [h.governed a opens, opens]
    · simp [h.elsewhere a opens, opens]
  rw [Growth.cutsOff_iff wellFormed unknown lt below, Growth.covers_iff lt below]
  rcases h.edits_findTerminal t m stop with ⟨e, enters, eq⟩ | ⟨none, eq⟩
  · rw [eq, edit_cons, edit_nil, apply]
    have later := Nat.le_of_lt enters.lt
    by_cases governs : g.before.Governs e a
    · -- The boundary entered governs the address, which is no code whatever it was.
      have cut : ∃ e, g.Enters t m stop e ∧ g.before.Governs e a := ⟨e, enters, governs⟩
      rw [tagAt?_insert_of_governs ((h.governs_iff later).2 governs)]
      simp [cut]
    · have free : ¬ ∃ e, g.Enters t m stop e ∧ g.before.Governs e a := by
        rintro ⟨e', enters', governs'⟩
        exact governs (enters.unique enters' ▸ governs')
      rw [tagAt?_insert_of_not_governs fun governs' => governs ((h.governs_iff later).1 governs'),
        opened_iff]
      simp [free]
  · have free : ¬ ∃ e, g.Enters t m stop e ∧ g.before.Governs e a := by
      rintro ⟨e, enters, -⟩
      exact none e enters
    rw [eq, edit_nil, opened_iff]
    simp [free]

end Opens

theorem code_extend (h : tags.WellFormed start stop) (below : a < stop)
    (step : extend t m stop tags = some next) :
    ∃ g, extension? t m tags = some g ∧ (next.value.tagAt? a = some .code ↔
      tags.tagAt? a = some .code ∧ ¬ g.CutsOff t m stop a ∨ g.Covers t m stop a) := by
  obtain ⟨b, found, rfl⟩ := Option.map_eq_some_iff.1 step
  have hb := List.mem_of_find?_eq_some found
  obtain ⟨code, key, -⟩ := isOpen_iff.1 (List.find?_some found)
  refine ⟨⟨tags, b.stop⟩, by rw [extension?, found]; rfl, ?_⟩
  exact (opens_erase hb code).code_iff (g := ⟨tags, b.stop⟩) h (tagAt?_of_get? key)
    (h.lt_stop key (by decide)) below

theorem code_promote (h : tags.WellFormed start stop) (below : a < stop)
    (step : promote t m stop tags = some next) :
    ∃ g, promotion? t m tags = some g ∧ (next.value.tagAt? a = some .code ↔
      tags.tagAt? a = some .code ∧ ¬ g.CutsOff t m stop a ∨ g.Covers t m stop a) := by
  obtain ⟨found, entry, rfl⟩ := Option.map_eq_some_iff.1 step
  obtain ⟨b, hb, unknown, above, inside⟩ := mem_block_of_entryPoint? entry
  obtain ⟨-, -, upper, -⟩ := h.of_mem_blocks hb
  refine ⟨⟨tags, found.1⟩, by rw [promotion?, entry]; rfl, ?_⟩
  exact (opens_insert tags found.1).code_iff (g := ⟨tags, found.1⟩) h
    (by rw [tagAt?_of_mem_blocks hb above inside, unknown]) (Nat.lt_of_lt_of_le inside upper) below

/-! ### Repeated passes -/

theorem remains_nil {p : Prop} : Remains t m stop a p [] ↔ p := by
  simp [Remains, Lost]

/-- One pass more at the front changes what was code before the others. -/
theorem remains_cons {p : Prop} {later : List Growth} :
    Remains t m stop a p (g :: later) ↔
      Remains t m stop a (p ∧ ¬ g.CutsOff t m stop a ∨ g.Covers t m stop a) later := by
  have exclusive : g.Covers t m stop a → ¬ g.CutsOff t m stop a := Growth.Covers.not_cutsOff
  simp only [Remains, Lost, List.exists_mem_cons_iff]
  by_cases again : ∃ q ∈ later, q.Covers t m stop a
  · -- What a later pass covers is code again, whatever this one does.
    have repaired : ¬ ∀ q ∈ later, ¬ q.Covers t m stop a := by
      intro none
      obtain ⟨q, mem, covers⟩ := again
      exact none q mem covers
    simp only [again, repaired, or_true, and_false, false_or]
  · by_cases covers : g.Covers t m stop a
    · simp [covers, exclusive covers]
    · simp [again, covers, and_assoc]

theorem remains_append {p : Prop} {first second : List Growth} :
    Remains t m stop a p (first ++ second) ↔
      Remains t m stop a (Remains t m stop a p first) second := by
  induction first generalizing p with
  | nil => rw [List.nil_append, propext remains_nil]
  | cons g rest ih => rw [List.cons_append, remains_cons, ih, propext remains_cons]

theorem remains_true_iff {passes : List Growth} :
    Remains t m stop a True passes ↔ ¬ Lost t m stop a passes := by
  simp [Remains]

section Repeated

variable {step : TagMap → Option (Logged TagMap)} {measure : TagMap → Nat}
  {lower : ∀ s next, step s = some next → measure next.value < measure s}
  {growth? : TagMap → Option Growth}

/-- The code after repeated passes, if each pass keeps maps well-formed and makes code grow. -/
theorem code_fixpoint_iff (kept : ∀ tags next, step tags = some next →
      tags.WellFormed start stop → next.value.WellFormed start stop)
    (grows : ∀ tags next, step tags = some next → tags.WellFormed start stop →
      ∃ g, growth? tags = some g ∧ (next.value.tagAt? a = some .code ↔
        tags.tagAt? a = some .code ∧ ¬ g.CutsOff t m stop a ∨ g.Covers t m stop a))
    (h : tags.WellFormed start stop) :
    (fixpoint step measure lower tags).value.2.tagAt? a = some .code ↔
      Remains t m stop a (tags.tagAt? a = some .code)
        ((fixpointStates step measure lower tags).filterMap growth?) := by
  induction tags using fixpoint_induction lower with
  | done tags none =>
    rw [fixpoint_of_none none, fixpointStates_of_none none]
    exact remains_nil.symm
  | pass tags next changed ih =>
    -- The first pass of the list decides what is code before the others.
    obtain ⟨g, growth, code⟩ := grows tags next changed h
    rw [value_fixpoint_of_some changed, fixpointStates_of_some changed,
      List.filterMap_cons_some growth, remains_cons, ← propext code]
    exact ih (kept tags next changed h)

end Repeated

/-- The code after extension and promotion. -/
theorem code_promoted_iff {blocks : List Span}
    (h : (seeded start stop blocks).WellFormed start stop) (below : a < stop) :
    (promoted t m start stop blocks).tagAt? a = some .code ↔
      Remains t m stop a ((seeded start stop blocks).tagAt? a = some .code)
        (growths t m start stop blocks) := by
  have extension : (extended t m start stop blocks).tagAt? a = some .code ↔
      Remains t m stop a ((seeded start stop blocks).tagAt? a = some .code)
        (extensions t m stop (seeded start stop blocks)) :=
    code_fixpoint_iff (fun _ _ step h => wellFormed_extend h step)
      (fun _ _ step h => code_extend h below step) h
  have promotion : (promoted t m start stop blocks).tagAt? a = some .code ↔
      Remains t m stop a ((extended t m start stop blocks).tagAt? a = some .code)
        (promotions t m stop (extended t m start stop blocks)) :=
    code_fixpoint_iff (fun _ _ step h => wellFormed_promote h step)
      (fun _ _ step h => code_promote h below step) (wellFormed_extended h)
  rw [promotion, growths, remains_append, propext extension]

end MemoryAtlas.Traced
