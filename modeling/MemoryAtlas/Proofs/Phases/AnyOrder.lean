import MemoryAtlas.Proofs.Phases.Inside

/-!
# Phases in any order

Classification runs its phases in a fixed order, but none of them relies on it to keep the map in
shape. Whatever phases are run, in whatever order and as often as one likes, a well-formed map of a
range stays a well-formed map of that range. Marks of text concern a block of the map of the moment,
and a search for the end of a run of code stays in the range and enters no second end.

## Main definitions

* `Phase`: the operations that classification is made of.
* `Phase.run`, `runPhases`: the map after one of them and after a list of them.
* `Phase.Admissible`, `AdmissiblePhases`: what is asked of the arguments of a phase.

## Main results

* `wellFormed_runPhases`: phases in any order keep a map well-formed.
-/

namespace MemoryAtlas

open Z80 TagMap

/-- The operations that classification is made of. -/
inductive Phase where
  | extend
  | promote
  | splitAtTerminals
  | merge
  | classifyUnknown (s : Settings)
  | markZeroFill
  | splitLeadingZeros
  | mergeData
  /-- Mark the text in a block, taken for data. -/
  | markText (s : Settings) (b : Block)
  /-- Mark the text in a block, taken for code. -/
  | markTextInCode (s : Settings) (b : Block)
  /-- Search the end of the run of code from `lo`, at most `hi`. -/
  | findTerminal (lo hi : Nat) (tag : Option Tag)

variable (t : RepeatCeilings) (m : Image) (start stop : Nat)

/-- The map after a phase. A pass that finds nothing to do leaves the map as it is. -/
def Phase.run (tags : TagMap) : Phase → TagMap
  | extend => ((Traced.extend t m stop tags).map Logged.value).getD tags
  | promote => ((Traced.promote t m stop tags).map Logged.value).getD tags
  | splitAtTerminals => tags.edit (Traced.splitAtTerminals t m tags)
  | merge => ((Traced.merge t m tags).map Logged.value).getD tags
  | classifyUnknown s => tags.edit (Traced.classifyUnknown s m tags)
  | markZeroFill => tags.edit (MemoryAtlas.markZeroFill m tags)
  | splitLeadingZeros => tags.edit (Heuristic.splitLeadingZeros m tags)
  | mergeData => tags.edit (Heuristic.mergeData tags)
  | markText s b => tags.edit (MemoryAtlas.markText s m b.span)
  | markTextInCode s b => tags.edit (MemoryAtlas.markTextInCode s m b.span)
  | findTerminal lo hi tag => tags.edit (Traced.findTerminal t m tags lo hi tag).edits

/-- The map after a list of phases. -/
def runPhases (tags : TagMap) (phases : List Phase) : TagMap :=
  phases.foldl (Phase.run t m stop) tags

/-- The arguments of a phase fit the map: a block to mark is one of its blocks, and a search stays
in the range and does not enter an end. -/
def Phase.Admissible (tags : TagMap) : Phase → Prop
  | markText _ b | markTextInCode _ b => b ∈ tags.blocks
  | findTerminal lo hi tag => start ≤ lo ∧ hi ≤ stop ∧ tag ≠ some .limit
  | _ => True

instance (tags : TagMap) (p : Phase) : Decidable (p.Admissible start stop tags) :=
  match p with
  | .markText _ b | .markTextInCode _ b => inferInstanceAs (Decidable (b ∈ tags.blocks))
  | .findTerminal lo hi tag =>
    inferInstanceAs (Decidable (start ≤ lo ∧ hi ≤ stop ∧ tag ≠ some .limit))
  | .extend | .promote | .splitAtTerminals | .merge | .classifyUnknown _ | .markZeroFill
  | .splitLeadingZeros | .mergeData => .isTrue trivial

/-- The arguments of each phase of a list fit the map that the phases before it leave. -/
def AdmissiblePhases (tags : TagMap) : List Phase → Prop
  | [] => True
  | p :: rest => p.Admissible start stop tags ∧ AdmissiblePhases (p.run t m stop tags) rest

variable {t m start stop} {tags : TagMap} {phases : List Phase}

theorem wellFormed_getD {step : Option (Logged TagMap)} (h : tags.WellFormed start stop)
    (kept : ∀ next, step = some next → next.value.WellFormed start stop) :
    ((step.map Logged.value).getD tags).WellFormed start stop := by
  cases step with
  | none => exact h
  | some next => exact kept next rfl

/-- One phase keeps a map well-formed. -/
theorem Phase.wellFormed_run (h : tags.WellFormed start stop) {p : Phase}
    (admissible : p.Admissible start stop tags) : (p.run t m stop tags).WellFormed start stop := by
  cases p with
  | extend => exact wellFormed_getD h fun _ step => Traced.wellFormed_extend h step
  | promote => exact wellFormed_getD h fun _ step => Traced.wellFormed_promote h step
  | splitAtTerminals => exact h.edit fun _ mem => Traced.inside_splitAtTerminals h mem
  | merge => exact wellFormed_getD h fun _ step => Traced.wellFormed_merge h step
  | classifyUnknown s => exact h.edit fun _ mem => Traced.inside_classifyUnknown h mem
  | markZeroFill => exact h.edit fun _ mem => inside_markZeroFill h mem
  | splitLeadingZeros => exact h.edit fun _ mem => Heuristic.inside_splitLeadingZeros h mem
  | mergeData => exact h.edit fun _ mem => Heuristic.inside_mergeData h mem
  | markText s b => exact h.edit fun _ mem => inside_markText h admissible mem
  | markTextInCode s b => exact h.edit fun _ mem => inside_markTextInCode h admissible mem
  | findTerminal lo hi tag =>
    obtain ⟨lower, upper, block⟩ := admissible
    exact h.edit fun _ mem => Traced.inside_findTerminal h lower upper block mem

/-- Phases in any order keep a map well-formed. -/
theorem wellFormed_runPhases (h : tags.WellFormed start stop)
    (admissible : AdmissiblePhases t m start stop tags phases) :
    (runPhases t m stop tags phases).WellFormed start stop := by
  induction phases generalizing tags with
  | nil => exact h
  | cons p rest ih => exact ih (Phase.wellFormed_run h admissible.1) admissible.2

/-- A blank memory whose first byte is known to be code, and phases out of their usual order. -/
theorem wellFormed_runPhases_blank :
    (runPhases .usual .blank 8 (.ofList [(0, .code), (1, .unknown), (8, .limit)])
      [.markTextInCode .usual ⟨1, 8, .unknown⟩, .mergeData, .findTerminal 0 8 none, .merge,
        .markZeroFill, .promote, .classifyUnknown .usual, .extend, .splitLeadingZeros,
        .findTerminal 3 5 (some .bytes), .splitAtTerminals, .mergeData, .extend]).WellFormed 0 8 :=
  wellFormed_runPhases (by decide)
    ⟨by decide, trivial, by decide, trivial, trivial, trivial, trivial, trivial, trivial, by decide,
      trivial, trivial, trivial, trivial⟩

end MemoryAtlas
