import MemoryAtlas.Fixpoint
import MemoryAtlas.Traced.Terminal

/-!
# Extending code

Code that has run goes on to the next terminal instruction. A block of code is open while the block
after it is not classified and its last instruction is not terminal; extending it moves the boundary
between the two up to the end of the run of code.

## Main definitions

* `extend`: the extension of the first open block.
* `extendAll`: extension until no block is open.
-/

namespace MemoryAtlas.Traced

open Z80

/-- The last instruction of a block. -/
def lastInstruction? (t : RepeatCeilings) (m : Image) (b : Block) : Option Instruction :=
  (instructions t m b.start b.stop).getLast?

/-- A block of code that does not end and that an unclassified block follows. -/
def isOpen (t : RepeatCeilings) (m : Image) (tags : TagMap) (b : Block) : Bool :=
  b.tag == .code && tags.get? b.stop == some .unknown &&
    !(lastInstruction? t m b).any (·.isTerminal)

/-- The edits that extend a block of code, at most up to `stop`. -/
def extension (t : RepeatCeilings) (m : Image) (stop : Nat) (tags : TagMap) (b : Block) :
    List Edit :=
  .clear b.stop :: (findTerminal t m (tags.erase b.stop) b.stop stop (some .unknown)).edits

/-- The extension of the first open block, if there is one. -/
def extend (t : RepeatCeilings) (m : Image) (stop : Nat) (tags : TagMap) :
    Option (Logged TagMap) :=
  (tags.blocks.find? (isOpen t m tags)).map fun b => tags.perform (extension t m stop tags b)

/-- What is left to extend: each unclassified boundary counts for its distance to `stop`. -/
def openness (stop : Nat) (tags : TagMap) : Nat :=
  tags.weight fun e => if e.2 = .unknown then 1 + (stop - e.1) else 0

/-- An extension removes an unclassified boundary and enters at most one, further on. -/
theorem openness_extend (t : RepeatCeilings) (m : Image) (stop : Nat) (tags : TagMap)
    (next : Logged TagMap) (h : extend t m stop tags = some next) :
    openness stop next.value < openness stop tags := by
  obtain ⟨b, found, rfl⟩ := Option.map_eq_some_iff.1 h
  have isOpen := List.find?_some found
  simp only [Traced.isOpen, Bool.and_eq_true, beq_iff_eq] at isOpen
  have removed := SortedMap.weight_erase_add
    (fun e => if e.2 = .unknown then 1 + (stop - e.1) else 0) isOpen.1.2
  simp only [if_true] at removed
  simp only [TagMap.value_perform, extension, TagMap.edit_cons, TagMap.apply, openness]
  rcases edits_findTerminal_some t m (tags.erase b.stop) b.stop stop .unknown with
    none | ⟨a, above, below, fresh, one⟩
  · rw [none, TagMap.edit_nil]
    omega
  · rw [one, TagMap.edit_cons, TagMap.edit_nil, TagMap.apply, SortedMap.weight_insert _ _ fresh]
    simp only [if_true]
    omega

/-- Extension until no block is open, with the number of extensions. -/
def extendAll (t : RepeatCeilings) (m : Image) (stop : Nat) (tags : TagMap) :
    Logged (Nat × TagMap) :=
  fixpoint (extend t m stop) (openness stop) (openness_extend t m stop) tags

end MemoryAtlas.Traced
