import MemoryAtlas.Fixpoint
import MemoryAtlas.Traced.Extend

/-!
# Splitting and merging code

Blocks of code are split after their terminal instructions. A block that ends in a jump to the block
right after it is merged with it again, since the jump only goes on.

## Main definitions

* `splitAtTerminals`: the edits that split code.
* `merge`: the merge of the first such pair; `mergeAll` merges until there is none.
-/

namespace MemoryAtlas.Traced

open Z80

/-- The ends of the terminal instructions inside a block. -/
def terminalStops (t : RepeatCeilings) (m : Image) (b : Block) : List Nat :=
  ((instructions t m b.start b.stop).filter fun i => i.isTerminal && i.stop < b.stop).map (·.stop)

/-- The edits that split every block of code after its terminal instructions. -/
def splitAtTerminals (t : RepeatCeilings) (m : Image) (tags : TagMap) : List Edit :=
  (tags.blocksTagged .code).flatMap fun b =>
    (terminalStops t m b).map fun a => .assign a .code

/-- Two blocks of code, the first of which ends in a jump to the second. -/
def jumpsOn (t : RepeatCeilings) (m : Image) (b next : Block) : Bool :=
  b.tag == .code && next.tag == .code &&
    (lastInstruction? t m b).bind (·.jumpTarget?) == some next.start

/-- The merge of the first pair of neighbours of which one jumps on to the other. -/
def merge (t : RepeatCeilings) (m : Image) (tags : TagMap) : Option (Logged TagMap) :=
  ((tags.blocks.zip tags.blocks.tail).find? fun pair => jumpsOn t m pair.1 pair.2).map fun pair =>
    tags.perform [.clear pair.2.start]

/-- A merge removes a boundary. -/
theorem weight_merge (t : RepeatCeilings) (m : Image) (tags : TagMap) (next : Logged TagMap)
    (h : merge t m tags = some next) :
    next.value.weight (fun _ => 1) < tags.weight (fun _ => 1) := by
  obtain ⟨pair, found, rfl⟩ := Option.map_eq_some_iff.1 h
  have mem := (List.of_mem_zip (List.mem_of_find?_eq_some found)).2
  have key := TagMap.get?_start_of_mem_blocks (List.mem_of_mem_tail mem)
  have removed := SortedMap.weight_erase_add (fun _ => 1) key
  simp only [TagMap.value_perform, TagMap.edit_cons, TagMap.edit_nil, TagMap.apply]
  omega

/-- Merging until no block jumps on to the next, with the number of merges. -/
def mergeAll (t : RepeatCeilings) (m : Image) (tags : TagMap) : Logged (Nat × TagMap) :=
  fixpoint (merge t m) (SortedMap.weight fun _ => 1) (weight_merge t m) tags

end MemoryAtlas.Traced
