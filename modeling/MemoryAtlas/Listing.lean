import Std.Data.HashMap
import MemoryAtlas.TagMap
import MemoryAtlas.Z80.Instruction

/-!
# Listings

A listing holds the instructions of every block of a map, and knows which instructions refer to an
address.

## Main definitions

* `Listing.build`: the listing of an image and a map.
* `Listing.referrers`, `Listing.codeReferrer?`: the references to an address, all or the first from
  code.
-/

namespace MemoryAtlas

open Z80

/-- A block with its instructions. -/
structure ListingEntry where
  block : Block
  instructions : List Instruction

/-- A static reference from an instruction to an address. -/
structure Reference where
  /-- The address of the instruction. -/
  source : Nat
  /-- The address it refers to. -/
  target : Nat
  /-- What it makes of the target. -/
  kind : ReferenceKind
  /-- The tag of the block of the instruction. -/
  tag : Tag
  deriving DecidableEq, Repr

/-- The reference of an instruction in a block with a given tag. -/
def Reference.ofInstruction? (tag : Tag) (i : Instruction) : Option Reference :=
  i.target?.map fun target => ⟨i.address, target, i.referenceKind, tag⟩

/-- The references of a block's instructions, in order. -/
def ListingEntry.references (e : ListingEntry) : List Reference :=
  e.instructions.filterMap (Reference.ofInstruction? e.block.tag)

/-- References grouped by target, each group last first. -/
abbrev ReferenceIndex := Std.HashMap Nat (List Reference)

/-- The index with one more reference. -/
def ReferenceIndex.add (index : ReferenceIndex) (r : Reference) : ReferenceIndex :=
  index.insert r.target (r :: index.getD r.target [])

/-- The instructions of a map's blocks, with an index of their references. -/
structure Listing where
  entries : List ListingEntry
  index : ReferenceIndex

namespace Listing

/-- The listing of the blocks of a map. -/
def build (t : RepeatCeilings) (m : Image) (tags : TagMap) : Listing :=
  let entries := tags.blocks.map fun b => ⟨b, instructions t m b.start b.stop⟩
  ⟨entries, (entries.flatMap ListingEntry.references).foldl ReferenceIndex.add ∅⟩

/-- The references to an address, by ascending source. -/
def referrers (l : Listing) (a : Nat) : List Reference := (l.index.getD a []).reverse

/-- The first reference to an address from code. -/
def codeReferrer? (l : Listing) (a : Nat) : Option Reference :=
  (l.referrers a).find? (·.tag == .code)

end Listing

end MemoryAtlas
