import MemoryAtlas.Z80.Opcode

/-!
# Repeat ceilings

Real programs rarely execute some instructions many times in a row. A ceiling table gives, for each
opcode class, the number of repetitions that is no longer plausible; zero or less is no limit.
-/

namespace MemoryAtlas.Z80

/-- A ceiling for every opcode class. -/
structure RepeatCeilings where
  /-- The ceiling of a class. -/
  ceiling : Nat → Int

namespace RepeatCeilings

/-- The table without limits. -/
def unlimited : RepeatCeilings := ⟨fun _ => 0⟩

/-- The table with the ceiling of one class replaced. -/
def set (t : RepeatCeilings) (c : Nat) (ceiling : Int) : RepeatCeilings :=
  ⟨fun d => if d = c then ceiling else t.ceiling d⟩

/-- The table with ceilings replaced in turn. -/
def setAll (t : RepeatCeilings) (overrides : List (Nat × Int)) : RepeatCeilings :=
  overrides.foldl (fun t o => t.set o.1 o.2) t

/-- The class of the load of an 8-bit register from itself. -/
def selfLoad (r : Nat) : Nat := 0x40 + 9 * r

/-- The usual table: three loads of a register from itself, two halts or two restarts at `38` are
no code. -/
def usual : RepeatCeilings :=
  unlimited.setAll
    ([0, 1, 2, 3, 4, 5, 7].map (fun r => (selfLoad r, 3)) ++ [(0x76, 2), (0xFF, 2)])

instance : Inhabited RepeatCeilings := ⟨usual⟩

@[simp]
theorem ceiling_set (t : RepeatCeilings) (c d : Nat) (ceiling : Int) :
    (t.set c ceiling).ceiling d = if d = c then ceiling else t.ceiling d := rfl

end RepeatCeilings

end MemoryAtlas.Z80
