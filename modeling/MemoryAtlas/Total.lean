/-!
# Totals

The total of a measure over a list.
-/

namespace MemoryAtlas

universe u

variable {α : Type u}

/-- The total of a measure over a list. -/
def total (f : α → Nat) : List α → Nat
  | [] => 0
  | x :: rest => f x + total f rest

@[simp]
theorem total_nil (f : α → Nat) : total f [] = 0 := rfl

@[simp]
theorem total_cons (f : α → Nat) (x : α) (rest : List α) :
    total f (x :: rest) = f x + total f rest := rfl

@[simp]
theorem total_append (f : α → Nat) (l r : List α) : total f (l ++ r) = total f l + total f r := by
  induction l with
  | nil => exact (Nat.zero_add _).symm
  | cons x l ih => rw [List.cons_append, total_cons, total_cons, ih, Nat.add_assoc]

end MemoryAtlas
