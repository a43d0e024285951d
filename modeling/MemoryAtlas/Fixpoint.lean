import MemoryAtlas.Record

/-!
# Repeating a step

A step either changes a state, with a report, or finds nothing to change. `fixpoint` repeats it
until nothing changes and counts the changes. A measure that every change lowers shows that it ends.
-/

namespace MemoryAtlas

variable {σ : Type}

/-- The number of times a step changes a state, and the state that it no longer changes. -/
def fixpoint (step : σ → Option (Logged σ)) (measure : σ → Nat)
    (lower : ∀ s next, step s = some next → measure next.value < measure s) (s : σ) :
    Logged (Nat × σ) :=
  match _h : step s with
  | none => pure (0, s)
  | some next =>
    let rest := fixpoint step measure lower next.value
    ⟨(rest.value.1 + 1, rest.value.2), next.events ++ rest.events⟩
termination_by measure s
decreasing_by exact lower s next _h

variable {step : σ → Option (Logged σ)} {measure : σ → Nat}
  {lower : ∀ s next, step s = some next → measure next.value < measure s}

/-- A step that finds nothing to change ends the repetition. -/
theorem fixpoint_of_none {s : σ} (h : step s = none) :
    fixpoint step measure lower s = pure (0, s) := by
  rw [fixpoint]
  split
  · rfl
  · next eq => simp [h] at eq

/-- A step that changes the state is repeated from the new state. -/
theorem fixpoint_of_some {s : σ} {next : Logged σ} (h : step s = some next) :
    fixpoint step measure lower s =
      ⟨((fixpoint step measure lower next.value).value.1 + 1,
          (fixpoint step measure lower next.value).value.2),
        next.events ++ (fixpoint step measure lower next.value).events⟩ := by
  rw [fixpoint]
  split
  · next eq => simp [h] at eq
  · next eq =>
    cases Option.some.inj (h.symm.trans eq)
    rfl

theorem value_fixpoint_of_some {s : σ} {next : Logged σ} (h : step s = some next) :
    (fixpoint step measure lower s).value =
      ((fixpoint step measure lower next.value).value.1 + 1,
        (fixpoint step measure lower next.value).value.2) := by
  rw [fixpoint_of_some h]

/-- The final state is one that the step does not change. -/
theorem step_fixpoint (s : σ) : step (fixpoint step measure lower s).value.2 = none := by
  induction n : measure s using Nat.strongRecOn generalizing s with
  | ind n ih =>
    cases h : step s with
    | none =>
      rw [fixpoint_of_none h]
      exact h
    | some next =>
      rw [value_fixpoint_of_some h]
      exact ih _ (n ▸ lower s next h) _ rfl

end MemoryAtlas
