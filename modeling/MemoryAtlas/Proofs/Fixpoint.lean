import MemoryAtlas.Fixpoint

/-!
# What a repeated step keeps

A step is repeated until it finds nothing to change. What one step keeps, the repetition keeps.

## Main definitions

* `fixpointStates`: the states that a repetition goes through and changes.
* `Passes`: a number of passes, each of which changes the state.
* `EndsAfter`: after that many passes nothing changes any more.

## Main results

* `fixpoint_induction`: induction along a repetition.
* `fixpoint_keeps`: an invariant of the step holds of the final state.
* `fixpoint_congr`: steps that do the same have the same repetition.
* `endsAfter_fixpoint`: a repetition takes the passes that it counts, and then ends.
* `Passes.add_le`: a measure that every pass lowers bounds the number of passes.
-/

namespace MemoryAtlas

variable {σ : Type} {step : σ → Option (Logged σ)} {measure : σ → Nat} {s : σ} {next : Logged σ}
  {lower : ∀ s next, step s = some next → measure next.value < measure s}

/-- Induction along a repetition: a property of every state that the step does not change and that
each pass hands back to the state before it. -/
@[elab_as_elim]
theorem fixpoint_induction {motive : σ → Prop}
    (lower : ∀ s next, step s = some next → measure next.value < measure s)
    (done : ∀ s, step s = none → motive s)
    (pass : ∀ s next, step s = some next → motive next.value → motive s) (s : σ) : motive s := by
  induction n : measure s using Nat.strongRecOn generalizing s with
  | ind n ih =>
    cases h : step s with
    | none => exact done s h
    | some next => exact pass s next h (ih _ (n ▸ lower s next h) _ rfl)

/-- An invariant of the step holds of the final state. -/
theorem fixpoint_keeps {I : σ → Prop} (kept : ∀ s next, step s = some next → I s → I next.value)
    (h : I s) : I (fixpoint step measure lower s).value.2 := by
  induction s using fixpoint_induction lower with
  | done s none =>
    rw [fixpoint_of_none none]
    exact h
  | pass s next changed ih =>
    rw [value_fixpoint_of_some changed]
    exact ih (kept s next changed h)

/-- Steps that do the same as long as an invariant holds have the same repetition. -/
theorem fixpoint_congr {step' : σ → Option (Logged σ)}
    {lower' : ∀ s next, step' s = some next → measure next.value < measure s} {I : σ → Prop}
    (kept : ∀ s next, step s = some next → I s → I next.value)
    (same : ∀ s, I s → step' s = step s) (h : I s) :
    fixpoint step' measure lower' s = fixpoint step measure lower s := by
  induction s using fixpoint_induction lower with
  | done s none => rw [fixpoint_of_none none, fixpoint_of_none ((same s h).trans none)]
  | pass s next changed ih =>
    rw [fixpoint_of_some changed, fixpoint_of_some ((same s h).trans changed),
      ih (kept s next changed h)]

/-- The states that a repetition changes, first to last. -/
def fixpointStates (step : σ → Option (Logged σ)) (measure : σ → Nat)
    (lower : ∀ s next, step s = some next → measure next.value < measure s) (s : σ) : List σ :=
  match _h : step s with
  | none => []
  | some next => s :: fixpointStates step measure lower next.value
termination_by measure s
decreasing_by exact lower s next _h

theorem fixpointStates_of_none (h : step s = none) : fixpointStates step measure lower s = [] := by
  rw [fixpointStates]
  split
  · rfl
  · next eq => simp [h] at eq

theorem fixpointStates_of_some (h : step s = some next) :
    fixpointStates step measure lower s = s :: fixpointStates step measure lower next.value := by
  rw [fixpointStates]
  split
  · next eq => simp [h] at eq
  · next eq =>
    cases Option.some.inj (h.symm.trans eq)
    rfl

/-! ### The passes of a repetition -/

/-- A number of passes, each of which changes the state, lead from one state to another. -/
inductive Passes (step : σ → Option (Logged σ)) : Nat → σ → σ → Prop
  | done (s : σ) : Passes step 0 s s
  | pass {n : Nat} {s after : σ} {next : Logged σ} (changed : step s = some next)
      (rest : Passes step n next.value after) : Passes step (n + 1) s after

/-- After `n` passes from a state the step finds nothing to change. -/
def EndsAfter (step : σ → Option (Logged σ)) (n : Nat) (s after : σ) : Prop :=
  Passes step n s after ∧ step after = none

/-- A repetition takes as many passes as it counts, and then ends. -/
theorem endsAfter_fixpoint (s : σ) :
    EndsAfter step (fixpoint step measure lower s).value.1 s
      (fixpoint step measure lower s).value.2 := by
  refine ⟨?_, step_fixpoint s⟩
  induction s using fixpoint_induction lower with
  | done s none =>
    rw [fixpoint_of_none none]
    exact .done s
  | pass s next changed ih =>
    rw [value_fixpoint_of_some changed]
    exact .pass changed ih

/-- A measure that every pass lowers, as long as an invariant holds, bounds the number of passes. -/
theorem Passes.add_le {I : σ → Prop} {f : σ → Nat} {n : Nat} {after : σ}
    (kept : ∀ s next, step s = some next → I s → I next.value)
    (lowers : ∀ s next, step s = some next → I s → f next.value < f s)
    (passes : Passes step n s after) (h : I s) : f after + n ≤ f s := by
  induction passes with
  | done s => exact Nat.le_refl (f s)
  | pass changed rest ih =>
    have least := ih (kept _ _ changed h)
    have lower := lowers _ _ changed h
    omega

end MemoryAtlas
