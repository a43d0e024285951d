import MemoryAtlas.Trace.Basic

/-!
# The addresses of a trace

Reading a trace may fail. If it succeeds, whatever the format, it yields a set of addresses of the
wanted range, in ascending order.

## Main definitions

* `Trace.Yields`: what holds of the result of an attempt, if it succeeds.
* `Trace.AddressesOf`: a set of addresses of a range, in ascending order.

## Main results

* `Trace.value_foldlM_of_error`: a run of attempts ends with the first that fails.
* `Trace.Yields.foldlM`: what each step keeps, a whole run of attempts keeps.
* `Trace.yields_addresses`: a trace that can be read yields such a set.
-/

namespace MemoryAtlas.Trace

variable {α β σ : Type} {Q : α → Prop} {R : β → Prop}

/-! ### Attempts -/

theorem value_report (e : Event) : (report e).run.value = .ok () := rfl

/-- After a success the next attempt decides. -/
theorem value_bind_of_ok {x : Attempt α} {f : α → Attempt β} {a : α}
    (h : x.run.value = .ok a) : (x >>= f).run.value = (f a).run.value := by
  change (ExceptT.bindCont f x.run.value).value = _
  rw [h]
  rfl

/-- After an error nothing more is attempted. -/
theorem value_bind_of_error {x : Attempt α} {f : α → Attempt β} {e : Error}
    (h : x.run.value = .error e) : (x >>= f).run.value = .error e := by
  change (ExceptT.bindCont f x.run.value).value = _
  rw [h]
  rfl

/-- The events of two attempts follow each other. -/
theorem events_bind_of_ok {x : Attempt α} {f : α → Attempt β} {a : α}
    (h : x.run.value = .ok a) : (x >>= f).run.events = x.run.events ++ (f a).run.events := by
  change x.run.events ++ (ExceptT.bindCont f x.run.value).events = _
  rw [h]
  rfl

/-- After an error nothing more is reported. -/
theorem events_bind_of_error {x : Attempt α} {f : α → Attempt β} {e : Error}
    (h : x.run.value = .error e) : (x >>= f).run.events = x.run.events := by
  change x.run.events ++ (ExceptT.bindCont f x.run.value).events = _
  rw [h]
  exact List.append_nil _

theorem value_bind_eq_ok_iff {x : Attempt α} {f : α → Attempt β} {r : β} :
    (x >>= f).run.value = .ok r ↔ ∃ a, x.run.value = .ok a ∧ (f a).run.value = .ok r := by
  cases h : x.run.value with
  | ok a =>
    rw [value_bind_of_ok h]
    constructor
    · exact fun eq => ⟨a, rfl, eq⟩
    · rintro ⟨b, same, eq⟩
      cases same
      exact eq
  | error e =>
    rw [value_bind_of_error h]
    constructor
    · intro eq
      cases eq
    · rintro ⟨b, same, -⟩
      cases same

/-- A run ends with the first step that fails. -/
theorem value_foldlM_of_error {step : σ → α → Attempt σ} {before after : List α} {x : α} {s s' : σ}
    {e : Error} (ok : (before.foldlM step s).run.value = .ok s')
    (failed : (step s' x).run.value = .error e) :
    ((before ++ x :: after).foldlM step s).run.value = .error e := by
  induction before generalizing s with
  | nil =>
    cases ok
    rw [List.nil_append, List.foldlM_cons]
    exact value_bind_of_error failed
  | cons y before ih =>
    rw [List.foldlM_cons] at ok
    obtain ⟨s₁, first, rest⟩ := value_bind_eq_ok_iff.1 ok
    rw [List.cons_append, List.foldlM_cons, value_bind_of_ok first]
    exact ih rest

/-- If the attempt succeeds, its result satisfies `Q`. -/
def Yields (x : Attempt α) (Q : α → Prop) : Prop := ∀ r, x.run.value = .ok r → Q r

namespace Yields

theorem pure {x : α} (h : Q x) : Yields (pure x) Q := by
  intro r eq
  cases eq
  exact h

theorem throw (e : Error) : Yields (throw e : Attempt α) Q := by
  intro r eq
  cases eq

theorem trivial (x : Attempt α) : Yields x fun _ => True := fun _ _ => True.intro

theorem bind {x : Attempt α} {f : α → Attempt β} (hx : Yields x Q)
    (hf : ∀ a, Q a → Yields (f a) R) : Yields (x >>= f) R := by
  intro r eq
  obtain ⟨a, ok, eq⟩ := value_bind_eq_ok_iff.1 eq
  exact hf a (hx a ok) r eq

/-- What each step keeps, a run of attempts keeps. -/
theorem foldlM {step : σ → α → Attempt σ} {I : σ → Prop}
    (kept : ∀ s x, I s → Yields (step s x) I) {l : List α} {s : σ} (h : I s) :
    Yields (l.foldlM step s) I := by
  induction l generalizing s with
  | nil => exact pure h
  | cons x l ih =>
    rw [List.foldlM_cons]
    exact bind (kept s x h) fun s h => ih h

end Yields

/-! ### Logs -/

/-- The addresses found so far are wanted ones. -/
def LogState.Wanted (range : Span) (s : LogState) : Prop :=
  ∀ a ∈ s.addresses, range.start ≤ a ∧ a < range.stop

variable {src : LogSource} {s : LogState}

theorem yields_progress (h : s.Wanted src.range) :
    Yields (s.progress src) (LogState.Wanted src.range) := by
  unfold LogState.progress
  split
  · exact .pure h
  · exact .bind (.trivial _) fun _ _ => .pure h

theorem yields_record (h : s.Wanted src.range) (line : List Char) :
    Yields (s.record src line) (LogState.Wanted src.range) := by
  unfold LogState.record
  refine .bind (.trivial _) fun f _ => ?_
  split
  · exact .throw _
  · next a _ =>
    -- An address is kept only if it is wanted; progress changes no address.
    apply yields_progress
    intro b mem
    dsimp only at mem
    split at mem
    · next wanted =>
      rcases List.mem_cons.1 mem with rfl | mem
      · exact wanted
      · exact h b mem
    · exact h b mem

theorem yields_step (h : s.Wanted src.range) (line : List Text.Symbol) :
    Yields (s.step src line) (LogState.Wanted src.range) := by
  unfold LogState.step
  split
  · exact .throw _
  · dsimp only
    split
    · exact .pure h
    · apply yields_record
      exact h

theorem mem_eraseRepsBy_loop {r : Nat → Nat → Bool} {a b : Nat} {l acc : List Nat}
    (h : b ∈ List.eraseRepsBy.loop r a l acc) : b ∈ a :: l ∨ b ∈ acc := by
  induction l generalizing a acc with
  | nil => simpa [List.eraseRepsBy.loop, or_comm] using h
  | cons c l ih =>
    rw [List.eraseRepsBy.loop] at h
    split at h
    · rcases ih h with mem | mem
      · rcases List.mem_cons.1 mem with rfl | mem
        · exact .inl List.mem_cons_self
        · exact .inl (List.mem_cons_of_mem _ (List.mem_cons_of_mem _ mem))
      · exact .inr mem
    · rcases ih h with mem | mem
      · exact .inl (List.mem_cons_of_mem _ mem)
      · rcases List.mem_cons.1 mem with rfl | mem
        · exact .inl List.mem_cons_self
        · exact .inr mem

theorem mem_ascending {l : List Nat} {a : Nat} (h : a ∈ ascending l) : a ∈ l := by
  suffices mem : a ∈ l.mergeSort (· ≤ ·) from List.mem_mergeSort.1 mem
  rw [ascending, List.eraseReps] at h
  cases sorted : l.mergeSort (· ≤ ·) with
  | nil =>
    rw [sorted] at h
    cases h
  | cons b rest =>
    rw [sorted] at h
    rcases mem_eraseRepsBy_loop h with mem | mem
    · exact mem
    · cases mem

theorem pairwise_eraseRepsBy_loop {a : Nat} {l acc : List Nat} (sorted : (a :: l).Pairwise (· ≤ ·))
    (found : (a :: acc).Pairwise (· > ·)) :
    (List.eraseRepsBy.loop (· == ·) a l acc).Pairwise (· < ·) := by
  -- The numbers found are kept last first, and the one in hand is greater than all of them.
  induction l generalizing a acc with
  | nil =>
    rw [List.eraseRepsBy.loop, List.pairwise_reverse]
    exact found
  | cons c l ih =>
    obtain ⟨le, rest⟩ := List.pairwise_cons.1 sorted
    have least := le c List.mem_cons_self
    rw [List.eraseRepsBy.loop]
    split
    · exact ih (List.pairwise_cons.2 ⟨fun b mem => le b (List.mem_cons_of_mem _ mem), rest.of_cons⟩)
        found
    · next ne =>
      have lt : a < c := Nat.lt_of_le_of_ne least (by simpa using ne)
      refine ih rest (List.pairwise_cons.2 ⟨fun b mem => ?_, found⟩)
      rcases List.mem_cons.1 mem with rfl | mem
      · exact lt
      · exact Nat.lt_trans ((List.pairwise_cons.1 found).1 b mem) lt

/-- Numbers in ascending order stand in strictly ascending order. -/
theorem pairwise_ascending (l : List Nat) : (ascending l).Pairwise (· < ·) := by
  have sorted : (l.mergeSort (· ≤ ·)).Pairwise (· ≤ ·) := by
    refine (List.pairwise_mergeSort ?_ ?_ l).imp fun h => by simpa using h
    · intro a b c ab bc
      simp only [decide_eq_true_eq] at ab bc ⊢
      omega
    · intro a b
      simp only [Bool.or_eq_true, decide_eq_true_eq]
      omega
  rw [ascending, List.eraseReps]
  cases h : l.mergeSort (· ≤ ·) with
  | nil => exact .nil
  | cons b rest =>
    rw [h] at sorted
    exact pairwise_eraseRepsBy_loop sorted (List.pairwise_singleton _ _)

/-- A set of addresses of a range, in ascending order. -/
def AddressesOf (range : Span) (l : List Nat) : Prop :=
  l.Pairwise (· < ·) ∧ ∀ a ∈ l, range.start ≤ a ∧ a < range.stop

theorem yields_readLog (format : Option Format) (text : List Text.Symbol) :
    Yields (readLog src format text) (AddressesOf src.range) := by
  unfold readLog
  refine .bind (.foldlM (I := LogState.Wanted src.range) (fun s x h => yields_step h x) ?_)
    fun s h => ?_
  · intro a mem
    cases mem
  · split
    · exact .throw _
    · exact .pure ⟨pairwise_ascending _, fun a mem => h a (mem_ascending mem)⟩

/-! ### Traces -/

theorem addressesOf_addressesWhere (p : Nat → Bool) (bound : Nat) (range : Span) :
    AddressesOf range (addressesWhere p bound range) := by
  refine ⟨List.Pairwise.filter p List.pairwise_lt_range', fun a mem => ?_⟩
  have := List.mem_range'_1.1 (List.mem_filter.1 mem).1
  omega

/-- A trace that can be read yields a set of addresses of the range. -/
theorem yields_addresses (trace : Trace) (range : Span) (format : Option Format) :
    Yields (trace.addresses range format) (AddressesOf range) := by
  unfold addresses
  split
  · exact .throw _
  · split
    · exact .bind (.trivial _) fun _ _ => .pure (addressesOf_addressesWhere _ _ _)
    · exact .bind (.trivial _) fun _ _ => .pure (addressesOf_addressesWhere _ _ _)
    · exact yields_readLog _ _

end MemoryAtlas.Trace
