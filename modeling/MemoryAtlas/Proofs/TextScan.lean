import MemoryAtlas.Proofs.Marking

/-!
# Longest runs and the text among them

The scan for text lists the longest runs of text characters in a range and keeps those that are
text. Whether a span is listed can be told by looking at its own addresses and the two next to it,
so a scan of a part of the range lists the same runs, unless a run goes over an end of that part.

## Main definitions

* `LongestRun`: a span of a range that has a property and cannot be made longer.
* `scan`: a scan for such spans, one address at a time.
* `Separated`, `Gap`: spans that do not touch, and what they leave of a range.

## Main results

* `mem_longestRuns_iff`: the longest runs that are listed.
* `scan_eq_filter`: a scan in one pass finds them.
* `separated_findText`: spans of text ascend and do not touch.
* `findText_of_mem`: a scan of a span of text finds that span.
* `Gap.findText_eq_nil`: a scan between spans of text finds nothing.
-/

namespace MemoryAtlas

variable {s : Settings} {m : Image} {context : TextContext} {p : Nat → Bool}
  {a b x y start stop : Nat} {r range span : Span} {spans : List Span}

/-! ### Longest runs -/

/-- A span of the range whose addresses have the property `p`, and those next to it do not, unless
they are outside of the range. -/
structure LongestRun (p : Nat → Bool) (start stop : Nat) (r : Span) : Prop where
  /-- The run starts in the range. -/
  lower : start ≤ r.start
  /-- The run is not empty. -/
  nonempty : r.start < r.stop
  /-- The run ends in the range. -/
  upper : r.stop ≤ stop
  /-- All of it has the property. -/
  holds : ∀ a, r.start ≤ a → a < r.stop → p a = true
  /-- It cannot start earlier. -/
  first : r.start = start ∨ p (r.start - 1) = false
  /-- It cannot end later. -/
  last : r.stop = stop ∨ p r.stop = false

theorem holds_of_lt_runEnd (above : a ≤ b) (below : b < runEnd p stop a) : p b = true := by
  fun_induction runEnd p stop a with
  | case1 a lt holds ih =>
    rcases Nat.eq_or_lt_of_le above with rfl | lt
    · exact holds
    · exact ih lt below
  | case2 a lt fails => omega
  | case3 a ge => omega

theorem runEnd_fails (le : a ≤ stop) : runEnd p stop a = stop ∨ p (runEnd p stop a) = false := by
  fun_induction runEnd p stop a with
  | case1 a lt holds ih => exact ih lt
  | case2 a lt fails => exact .inr (Bool.eq_false_iff.2 fails)
  | case3 a ge => exact .inl (Nat.le_antisymm le (Nat.not_lt.1 ge))

theorem LongestRun.runEnd_eq (h : LongestRun p start stop r) : runEnd p stop r.start = r.stop := by
  have below : r.start < stop := Nat.lt_of_lt_of_le h.nonempty h.upper
  -- Were the ends different, the property would hold and fail at the lower of the two.
  rcases Nat.lt_trichotomy (runEnd p stop r.start) r.stop with lt | same | gt
  · have holds := h.holds _ le_runEnd lt
    rcases runEnd_fails (p := p) (Nat.le_of_lt below) with eq | fails
    · have := h.upper
      omega
    · rw [fails] at holds
      cases holds
  · exact same
  · have holds := holds_of_lt_runEnd (Nat.le_of_lt h.nonempty) gt
    rcases h.last with eq | fails
    · have := runEnd_le (p := p) (Nat.le_of_lt below)
      omega
    · rw [fails] at holds
      cases holds

/-- The scan lists the longest runs of the range. -/
theorem mem_longestRuns_iff : r ∈ longestRuns p start stop ↔ LongestRun p start stop r := by
  constructor
  · intro mem
    obtain ⟨lower, nonempty, upper⟩ := bounds_of_mem_longestRuns mem
    obtain ⟨a, start_mem, rfl⟩ := List.mem_map.1 mem
    have starts := (List.mem_filter.1 start_mem).2
    simp only [startsRun, Bool.and_eq_true, Bool.or_eq_true, beq_iff_eq,
      Bool.not_eq_true'] at starts
    exact ⟨lower, nonempty, upper, fun _ => holds_of_lt_runEnd, starts.2,
      runEnd_fails (Nat.le_of_lt (Nat.lt_of_lt_of_le nonempty upper))⟩
  · intro h
    have := h.lower
    have := h.nonempty
    have := h.upper
    refine List.mem_map.2 ⟨r.start, List.mem_filter.2 ⟨List.mem_range'_1.2 (by omega), ?_⟩, ?_⟩
    · simpa [startsRun, h.holds r.start (Nat.le_refl _) h.nonempty] using h.first
    · rw [h.runEnd_eq]

/-- Two longest runs do not touch. -/
theorem LongestRun.stop_lt_start (h : LongestRun p start stop r) (h' : LongestRun p start stop span)
    (lt : r.start < span.start) : r.stop < span.start := by
  refine Nat.lt_of_not_le fun le => ?_
  -- The address before the second run would be in the first.
  have holds := h.holds (span.start - 1) (by omega) (by omega)
  rcases h'.first with eq | fails
  · have := h.lower
    omega
  · rw [fails] at holds
    cases holds

/-- A longest run of a part of the range, at whose ends the property changes or fails, is one of the
range. -/
theorem LongestRun.widen (h : LongestRun p x y r) (lower : start ≤ x) (upper : y ≤ stop)
    (first : x = start ∨ p (x - 1) = false ∨ p x = false)
    (last : y = stop ∨ p y = false ∨ p (y - 1) = false) : LongestRun p start stop r where
  lower := Nat.le_trans lower h.lower
  nonempty := h.nonempty
  upper := Nat.le_trans h.upper upper
  holds := h.holds
  first := by
    rcases h.first with eq | fails
    · -- The run starts with the part, where the property holds.
      rcases first with first | fails | fails
      · exact .inl (eq.trans first)
      · exact .inr (by rwa [eq])
      · rw [← eq, h.holds _ (Nat.le_refl _) h.nonempty] at fails
        cases fails
    · exact .inr fails
  last := by
    rcases h.last with eq | fails
    · -- The run ends with the part, and the property holds just before.
      rcases last with last | fails | fails
      · exact .inl (eq.trans last)
      · exact .inr (by rwa [eq])
      · have := h.nonempty
        rw [← eq, h.holds (r.stop - 1) (by omega) (by omega)] at fails
        cases fails
    · exact .inr fails

theorem pairwise_longestRuns :
    (longestRuns p start stop).Pairwise fun r r' => r.stop < r'.start := by
  have ascending : (longestRuns p start stop).Pairwise fun r r' => r.start < r'.start := by
    rw [longestRuns, runsFrom, List.pairwise_map]
    exact List.Pairwise.filter _ List.pairwise_lt_range'
  refine ascending.imp_of_mem fun mem mem' lt => ?_
  exact (mem_longestRuns_iff.1 mem).stop_lt_start (mem_longestRuns_iff.1 mem') lt

/-! ### Longest runs in one pass -/

/-- The run that ends at an address, if there is one and it is kept. -/
def endRun (keep : Span → Bool) (run : Option Nat) (stop : Nat) : List Span :=
  (run.map fun a => (⟨a, stop⟩ : Span)).toList.filter keep

/-- A scan one address at a time, with the spans found so far and the start of the open run. A run
is added to the spans where it ends, or at the end of the range, if it is kept. -/
def scan (p : Nat → Bool) (keep : Span → Bool) (stop : Nat) (found : List Span) (run : Option Nat)
    (a : Nat) : List Span :=
  if a < stop then
    if p a then scan p keep stop found (run.or (some a)) (a + 1)
    else scan p keep stop (found ++ endRun keep run a) none (a + 1)
  else found ++ endRun keep run stop
termination_by stop - a

theorem runsFrom_of_le (ge : stop ≤ a) : runsFrom p start stop a = [] := by
  rw [runsFrom, Nat.sub_eq_zero_of_le ge]
  rfl

theorem runsFrom_of_lt (lt : a < stop) :
    runsFrom p start stop a =
      if startsRun p start a then ⟨a, runEnd p stop a⟩ :: runsFrom p start stop (a + 1)
      else runsFrom p start stop (a + 1) := by
  rw [runsFrom, show stop - a = stop - (a + 1) + 1 by omega, List.range'_succ, List.filter_cons]
  split
  · rw [List.map_cons]
    rfl
  · rfl

/-- What a scan finds from an address on: the open run, as far as it goes, and the runs that start
later. A run is open just if none may start at the address. -/
theorem scan_eq_append {keep : Span → Bool} {found : List Span} {run : Option Nat}
    (above : start ≤ a) (below : a ≤ stop) (opened : run.isNone = (a == start || !p (a - 1))) :
    scan p keep stop found run a =
      found ++ endRun keep run (runEnd p stop a) ++ (runsFrom p start stop a).filter keep := by
  fun_induction scan p keep stop found run a with
  | case1 found run a lt holds ih =>
    -- The property goes on with the open run, or starts one.
    have starts : startsRun p start a = run.isNone := by
      rw [startsRun, holds, Bool.true_and, opened]
    have ends : runEnd p stop a = runEnd p stop (a + 1) := by rw [runEnd, if_pos lt, if_pos holds]
    have later : (a + 1 == start) = false := beq_eq_false_iff_ne.2 (by omega)
    rw [ih (Nat.le_succ_of_le above) lt (by simp [later, holds]), runsFrom_of_lt lt, starts, ends]
    cases run with
    | none =>
      rw [Option.isNone_none, if_pos rfl, ← List.singleton_append, List.filter_append,
        ← List.append_assoc]
      simp [endRun]
    | some b => rfl
  | case2 found run a lt fails ih =>
    -- Where it fails the open run ends.
    have starts : startsRun p start a = false := by
      rw [startsRun, Bool.eq_false_iff.2 fails, Bool.false_and]
    have ends : runEnd p stop a = a := by rw [runEnd, if_pos lt, if_neg fails]
    rw [ih (Nat.le_succ_of_le above) lt (by simp [fails]), runsFrom_of_lt lt, starts, ends]
    simp [endRun]
  | case3 found run a ge =>
    obtain rfl : a = stop := Nat.le_antisymm below (Nat.le_of_not_lt ge)
    rw [runsFrom_of_le (Nat.le_refl a), runEnd, if_neg ge, List.filter_nil, List.append_nil]

/-- A scan one address at a time finds the longest runs that are kept. -/
theorem scan_eq_filter (p : Nat → Bool) (keep : Span → Bool) (start stop : Nat) :
    scan p keep stop [] none start = (longestRuns p start stop).filter keep := by
  rcases Nat.lt_or_ge stop start with lt | le
  · rw [scan, if_neg (Nat.lt_asymm lt), longestRuns, runsFrom_of_le (Nat.le_of_lt lt)]
    rfl
  · rw [scan_eq_append (Nat.le_refl start) le (by simp)]
    rfl

/-! ### Text -/

theorem mem_findText_iff :
    r ∈ findText s m context start stop ↔
      LongestRun (fun a => s.isTextByte (m.read a)) start stop r ∧ isText s m context r = true := by
  rw [findText, List.mem_filter, mem_longestRuns_iff]

/-- Where no byte is a text character there is no text. -/
theorem findText_eq_nil
    (none : ∀ a, start ≤ a → a < stop → s.isTextByte (m.read a) = false) :
    findText s m context start stop = [] := by
  refine List.eq_nil_iff_forall_not_mem.2 fun r mem => ?_
  obtain ⟨run, -⟩ := mem_findText_iff.1 mem
  have lt := run.nonempty
  have text := run.holds r.start (Nat.le_refl _) lt
  have upper := run.upper
  rw [none r.start run.lower (by omega)] at text
  cases text

/-- Spans of text ascend and do not touch. -/
theorem pairwise_findText :
    (findText s m context start stop).Pairwise fun r r' => r.stop < r'.start :=
  pairwise_longestRuns.filter _

/-! ### Between spans -/

/-- Spans of a range that ascend and do not touch. -/
structure Separated (range : Span) (spans : List Span) : Prop where
  /-- The spans are not empty and lie in the range. -/
  within : ∀ span ∈ spans, range.start ≤ span.start ∧ span.start < span.stop ∧
    span.stop ≤ range.stop
  /-- Each ends before the next one starts. -/
  pairwise : spans.Pairwise fun r r' => r.stop < r'.start

theorem separated_findText : Separated ⟨start, stop⟩ (findText s m context start stop) :=
  ⟨fun _ => bounds_of_mem_findText, pairwise_findText⟩

/-- Of two spans one lies before the other. -/
theorem Separated.apart (h : Separated range spans) (mem : r ∈ spans) (mem' : span ∈ spans) :
    r = span ∨ r.stop < span.start ∨ span.stop < r.start := by
  obtain ⟨before, after, rfl⟩ := List.append_of_mem mem
  obtain ⟨-, later, earlier⟩ := List.pairwise_append.1 h.pairwise
  rcases List.mem_append.1 mem' with mem' | mem'
  · exact .inr (.inr (earlier span mem' r List.mem_cons_self))
  · rcases List.mem_cons.1 mem' with rfl | mem'
    · exact .inl rfl
    · exact .inr (.inl ((List.pairwise_cons.1 later).1 span mem'))

/-- No span starts where one ends. -/
theorem Separated.start_ne_stop (h : Separated range spans) (mem : r ∈ spans)
    (mem' : span ∈ spans) : r.start ≠ span.stop := by
  have := h.within r mem
  have := h.within span mem'
  rcases h.apart mem mem' with rfl | before | after
  · omega
  · omega
  · omega

/-- A scan of a span of text finds that span. -/
theorem findText_of_mem (h : span ∈ findText s m context start stop) :
    findText s m context span.start span.stop = [span] := by
  obtain ⟨run, text⟩ := mem_findText_iff.1 h
  have found : span ∈ findText s m context span.start span.stop :=
    mem_findText_iff.2 ⟨{ run with
      lower := Nat.le_refl _, upper := Nat.le_refl _, first := .inl rfl, last := .inl rfl }, text⟩
  have separated : Separated ⟨span.start, span.stop⟩ (findText s m context span.start span.stop) :=
    separated_findText
  -- Any other run would lie beside this one, but this one takes up the whole range.
  have alone : ∀ r ∈ findText s m context span.start span.stop, r = span := by
    intro r mem
    have := separated.within r mem
    have := separated.apart mem found
    dsimp only at *
    rcases this with eq | lt | lt
    · exact eq
    · omega
    · omega
  have distinct := separated.pairwise
  obtain ⟨first, rest, eq⟩ := List.exists_cons_of_ne_nil (List.ne_nil_of_mem found)
  rw [eq] at alone distinct ⊢
  obtain rfl := alone first List.mem_cons_self
  have rest_nil : rest = [] := by
    refine List.eq_nil_iff_forall_not_mem.2 fun r mem => ?_
    obtain rfl := alone r (List.mem_cons_of_mem _ mem)
    have := (List.pairwise_cons.1 distinct).1 _ mem
    have := run.nonempty
    omega
  rw [rest_nil]

/-- What spans leave of a range: from an end of the range or of a span to the next one, with no span
in between. -/
structure Gap (range : Span) (spans : List Span) (r : Span) : Prop where
  /-- The gap is not empty. -/
  nonempty : r.start < r.stop
  /-- It starts with the range or where a span ends. -/
  first : r.start = range.start ∨ ∃ span ∈ spans, span.stop = r.start
  /-- It ends with the range or where a span starts. -/
  last : r.stop = range.stop ∨ ∃ span ∈ spans, span.start = r.stop
  /-- No span reaches into it. -/
  apart : ∀ span ∈ spans, span.stop ≤ r.start ∨ r.stop ≤ span.start

theorem Gap.bounds (gap : Gap range spans r) (h : Separated range spans) :
    range.start ≤ r.start ∧ r.stop ≤ range.stop := by
  constructor
  · rcases gap.first with eq | ⟨span, mem, eq⟩
    · exact Nat.le_of_eq eq.symm
    · have := h.within span mem
      omega
  · rcases gap.last with eq | ⟨span, mem, eq⟩
    · exact Nat.le_of_eq eq
    · have := h.within span mem
      omega

/-- Between the spans of text no scan finds text. -/
theorem Gap.findText_eq_nil (gap : Gap ⟨start, stop⟩ (findText s m context start stop) r) :
    findText s m context r.start r.stop = [] := by
  obtain ⟨above, below⟩ := gap.bounds separated_findText
  dsimp only at above below
  have nonempty := gap.nonempty
  -- The ends of the gap are those of the range, or a character next to them is no text.
  have first : r.start = start ∨ s.isTextByte (m.read r.start) = false := by
    refine gap.first.imp_right ?_
    rintro ⟨span, mem, eq⟩
    rcases (mem_findText_iff.1 mem).1.last with eq' | fails
    · omega
    · rwa [eq] at fails
  have last : r.stop = stop ∨ s.isTextByte (m.read (r.stop - 1)) = false := by
    refine gap.last.imp_right ?_
    rintro ⟨span, mem, eq⟩
    rcases (mem_findText_iff.1 mem).1.first with eq' | fails
    · omega
    · rwa [eq] at fails
  refine List.eq_nil_iff_forall_not_mem.2 fun found mem => ?_
  obtain ⟨run, text⟩ := mem_findText_iff.1 mem
  -- A run found between the spans would be a span of text of the whole range.
  have wide := run.widen above below (first.imp_right .inr) (last.imp_right .inr)
  have := gap.apart found (mem_findText_iff.2 ⟨wide, text⟩)
  have := run.lower
  have := run.nonempty
  have := run.upper
  omega

end MemoryAtlas
