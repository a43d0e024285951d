import MemoryAtlas.Proofs.Trace.Verdict

/-!
# Reports of progress

Reading a log reports each further tenth of its size. What counts as read is every line and one byte
for its end, whether it has one or not, while the carriage return before a newline does not count.
So what is counted at a line may fall behind what was read, and goes beyond it by one byte at a last
line without an end.

## Main definitions

* `percentages`: the percentages among some events.
* `Trace.counted`: what some lines count as.
* `Trace.LogState.Advances`, `Trace.LogState.Reports`: what a line and a run over lines report.

## Main results

* `Trace.counted_splitLines`, `Trace.of_size_lt_counted`: what is counted, against the size of a
  text.
* `Trace.LogState.step_cases`: what a line does to the reports.
* `Trace.LogState.reports`: what a run does to them, line by line.
-/

namespace MemoryAtlas

/-- The percentage that a report of progress tells. -/
def Event.percent? : Event → Option Nat
  | .progress _ percent => some percent
  | _ => none

/-- The percentages that are reported among some events, in order. -/
def percentages (events : List Event) : List Nat := events.filterMap Event.percent?

theorem percentages_append (l r : List Event) :
    percentages (l ++ r) = percentages l ++ percentages r :=
  List.filterMap_append

namespace Trace

open Text

variable {src : LogSource} {s s' : LogState} {n size : Nat} {line last : List Char}
  {lines : List (List Char)} {text : String} {p : List Nat}

/-! ### Sizes -/

theorem encodedSize_map_some (s : List Char) :
    encodedSize (s.map some) = total Char.utf8Size s := by
  have sum : ∀ n, (s.map some).foldl (fun n c => n + symbolSize c) n =
      n + total Char.utf8Size s := by
    induction s with
    | nil => exact fun n => rfl
    | cons c s ih =>
      intro n
      rw [List.map_cons, List.foldl_cons, ih, total_cons, symbolSize, Nat.add_assoc]
  rw [encodedSize, sum, Nat.zero_add]

theorem utf8ByteSize_eq_total (text : String) :
    text.utf8ByteSize = total Char.utf8Size text.toList := by
  have bytes : ∀ s : List Char, (String.ofList s).utf8ByteSize = total Char.utf8Size s := by
    intro s
    induction s with
    | nil => rfl
    | cons c s ih =>
      rw [String.ofList_cons, String.utf8ByteSize_append, String.utf8ByteSize_singleton, ih,
        total_cons]
  rw [← bytes, String.ofList_toList]

theorem length_le_total (s : List Char) : s.length ≤ total Char.utf8Size s := by
  induction s with
  | nil => exact Nat.le_refl 0
  | cons c s ih =>
    have := c.utf8Size_pos
    rw [List.length_cons, total_cons]
    omega

/-- What some lines count as: their bytes, and one more for the end of each. -/
def counted (lines : List (List Char)) : Nat :=
  total (fun line => total Char.utf8Size line + 1) lines

theorem counted_cons (line : List Char) (lines : List (List Char)) :
    counted (line :: lines) = total Char.utf8Size line + 1 + counted lines := rfl

theorem counted_append (before after : List (List Char)) :
    counted (before ++ after) = counted before + counted after :=
  total_append ..

theorem length_le_counted (lines : List (List Char)) : lines.length ≤ counted lines := by
  induction lines with
  | nil => exact Nat.le_refl 0
  | cons line lines ih =>
    rw [List.length_cons, counted_cons]
    omega

/-- A line that is no blank one counts as two bytes at least. -/
theorem two_le_counted (before : List (List Char)) (solid : trim line ≠ []) :
    2 ≤ counted (before ++ [line]) := by
  have one : counted [line] = total Char.utf8Size line + 1 := rfl
  have nonempty : line ≠ [] := fun empty => solid (by rw [empty]; rfl)
  have := List.length_pos_of_ne_nil nonempty
  have := length_le_total line
  rw [counted_append]
  omega

/-- Whether a line ends in a carriage return. -/
def endsInReturn (line : List Char) : Bool := line.getLast? == some '\r'

/-- A carriage return before the end of a line does not count. -/
theorem counted_map_withoutReturn (lines : List (List Char)) :
    counted (lines.map withoutReturn) + lines.countP endsInReturn = counted lines := by
  induction lines with
  | nil => rfl
  | cons line lines ih =>
    rw [List.map_cons, counted_cons, counted_cons, withoutReturn, List.countP_cons, endsInReturn]
    split
    · next ends =>
      obtain ⟨init, rfl⟩ := List.getLast?_eq_some_iff.1 ends
      have one : total Char.utf8Size ['\r'] = 1 := rfl
      rw [List.dropLast_concat, total_append, one, List.getLast?_concat, if_pos (by rfl)]
      omega
    · next ends =>
      rw [if_neg (by simpa using ends)]
      omega

/-- Lines that end in newlines count as what they take. -/
theorem total_flatMap_newline (lines : List (List Char)) :
    total Char.utf8Size (lines.flatMap (· ++ ['\n'])) = counted lines := by
  induction lines with
  | nil => rfl
  | cons line lines ih =>
    rw [List.flatMap_cons, total_append, total_append, ih, counted_cons]
    rfl

/-- What the lines of a text count as: its size, less the carriage returns before newlines, and one
more if there is anything after the last newline. -/
theorem counted_splitLines (joined : lines.flatMap (· ++ ['\n']) ++ last = text.toList) :
    counted (lines.map withoutReturn ++ if last = [] then [] else [last]) +
      lines.countP endsInReturn = text.utf8ByteSize + if last = [] then 0 else 1 := by
  have returns := counted_map_withoutReturn lines
  rw [utf8ByteSize_eq_total, ← joined, total_append, total_flatMap_newline, counted_append]
  split
  · next empty =>
    rw [empty]
    exact returns
  · have unended : counted [last] = total Char.utf8Size last + 1 := rfl
    omega

/-- More than there is counts only with a last line that has no end, and then it is one byte, if no
carriage return makes up for it. -/
theorem of_size_lt_counted (joined : lines.flatMap (· ++ ['\n']) ++ last = text.toList)
    {before after : List (List Char)}
    (eq : (lines.map withoutReturn ++ if last = [] then [] else [last]) = before ++ line :: after)
    (more : text.utf8ByteSize < counted (before ++ [line])) :
    last = line ∧ after = [] ∧ lines.countP endsInReturn = 0 ∧
      counted (before ++ [line]) = text.utf8ByteSize + 1 := by
  have sizes := counted_splitLines joined
  have rest := length_le_counted after
  have whole : before ++ line :: after = before ++ [line] ++ after := by simp
  rw [eq, whole, counted_append] at sizes
  have nonempty : last ≠ [] := by
    intro empty
    rw [if_pos empty] at sizes
    omega
  rw [if_neg nonempty] at sizes eq
  have after_nil : after = [] := List.length_eq_zero_iff.1 (by omega)
  subst after_nil
  have same := congrArg List.getLast? eq
  rw [List.getLast?_concat, List.getLast?_concat, Option.some.injEq] at same
  exact ⟨same, rfl, by omega, by omega⟩

/-! ### The reports of a run -/

namespace LogState

theorem lt_of_percent?_eq_none (none : s.percent? size = none) :
    s.read * 100 / size < s.reported + 10 := by
  rw [percent?] at none
  split at none
  · next early =>
    rcases early with rfl | lt
    · rw [Nat.div_zero]
      omega
    · exact lt
  · cases none

/-- A percentage that is due is the tenth that was reached last. -/
theorem of_percent?_eq_some (due : s.percent? size = some n) :
    10 ∣ n ∧ s.reported < n ∧ n * size ≤ s.read * 100 ∧ s.read * 100 / size < n + 10 := by
  rw [percent?] at due
  split at due
  · cases due
  · next late =>
    rw [not_or, Nat.not_lt] at late
    have rest := Nat.mod_lt (s.read * 100 / size) (show 0 < 10 by decide)
    obtain rfl := Option.some.inj due
    refine ⟨Nat.dvd_sub_mod _, by omega, ?_, by omega⟩
    calc (s.read * 100 / size - s.read * 100 / size % 10) * size
        ≤ s.read * 100 / size * size := Nat.mul_le_mul_right size (Nat.sub_le _ _)
      _ ≤ s.read * 100 := Nat.div_mul_le_self _ _

/-- A line that is read makes `s'` of the state `s` and reports the percentages `p`. -/
structure Advances (size : Nat) (line : List Char) (s s' : LogState) (p : List Nat) : Prop where
  /-- The line and its end count. -/
  read : s'.read = s.read + total Char.utf8Size line + 1
  /-- At most one percentage is reported, a further tenth of what is read. -/
  report : p = [] ∧ s'.reported = s.reported ∨
    trim line ≠ [] ∧ p = [s'.reported] ∧ 10 ∣ s'.reported ∧ s.reported < s'.reported ∧
      s'.reported * size ≤ s'.read * 100
  /-- After a line that is no blank one, no report is due and the format is known. -/
  settled : trim line ≠ [] → s'.read * 100 / size < s'.reported + 10 ∧ s'.format.isSome

theorem percentages_formatOf (src : LogSource) (s : LogState) (line : List Char) :
    percentages (s.formatOf src line).run.events = [] := by
  rw [formatOf]
  cases s.format with
  | some f => rfl
  | none =>
    dsimp only
    cases Format.detect? line with
    | none => rfl
    | some f => rfl

/-- The progress that is made once the format of a state is known. -/
theorem advances_progress (src : LogSource) {s₀ : LogState}
    (read : s.read = s₀.read + total Char.utf8Size line + 1) (reported : s.reported = s₀.reported)
    (known : s.format.isSome) (solid : trim line ≠ []) :
    ∃ s', (s.progress src).run.value = .ok s' ∧
      Advances src.size line s₀ s' (percentages (s.progress src).run.events) := by
  rw [progress]
  cases due : s.percent? src.size with
  | none => exact ⟨s, rfl, read, .inl ⟨rfl, reported⟩, fun _ => ⟨lt_of_percent?_eq_none due, known⟩⟩
  | some n =>
    obtain ⟨tens, rises, reached, next⟩ := of_percent?_eq_some due
    exact ⟨{ s with reported := n }, rfl, read,
      .inr ⟨solid, rfl, tens, reported ▸ rises, reached⟩, fun _ => ⟨next, known⟩⟩

/-- A line is not read and nothing is reported, or the state advances. -/
theorem step_cases (src : LogSource) (s : LogState) (line : List Char) :
    (∃ e, (s.step src (line.map some)).run.value = .error e ∧
      percentages (s.step src (line.map some)).run.events = []) ∨
    ∃ s', (s.step src (line.map some)).run.value = .ok s' ∧
      Advances src.size line s s' (percentages (s.step src (line.map some)).run.events) := by
  by_cases blank : trim line = []
  · refine .inr ⟨{ s with
      lines := s.lines + 1
      read := s.read + encodedSize (line.map some) + 1 }, ?_⟩
    rw [step, chars?_map_some]
    simp only [blank, List.isEmpty_nil, if_true]
    exact ⟨rfl, congrArg (s.read + · + 1) (encodedSize_map_some line), .inl ⟨rfl, rfl⟩,
      fun solid => absurd blank solid⟩
  · rw [step_of_solid src s blank, record]
    cases known : (formatOf src _ line).run.value with
    | error e =>
      rw [value_bind_of_error known, events_bind_of_error known]
      exact .inl ⟨e, rfl, percentages_formatOf ..⟩
    | ok f =>
      rw [value_bind_of_ok known, events_bind_of_ok known, percentages_append,
        percentages_formatOf, List.nil_append]
      cases f.readLine? line with
      | none => exact .inl ⟨_, rfl, rfl⟩
      | some a =>
        exact .inr (advances_progress src (congrArg (s.read + · + 1) (encodedSize_map_some line))
          rfl rfl blank)

/-- The run over some lines. -/
def run (src : LogSource) (s : LogState) (lines : List (List Char)) :
    Logged (Except Error LogState) :=
  ((lines.map (·.map some)).foldlM (step src) s).run

theorem run_cons_of_error {e : Error}
    (failed : (s.step src (line.map some)).run.value = .error e) (lines : List (List Char)) :
    (run src s (line :: lines)).value = .error e ∧
      (run src s (line :: lines)).events = (s.step src (line.map some)).run.events := by
  rw [run, List.map_cons, List.foldlM_cons]
  exact ⟨value_bind_of_error failed, events_bind_of_error failed⟩

theorem run_cons_of_ok (ok : (s.step src (line.map some)).run.value = .ok s')
    (lines : List (List Char)) :
    (run src s (line :: lines)).value = (run src s' lines).value ∧
      (run src s (line :: lines)).events =
        (s.step src (line.map some)).run.events ++ (run src s' lines).events := by
  rw [run, List.map_cons, List.foldlM_cons]
  exact ⟨value_bind_of_ok ok, events_bind_of_ok ok⟩

/-- What a run over lines reports. -/
structure Reports (src : LogSource) (s : LogState) (lines : List (List Char)) : Prop where
  /-- The percentages ascend from the one last reported. -/
  rising : (s.reported :: percentages (run src s lines).events).Pairwise (· < ·)
  /-- Each of them is a tenth that is reached at a line that is no blank one. If that is the last
  line, all of them are read. -/
  reached : ∀ n ∈ percentages (run src s lines).events, 10 ∣ n ∧
    ∃ before line after, lines = before ++ line :: after ∧ trim line ≠ [] ∧
      n * src.size ≤ (s.read + counted (before ++ [line])) * 100 ∧
        (after = [] → ∃ s', (run src s lines).value = .ok s')
  /-- A run that ends well has counted all lines and reported what was due. -/
  final : ∀ s', (run src s lines).value = .ok s' → s'.read = s.read + counted lines ∧
    s'.reported ∈ s.reported :: percentages (run src s lines).events ∧
      ∀ line ∈ lines.getLast?, trim line ≠ [] →
        s'.read * 100 / src.size < s'.reported + 10 ∧ s'.format.isSome

theorem reports_nil (src : LogSource) (s : LogState) : Reports src s [] where
  rising := List.pairwise_singleton _ _
  reached n mem := nomatch mem
  final s' ok := by
    cases ok
    exact ⟨rfl, List.mem_cons_self, fun line mem => nomatch mem⟩

theorem reports_cons_of_error {e : Error}
    (failed : (s.step src (line.map some)).run.value = .error e)
    (silent : percentages (s.step src (line.map some)).run.events = []) :
    Reports src s (line :: lines) := by
  obtain ⟨value, events⟩ := run_cons_of_error failed lines
  have none : percentages (run src s (line :: lines)).events = [] := by rw [events, silent]
  refine ⟨by rw [none]; exact List.pairwise_singleton _ _, fun n mem => ?_, fun s' ok => ?_⟩
  · rw [none] at mem
    cases mem
  · rw [value] at ok
    cases ok

/-- What is reported after a line comes after what is reported at it. -/
theorem Advances.rising (h : Advances size line s s' p) {later : List Nat}
    (rising : (s'.reported :: later).Pairwise (· < ·)) :
    (s.reported :: (p ++ later)).Pairwise (· < ·) := by
  rcases h.report with ⟨rfl, same⟩ | ⟨-, rfl, -, rises, -⟩
  · rwa [← same]
  · refine List.pairwise_cons.2 ⟨fun n mem => ?_, rising⟩
    rcases List.mem_cons.1 mem with rfl | mem
    · exact rises
    · exact Nat.lt_trans rises ((List.pairwise_cons.1 rising).1 n mem)

/-- The percentage last reported is the one from before the line, or the one reported at it. -/
theorem Advances.reported_mem (h : Advances size line s s' p) :
    s'.reported ∈ s.reported :: p := by
  rcases h.report with ⟨-, same⟩ | ⟨-, rfl, -⟩
  · rw [same]
    exact List.mem_cons_self
  · exact List.mem_cons_of_mem _ List.mem_cons_self

theorem reports_cons (ok : (s.step src (line.map some)).run.value = .ok s')
    (step : Advances src.size line s s' (percentages (s.step src (line.map some)).run.events))
    (rest : Reports src s' lines) : Reports src s (line :: lines) := by
  obtain ⟨value, events⟩ := run_cons_of_ok ok lines
  have reported : percentages (run src s (line :: lines)).events =
      percentages (s.step src (line.map some)).run.events ++
        percentages (run src s' lines).events := by
    rw [events, percentages_append]
  refine ⟨by rw [reported]; exact step.rising rest.rising, fun n mem => ?_, fun s'' ok' => ?_⟩
  · rw [reported, List.mem_append] at mem
    rcases mem with mem | mem
    · -- The percentage is reported at this line.
      rcases step.report with ⟨none, -⟩ | ⟨solid, one, tens, -, reach⟩
      · rw [none] at mem
        cases mem
      · rw [one, List.mem_singleton] at mem
        subst mem
        refine ⟨tens, [], line, lines, rfl, solid, ?_, fun empty => ?_⟩
        · rw [step.read, Nat.add_assoc] at reach
          exact reach
        · rw [value, empty]
          exact ⟨s', rfl⟩
    · -- It is reported at a later one, and what this line counts as is added there.
      obtain ⟨tens, before, line', after, eq, solid, reach, done⟩ := rest.reached n mem
      refine ⟨tens, line :: before, line', after, by rw [eq]; rfl, solid, ?_, by rwa [value]⟩
      rw [List.cons_append, counted_cons]
      rw [step.read] at reach
      convert reach using 2
      omega
  · rw [value] at ok'
    obtain ⟨read, last, settled⟩ := rest.final s'' ok'
    refine ⟨by rw [read, step.read, counted_cons]; omega, ?_, fun final mem solid => ?_⟩
    · rw [reported, ← List.cons_append]
      rcases List.mem_cons.1 last with same | mem
      · rw [same]
        exact List.mem_append_left _ step.reported_mem
      · exact List.mem_append_right _ mem
    · -- The last line is this one, if no other follows.
      cases lines with
      | nil =>
        cases ok'
        cases mem
        exact step.settled solid
      | cons next lines => exact settled final mem solid

/-- Every run reports so. -/
theorem reports (src : LogSource) (s : LogState) (lines : List (List Char)) :
    Reports src s lines := by
  induction lines generalizing s with
  | nil => exact reports_nil src s
  | cons line lines ih =>
    rcases step_cases src s line with ⟨e, failed, silent⟩ | ⟨s', ok, step⟩
    · exact reports_cons_of_error failed silent
    · exact reports_cons ok step (ih s')

end LogState

end Trace

end MemoryAtlas
