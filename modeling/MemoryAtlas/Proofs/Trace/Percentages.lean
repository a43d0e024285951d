import MemoryAtlas.Proofs.Trace.Lines
import MemoryAtlas.Proofs.Trace.Progress

/-!
# The percentages that are reported

While a log is read, the percentages that are reported are multiples of ten and ascend, but the last
of them may pass a hundred. A last line without an end counts as one byte too many, and in a short
log one byte is a tenth.

## Main definitions

* `Trace.Readable`: the logs that are read to their end.
* `Trace.Overshoots`: the logs whose last report passes a hundred.

## Main results

* `Trace.overshoots_of_hundred_lt`, `Trace.exists_hundred_lt_of_overshoots`: no others do.
* `Trace.map_message_filter_debug`: the percentages are what the debug records tell.
* `Trace.percentages_sane_iff`: what is reported, and when it stays within a hundred.
-/

namespace MemoryAtlas.Trace

open Text

variable {src : LogSource} {s : LogState} {f : Format} {format : Option Format} {a n : Nat}
  {line : List Char} {lines : List (List Char)} {text : String}

/-! ### Reading and its run -/

theorem read_initial (format : Option Format) : (LogState.initial format).read = 0 := rfl

theorem reported_initial (format : Option Format) : (LogState.initial format).reported = 0 := rfl

/-- The events of reading are those of the run over the lines. -/
theorem events_readLog (split : splitLines (symbolsOf text) = lines.map (·.map some)) :
    (readLog src format (symbolsOf text)).run.events =
      (LogState.run src (.initial format) lines).events := by
  rw [readLog, split, LogState.run]
  cases value : ((lines.map (·.map some)).foldlM (LogState.step src)
      (.initial format)).run.value with
  | error e => exact events_bind_of_error value
  | ok s =>
    rw [events_bind_of_ok value]
    split <;> exact List.append_nil _

/-- A log is read if the run over its lines ends well and comes upon a format. -/
theorem exists_value_readLog (split : splitLines (symbolsOf text) = lines.map (·.map some))
    (ok : (LogState.run src (.initial format) lines).value = .ok s) (known : s.format.isSome) :
    ∃ addresses, (readLog src format (symbolsOf text)).run.value = .ok addresses := by
  rw [LogState.run] at ok
  obtain ⟨f, known⟩ := Option.isSome_iff_exists.1 known
  rw [readLog, split, value_bind_of_ok ok, known]
  exact ⟨_, rfl⟩

theorem exists_run_of_value_readLog (split : splitLines (symbolsOf text) = lines.map (·.map some))
    {addresses : List Nat}
    (ok : (readLog src format (symbolsOf text)).run.value = .ok addresses) :
    ∃ s, (LogState.run src (.initial format) lines).value = .ok s := by
  rw [readLog, split] at ok
  obtain ⟨s, ok, -⟩ := value_bind_eq_ok_iff.1 ok
  exact ⟨s, ok⟩

/-- A log can be read: its format is given or told by its first line, and every line that is no
blank one holds an address. -/
def Readable (format : Option Format) (text : String) : Prop :=
  ∃ f ∈ settledFormat? format (linesOf text), ∀ line ∈ linesOf text, (f.readLine? line.1).isSome

/-- Such logs are the ones that are read. -/
theorem readable_iff (src : LogSource) : Readable format text ↔
    ∃ addresses, (readLog src format (symbolsOf text)).run.value = .ok addresses := by
  rw [value_readLog]
  constructor
  · rintro ⟨f, settled, readable⟩
    exact ⟨_, verdict_of_read settled fun l mem => Option.isSome_iff_exists.1 (readable l mem)⟩
  · rintro ⟨addresses, ok⟩
    rw [verdict] at ok
    cases settled : settledFormat? format (linesOf text) with
    | none =>
      rw [settled] at ok
      cases ok
    | some f =>
      rw [settled] at ok
      dsimp only at ok
      cases found : (linesOf text).find? fun l => (f.readLine? l.1).isNone with
      | some l =>
        rw [found] at ok
        cases ok
      | none =>
        refine ⟨f, settled, fun l mem => ?_⟩
        have := List.find?_eq_none.1 found l mem
        rwa [← Option.not_isSome, Bool.not_eq_true, Bool.not_eq_false'] at this

/-! ### Logs that overshoot -/

theorem length_trim_le (s : List Char) : (trim s).length ≤ s.length := by
  have ended : trim s <+: trimStart s := trimEnd_prefix (trimStart s)
  have started : trimStart s <:+ s := List.dropWhile_suffix isBlank
  exact Nat.le_trans ended.length_le started.length_le

/-- A line that is read has a mark and a digit. -/
theorem Format.two_le_length (read : f.readLine? line = some a) : 2 ≤ line.length := by
  obtain ⟨token, found, value⟩ := Option.bind_eq_some_iff.1 read
  obtain ⟨body, marked, leading⟩ := Option.bind_eq_some_iff.1 found
  obtain ⟨mark, mark_eq, rest⟩ := Option.bind_eq_some_iff.1 marked
  rw [after?, Option.ite_none_right_eq_some, List.isPrefixOf_iff_prefix] at rest
  obtain ⟨⟨tail, eq⟩, rest⟩ := rest
  rw [← eq, List.drop_left, Option.some.injEq] at rest
  subst rest
  have digits : tail ≠ [] := by
    rintro rfl
    cases f <;> cases leading <;> cases value
  have marked : mark ≠ [] := by
    rintro rfl
    cases f <;> cases mark_eq
  have := List.length_pos_of_ne_nil digits
  have := List.length_pos_of_ne_nil marked
  have := length_trim_le line
  rw [← eq, List.length_append] at this
  omega

/-- The last report on a log passes a hundred: the log is short, its last line is no blank one and
has no end, no other line ends in a carriage return and a newline, and all of it can be read. -/
structure Overshoots (format : Option Format) (text : String) : Prop where
  /-- A byte is a tenth of the log or more. -/
  short : text.utf8ByteSize ≤ 10
  /-- After the last newline there is a line that is no blank one. -/
  unended : ∃ last ∈ (text.toList.splitOn '\n').getLast?, trim last ≠ []
  /-- No carriage return that does not count makes up for the end that it does not have. -/
  plain : ∀ line ∈ (text.toList.splitOn '\n').dropLast, line.getLast? ≠ some '\r'
  /-- Reading comes to the end of the log. -/
  readable : Readable format text

/-- The least log that overshoots is a mark and a digit. -/
theorem Overshoots.two_le (h : Overshoots format text) : 2 ≤ text.utf8ByteSize := by
  obtain ⟨lines, last, pieces, joined, -⟩ := exists_splitLines_eq text
  have solid : trim last ≠ [] := by simpa [pieces] using h.unended
  obtain ⟨f, -, readable⟩ := h.readable
  have mem : last ∈ text.toList.splitOn '\n' := by
    rw [pieces]
    exact List.mem_concat_self
  obtain ⟨l, found, rfl⟩ := exists_mem_numbered mem solid
  obtain ⟨a, read⟩ := Option.isSome_iff_exists.1 (readable l found)
  have := Format.two_le_length read
  have := length_le_total l.1
  rw [utf8ByteSize_eq_total, ← joined, total_append]
  omega

/-- A percentage above a hundred is reported at the last line, for which one byte too many is
counted. -/
theorem overshoots_of_hundred_lt {path : String} {range : Span}
    (mem : n ∈ percentages
      (readLog ⟨path, text.utf8ByteSize, range⟩ format (symbolsOf text)).run.events)
    (above : 100 < n) :
    Overshoots format text ∧ n * text.utf8ByteSize ≤ (text.utf8ByteSize + 1) * 100 := by
  obtain ⟨lines, last, pieces, joined, split⟩ := exists_splitLines_eq text
  rw [events_readLog split] at mem
  obtain ⟨-, reached, final⟩ := LogState.reports ⟨path, text.utf8ByteSize, range⟩ (.initial format)
    (lines.map withoutReturn ++ if last = [] then [] else [last])
  obtain ⟨tens, before, line, after, eq, solid, reach, done⟩ := reached n mem
  rw [read_initial, Nat.zero_add] at reach
  -- The next tenth after a hundred is a hundred and ten, so more is counted than there is.
  have bound : 110 * text.utf8ByteSize ≤ counted (before ++ [line]) * 100 :=
    Nat.le_trans (Nat.mul_le_mul_right _ (by omega)) reach
  have positive := two_le_counted before solid
  obtain ⟨rfl, rfl, returns, count⟩ := of_size_lt_counted joined eq (by omega)
  rw [count] at bound reach
  obtain ⟨s, ok⟩ := done rfl
  obtain ⟨-, -, settled⟩ := final s ok
  refine ⟨⟨by omega, ⟨last, by rw [pieces, List.getLast?_concat]; rfl, solid⟩, ?_, ?_⟩, reach⟩
  · rw [pieces, List.dropLast_concat]
    intro l mem
    simpa [endsInReturn] using List.countP_eq_zero.1 returns l mem
  · refine (readable_iff _).2 (exists_value_readLog split ok (settled last ?_ solid).2)
    rw [eq, List.getLast?_concat]
    rfl

/-- If the last report could pass a hundred, it does. -/
theorem exists_hundred_lt_of_overshoots {path : String} {range : Span}
    (h : Overshoots format text) :
    ∃ n ∈ percentages
      (readLog ⟨path, text.utf8ByteSize, range⟩ format (symbolsOf text)).run.events, 100 < n := by
  obtain ⟨lines, last, pieces, joined, split⟩ := exists_splitLines_eq text
  have sizes := counted_splitLines joined
  have solid : trim last ≠ [] := by simpa [pieces] using h.unended
  have plain := h.plain
  rw [pieces, List.dropLast_concat] at plain
  have nonempty : last ≠ [] := fun empty => solid (by rw [empty]; rfl)
  have returns : lines.countP endsInReturn = 0 := by
    refine List.countP_eq_zero.2 fun l mem => ?_
    simpa [endsInReturn] using plain l mem
  rw [if_neg nonempty] at split
  rw [if_neg nonempty, if_neg nonempty] at sizes
  obtain ⟨addresses, ok⟩ := (readable_iff ⟨path, text.utf8ByteSize, range⟩).1 h.readable
  obtain ⟨s, ok⟩ := exists_run_of_value_readLog split ok
  rw [events_readLog split]
  obtain ⟨read, reported, settled⟩ := (LogState.reports _ _ _).final s ok
  have due : s.read * 100 / text.utf8ByteSize < s.reported + 10 :=
    (settled last (by rw [List.getLast?_concat]; rfl) solid).1
  -- What is counted at the end is a tenth more than there is, and it has been reported.
  have tenth : 110 ≤ s.read * 100 / text.utf8ByteSize := by
    have least := h.two_le
    have short := h.short
    have count : s.read = text.utf8ByteSize + 1 := by
      rw [read, read_initial]
      omega
    rw [Nat.le_div_iff_mul_le (by omega), count]
    omega
  refine ⟨s.reported, ?_, by omega⟩
  rcases List.mem_cons.1 reported with zero | mem
  · rw [reported_initial] at zero
    omega
  · exact mem

/-! ### Records -/

section Records

variable {α β : Type} {P : Event → Prop}

/-- Whatever the attempt reports satisfies `P`. -/
def Tells (P : Event → Prop) (x : Attempt α) : Prop := ∀ e ∈ x.run.events, P e

namespace Tells

theorem pure (x : α) : Tells P (pure x) := fun _ mem => nomatch mem

theorem throw (e : Error) : Tells P (throw e : Attempt α) := fun _ mem => nomatch mem

theorem report {e : Event} (h : P e) : Tells P (report e) := by
  rintro e mem
  obtain rfl := List.mem_singleton.1 mem
  exact h

theorem bind {x : Attempt α} {f : α → Attempt β} (hx : Tells P x) (hf : ∀ a, Tells P (f a)) :
    Tells P (x >>= f) := by
  intro e mem
  cases value : x.run.value with
  | error _ =>
    rw [events_bind_of_error value] at mem
    exact hx e mem
  | ok a =>
    rw [events_bind_of_ok value] at mem
    rcases List.mem_append.1 mem with mem | mem
    · exact hx e mem
    · exact hf a e mem

theorem foldlM {step : β → α → Attempt β} (told : ∀ s x, Tells P (step s x)) (l : List α) (s : β) :
    Tells P (l.foldlM step s) := by
  induction l generalizing s with
  | nil => exact pure s
  | cons x l ih =>
    rw [List.foldlM_cons]
    exact bind (told s x) ih

end Tells

/-- The events of reading a log: how far it has come, and the format that was found. -/
def OfLog (path : String) (e : Event) : Prop :=
  (∃ n, e = .progress path n) ∨ ∃ f, e = .reading f path

theorem tells_progress (src : LogSource) (s : LogState) :
    Tells (OfLog src.path) (s.progress src) := by
  rw [LogState.progress]
  split
  · exact .pure _
  · next n _ => exact .bind (.report (.inl ⟨n, rfl⟩)) fun _ => .pure _

theorem tells_formatOf (src : LogSource) (s : LogState) (line : List Char) :
    Tells (OfLog src.path) (s.formatOf src line) := by
  rw [LogState.formatOf]
  split
  · exact .pure _
  · split
    · exact .throw _
    · next f _ => exact .bind (.report (.inr ⟨f, rfl⟩)) fun _ => .pure _

theorem tells_step (src : LogSource) (s : LogState) (line : List Symbol) :
    Tells (OfLog src.path) (s.step src line) := by
  rw [LogState.step]
  split
  · exact .throw _
  · dsimp only
    split
    · exact .pure _
    · rw [LogState.record]
      refine .bind (tells_formatOf src _ _) fun f => ?_
      split
      · exact .throw _
      · exact tells_progress src _

theorem tells_readLog (src : LogSource) (format : Option Format) (text : List Symbol) :
    Tells (OfLog src.path) (readLog src format text) := by
  rw [readLog]
  refine .bind (.foldlM (tells_step src) _ _) fun s => ?_
  split
  · exact .throw _
  · exact .pure _

/-- Of the events of reading a log, those that tell how far it has come are debug records. -/
theorem map_message_filter_debug {path : String} {events : List Event}
    (told : ∀ e ∈ events, OfLog path e) :
    (events.filter fun e => e.level = .debug).map Event.message =
      (percentages events).map fun n => path ++ ": " ++ toString n ++ "%" := by
  induction events with
  | nil => rfl
  | cons e events ih =>
    rw [List.forall_mem_cons] at told
    have later := ih told.2
    rcases told.1 with ⟨n, rfl⟩ | ⟨f, rfl⟩
    · rw [List.filter_cons_of_pos (by rfl), List.map_cons, later]
      rfl
    · rw [List.filter_cons_of_neg (by simp [Event.level]), later]
      rfl

end Records

/-- The debug records of reading a log tell percentages of its size. They are multiples of ten above
zero, strictly ascend, and never pass a hundred and fifty. They stay within a hundred exactly if the
log is not one that overshoots: of ten bytes at most, with a last line that is no blank one and has
no end, without carriage returns before newlines, and readable to its end. -/
theorem percentages_sane_iff (path : String) (range : Span) (format : Option Format)
    (text : String) :
    let events := (readLog ⟨path, text.utf8ByteSize, range⟩ format (symbolsOf text)).run.events
    ((events.filter fun e => e.level = .debug).map Event.message =
      (percentages events).map fun n => path ++ ": " ++ toString n ++ "%") ∧
    (∀ n ∈ percentages events, 10 ∣ n ∧ 0 < n ∧ n ≤ 150) ∧
    (percentages events).Pairwise (· < ·) ∧
    ((∀ n ∈ percentages events, n ≤ 100) ↔ ¬ Overshoots format text) := by
  intro events
  obtain ⟨lines, last, -, -, split⟩ := exists_splitLines_eq text
  obtain ⟨rising, reached, -⟩ := LogState.reports ⟨path, text.utf8ByteSize, range⟩ (.initial format)
    (lines.map withoutReturn ++ if last = [] then [] else [last])
  rw [← events_readLog split] at rising reached
  obtain ⟨positive, ascending⟩ := List.pairwise_cons.1 rising
  refine ⟨map_message_filter_debug (tells_readLog _ format _), fun n mem => ?_, ascending, ?_⟩
  · refine ⟨(reached n mem).1, positive n mem, Nat.le_of_not_lt fun above => ?_⟩
    obtain ⟨overshoots, bound⟩ := overshoots_of_hundred_lt mem (by omega)
    have least := overshoots.two_le
    have : 151 * text.utf8ByteSize ≤ n * text.utf8ByteSize := Nat.mul_le_mul_right _ above
    omega
  · constructor
    · intro sane overshoots
      obtain ⟨n, mem, above⟩ := exists_hundred_lt_of_overshoots overshoots
      exact Nat.not_lt.2 (sane n mem) above
    · intro steady n mem
      exact Nat.le_of_not_lt fun above => steady (overshoots_of_hundred_lt mem above).1

/-- A log of one line without an end, of which half as much again is read as there is. -/
theorem percentages_sane_iff_unended :
    let events :=
      (readLog ⟨"t.log", "$0".utf8ByteSize, ⟨0, 0x10000⟩⟩ none (symbolsOf "$0")).run.events
    (events.filter fun e => e.level = .debug).map Event.message = ["t.log: 150%"] ∧
      percentages events = [150] ∧ 10 ∣ 150 ∧ Overshoots none "$0" := by
  intro events
  obtain ⟨records, tens, -, sane⟩ := percentages_sane_iff "t.log" ⟨0, 0x10000⟩ none "$0"
  have reported : percentages events = [150] := by decide +kernel
  have mem : 150 ∈ percentages events := by rw [reported]; exact List.mem_cons_self
  refine ⟨?_, reported, (tens 150 mem).1, ?_⟩
  · rw [records]
    change (percentages events).map _ = _
    rw [reported]
    decide +kernel
  · by_contra steady
    exact absurd (sane.2 steady 150 mem) (by decide)

end MemoryAtlas.Trace
