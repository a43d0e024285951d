import MemoryAtlas.Proofs.Text.Numeral
import MemoryAtlas.Proofs.Trace.Addresses

/-!
# Reading logs

What a line of a log says depends on its text between blanks. A line that is written in the shape of
a format is detected as that format, and its address is read. A run over lines that can all be read
counts them, settles the format and gathers the wanted addresses.

## Main definitions

* `Trace.LineShape`, `Trace.Format.shape?`: what stands around the address on a line.
* `Trace.Format.Lists`: a line that is written for an address.
* `Trace.LogState.Follows`: what a run over lines makes of a state.

## Main results

* `Trace.Format.Lists.readLine?_eq`, `Trace.Format.Lists.detect?_eq`: such a line is read.
* `Trace.LogState.exists_follows`: a run over lines that can be read.
* `Trace.splitLines_flatMap`: the lines of a text.
-/

namespace MemoryAtlas.Trace

open Text

/-! ### Lines -/

/-- What stands around the address on a line of a log. -/
structure LineShape where
  /-- The mark before the address. -/
  mark : String
  /-- The base of its digits. -/
  base : Nat
  /-- The characters that may come after it. -/
  closes : Char → Bool

namespace Format

/-- The shape of the lines of a log. Tables have none. -/
def shape? : Format → Option LineShape
  | fuse => some ⟨"0x", 16, (· == ',')⟩
  | spud => some ⟨"PC = ", 16, isBlank⟩
  | zero => some ⟨"PC:", 10, isBlank⟩
  | address => some ⟨"$", 16, fun c => isBlank c || c == ':'⟩
  | bitmap | occupancy => none

/-- The line has the shape of the format with the address `a` in it. The address ends the line, or
is followed by a character that may come after it and by anything. -/
def Lists (f : Format) (a : Nat) (line : List Char) : Prop :=
  ∃ shape ∈ f.shape?, ∃ digits rest, line = shape.mark.toList ++ (digits ++ rest) ∧
    IsNumeral shape.base a digits ∧ ∀ c ∈ rest.head?, shape.closes c = true

variable {f : Format} {shape : LineShape} {a : Nat} {line line' digits rest : List Char} {c : Char}

/-! #### What a line says is between its blanks -/

theorem body?_congr (same : trim line = trim line') : f.body? line = f.body? line' := by
  rw [body?, body?, same]

theorem detect?_congr (same : trim line = trim line') : detect? line = detect? line' := by
  rw [detect?, detect?]
  exact congrArg (logs.find? ·) (funext fun f => by rw [body?_congr same])

theorem token?_congr (same : trim line = trim line') : f.token? line = f.token? line' := by
  rw [token?, token?, body?_congr same]

theorem readLine?_congr (same : trim line = trim line') : f.readLine? line = f.readLine? line' := by
  rw [readLine?, readLine?, token?_congr same]

/-! #### A written line is read -/

theorem mark?_of_shape? (found : f.shape? = some shape) :
    f.mark? = some shape.mark.toList ∧ f.base = shape.base := by
  cases f <;> cases found <;> exact ⟨rfl, rfl⟩

theorem base_of_shape? (found : f.shape? = some shape) : 1 < shape.base ∧ shape.base ≤ 16 := by
  cases f <;> cases found <;> decide

/-- The blanks of a written line are at its end, after the address. -/
theorem trim_written (found : f.shape? = some shape) (numeral : IsNumeral shape.base a digits) :
    trim (shape.mark.toList ++ (digits ++ rest)) =
      shape.mark.toList ++ (digits ++ trimEnd rest) := by
  obtain ⟨two, le⟩ := base_of_shape? found
  obtain ⟨c, mark, eq, solid⟩ : ∃ c mark, shape.mark.toList = c :: mark ∧ isBlank c = false := by
    cases f <;> cases found <;> exact ⟨_, _, rfl, by decide⟩
  obtain ⟨init, last, rfl⟩ : ∃ init last, digits = init ++ [last] :=
    ⟨_, _, (List.dropLast_concat_getLast numeral.ne_nil).symm⟩
  have ends : isBlank last = false := (numeral.solid two le (by simp)).1
  rw [trim, eq, List.cons_append, trimStart_cons solid]
  have := trimEnd_append_cons (s := c :: mark ++ init) (r := rest) ends
  simpa using this

theorem takeWhile_append_eq {p : Char → Bool} (digits_hold : ∀ c ∈ digits, p c = true)
    (rest_stops : ∀ c ∈ rest.head?, p c = false) : (digits ++ rest).takeWhile p = digits := by
  rw [List.takeWhile_append_of_pos digits_hold]
  cases rest with
  | nil => simp
  | cons c rest => simp [rest_stops c rfl]

/-- The address of a written line is found. -/
theorem leading?_written (found : f.shape? = some shape) (numeral : IsNumeral shape.base a digits)
    (closed : ∀ c ∈ rest.head?, shape.closes c = true) :
    f.leading? (digits ++ rest) = some digits := by
  obtain ⟨two, le⟩ := base_of_shape? found
  have solid := fun c (mem : c ∈ digits) => numeral.solid two le mem
  obtain ⟨first, others, eq⟩ := List.exists_cons_of_ne_nil numeral.ne_nil
  have word : (∀ c ∈ rest.head?, isBlank c = true) → firstWord? (digits ++ rest) = some digits := by
    intro blank
    have start : trimStart (digits ++ rest) = digits ++ rest := by
      rw [eq, List.cons_append]
      exact trimStart_cons (solid first (by simp [eq])).1
    rw [firstWord?, start, takeWhile_append_eq (fun c mem => by simp [solid c mem])
      fun c mem => by simp [blank c mem], eq]
  -- Each format has its own rule for where the address ends.
  cases f <;> cases found
  · exact congrArg some (takeWhile_append_eq (fun c mem => by simp [solid c mem])
      fun c mem => by simpa using closed c mem)
  · exact word closed
  · exact word closed
  · refine congrArg some (takeWhile_append_eq (fun c mem => by simp [solid c mem]) fun c mem => ?_)
    have := closed c mem
    simp only [Bool.or_eq_true, beq_iff_eq] at this
    rcases this with blank | colon
    · simp [blank]
    · simp [colon]

theorem after?_append (start s : List Char) : after? start (start ++ s) = some s := by
  rw [after?, if_pos (by simp), List.drop_left]

theorem body?_written (found : f.shape? = some shape) (numeral : IsNumeral shape.base a digits) :
    f.body? (shape.mark.toList ++ (digits ++ rest)) = some (digits ++ trimEnd rest) := by
  rw [body?, (mark?_of_shape? found).1, trim_written found numeral]
  exact after?_append _ _

/-- A line after the mark of a format is detected as that format: no mark starts with another one,
so the marks that are tried before fail. -/
theorem detect?_of_body? {body : List Char} (marked : f.body? line = some body) :
    detect? line = some f := by
  obtain ⟨mark, found, rest⟩ := Option.bind_eq_some_iff.1 marked
  rw [after?, Option.ite_none_right_eq_some, List.isPrefixOf_iff_prefix] at rest
  obtain ⟨⟨tail, eq⟩, -⟩ := rest
  rw [detect?]
  simp only [body?, ← eq]
  cases f <;> cases found <;> rfl

namespace Lists

/-- The address of a written line is read. -/
theorem readLine?_eq (h : f.Lists a line) (lt : a < addressSpace) : f.readLine? line = some a := by
  obtain ⟨shape, found, digits, rest, rfl, numeral, closed⟩ := h
  obtain ⟨two, le⟩ := base_of_shape? found
  -- What is left of the rest after trimming starts as the rest does.
  have closed' : ∀ c ∈ (trimEnd rest).head?, shape.closes c = true := by
    intro c mem
    obtain ⟨tail, eq⟩ := trimEnd_prefix rest
    refine closed c ?_
    rw [← eq, List.head?_append, Option.mem_def.1 mem]
    rfl
  have token : f.token? (shape.mark.toList ++ (digits ++ rest)) = some digits := by
    rw [token?, body?_written found numeral]
    exact leading?_written found numeral closed'
  rw [readLine?, token, Option.bind_some, (mark?_of_shape? found).2,
    trim_of_solid fun c mem => (numeral.solid two le mem).1]
  exact numeral.readBelow?_eq two le lt

/-- A written line is no blank one. -/
theorem trim_ne_nil (h : f.Lists a line) : trim line ≠ [] := by
  obtain ⟨shape, found, digits, rest, rfl, numeral, -⟩ := h
  rw [trim_written found numeral]
  have := numeral.ne_nil
  simp [this]

/-- The format of a written line is detected. -/
theorem detect?_eq (h : f.Lists a line) : detect? line = some f := by
  obtain ⟨shape, found, digits, rest, rfl, numeral, -⟩ := h
  exact detect?_of_body? (body?_written found numeral)

end Lists

end Format

/-! ### Runs over lines -/

variable {src : LogSource} {s s' : LogState} {f : Format} {a : Nat} {line : List Char}
  {lines : List (List Char)}

/-- The address on a line, if it is no blank one. -/
def addressOn? (f : Format) (line : List Char) : Option Nat :=
  if (trim line).isEmpty then none else f.readLine? line

/-- The addresses of the range. -/
def LogSource.wanted (src : LogSource) (addresses : List Nat) : List Nat :=
  addresses.filter fun a => src.range.start ≤ a ∧ a < src.range.stop

theorem LogSource.wanted_singleton (src : LogSource) (a : Nat) :
    src.wanted [a] = if src.range.start ≤ a ∧ a < src.range.stop then [a] else [] := by
  simp [wanted, List.filter_cons]

namespace LogState

/-- What a run over lines makes of a state: the lines are counted, the first that is no blank one
settles the format, and the wanted addresses are added. -/
structure Follows (src : LogSource) (f : Format) (lines : List (List Char)) (s s' : LogState) :
    Prop where
  /-- All lines count. -/
  count : s'.lines = s.lines + lines.length
  /-- A line that is no blank one settles the format. -/
  format : s'.format = if lines.all fun l => (trim l).isEmpty then s.format else some f
  /-- The addresses are kept last first. -/
  addresses : s'.addresses = (src.wanted (lines.filterMap (addressOn? f))).reverse ++ s.addresses

theorem Follows.refl (src : LogSource) (f : Format) (s : LogState) : Follows src f [] s s :=
  ⟨rfl, rfl, rfl⟩

/-- A report changes nothing that is known of the log. -/
theorem exists_progress (src : LogSource) (s : LogState) :
    ∃ s', (s.progress src).run.value = .ok s' ∧ s'.lines = s.lines ∧ s'.format = s.format ∧
      s'.addresses = s.addresses := by
  rw [progress]
  cases s.percent? src.size with
  | none => exact ⟨s, rfl, rfl, rfl, rfl⟩
  | some percent => exact ⟨_, rfl, rfl, rfl, rfl⟩

/-- A blank line only counts. -/
theorem follows_step_blank (src : LogSource) (f : Format) (s : LogState)
    (blank : trim line = []) :
    ∃ s', (s.step src (line.map some)).run.value = .ok s' ∧ Follows src f [line] s s' := by
  rw [step, chars?_map_some]
  simp only [blank, List.isEmpty_nil, if_true]
  refine ⟨_, rfl, rfl, ?_, ?_⟩
  · simp [blank]
  · simp [addressOn?, blank, LogSource.wanted]

/-- Any other line is recorded. -/
theorem step_of_solid (src : LogSource) (s : LogState) (solid : trim line ≠ []) :
    s.step src (line.map some) =
      record src { s with lines := s.lines + 1, read := s.read + encodedSize (line.map some) + 1 }
        line := by
  have nonempty : (trim line).isEmpty = false := by simpa using solid
  rw [step, chars?_map_some]
  simp only [nonempty, Bool.false_eq_true, if_false]

theorem value_formatOf (src : LogSource)
    (format : s.format = some f ∨ s.format = none ∧ Format.detect? line = some f) :
    (s.formatOf src line).run.value = .ok f := by
  rw [formatOf]
  rcases format with known | ⟨unknown, detected⟩
  · rw [known]
    rfl
  · rw [unknown, detected]
    rfl

theorem exists_record (src : LogSource) (read : f.readLine? line = some a)
    (format : s.format = some f ∨ s.format = none ∧ Format.detect? line = some f) :
    ∃ s', (s.record src line).run.value = .ok s' ∧ s'.lines = s.lines ∧ s'.format = some f ∧
      s'.addresses = src.wanted [a] ++ s.addresses := by
  rw [record, value_bind_of_ok (value_formatOf src format), read]
  obtain ⟨s', ok, count, known, added⟩ := exists_progress src
    { s with
      format := some f
      addresses := if src.range.start ≤ a ∧ a < src.range.stop then a :: s.addresses
        else s.addresses }
  refine ⟨s', ok, count, known, ?_⟩
  rw [added, src.wanted_singleton]
  dsimp only
  split <;> rfl

/-- A line with an address adds it, and settles the format. -/
theorem follows_step_line (src : LogSource) (solid : trim line ≠ [])
    (read : f.readLine? line = some a)
    (format : s.format = some f ∨ s.format = none ∧ Format.detect? line = some f) :
    ∃ s', (s.step src (line.map some)).run.value = .ok s' ∧ Follows src f [line] s s' := by
  have nonempty : (trim line).isEmpty = false := by simpa using solid
  obtain ⟨s', ok, count, known, added⟩ := exists_record src read (s :=
    { s with lines := s.lines + 1, read := s.read + encodedSize (line.map some) + 1 }) format
  refine ⟨s', ?_, count, ?_, ?_⟩
  · rwa [step_of_solid src s solid]
  · simp [known, nonempty]
  · have here : [line].filterMap (addressOn? f) = [a] := by simp [addressOn?, nonempty, read]
    rw [added, here, src.wanted_singleton]
    split <;> rfl

theorem Follows.trans {s'' : LogState} {lines' : List (List Char)} (h : Follows src f lines s s')
    (h' : Follows src f lines' s' s'') : Follows src f (lines ++ lines') s s'' where
  count := by rw [h'.count, h.count, List.length_append, Nat.add_assoc]
  format := by
    rw [h'.format, h.format, List.all_append]
    grind
  addresses := by
    rw [h'.addresses, h.addresses, LogSource.wanted, LogSource.wanted, LogSource.wanted,
      List.filterMap_append, List.filter_append, List.reverse_append, List.append_assoc]

/-- A run over lines that can be read, if the format is known or the first of them that is no blank
one tells it. -/
theorem exists_follows (src : LogSource)
    (readable : ∀ line ∈ lines, trim line = [] ∨ ∃ a, f.readLine? line = some a)
    (format : s.format = some f ∨ s.format = none ∧
      ∀ line ∈ lines.find? (fun l => !(trim l).isEmpty), Format.detect? line = some f) :
    ∃ s', ((lines.map (·.map some)).foldlM (step src) s).run.value = .ok s' ∧
      Follows src f lines s s' := by
  induction lines generalizing s with
  | nil => exact ⟨s, rfl, .refl src f s⟩
  | cons line lines ih =>
    have rest : ∀ line ∈ lines, trim line = [] ∨ ∃ a, f.readLine? line = some a :=
      fun line mem => readable line (List.mem_cons_of_mem _ mem)
    -- After the line the format is known, or the next one that is no blank one tells it.
    obtain ⟨s₁, ok, first, format'⟩ : ∃ s₁, (s.step src (line.map some)).run.value = .ok s₁ ∧
        Follows src f [line] s s₁ ∧ (s₁.format = some f ∨ s₁.format = none ∧
          ∀ line ∈ lines.find? (fun l => !(trim l).isEmpty), Format.detect? line = some f) := by
      by_cases blank : trim line = []
      · obtain ⟨s₁, ok, first⟩ := follows_step_blank src f s blank
        refine ⟨s₁, ok, first, ?_⟩
        have same := first.format
        rw [List.all_cons, blank] at same
        rw [List.find?_cons_of_neg (by simp [blank])] at format
        simpa [same] using format
      · obtain ⟨a, read⟩ := (readable line List.mem_cons_self).resolve_left blank
        rw [List.find?_cons_of_pos (by simpa using blank)] at format
        obtain ⟨s₁, ok, first⟩ := follows_step_line src blank read
          (format.imp_right fun h => ⟨h.1, h.2 line rfl⟩)
        refine ⟨s₁, ok, first, .inl ?_⟩
        rw [first.format]
        simp [blank]
    obtain ⟨s₂, ok', later⟩ := ih rest format'
    refine ⟨s₂, ?_, first.trans later⟩
    rw [List.map_cons, List.foldlM_cons, value_bind_of_ok ok]
    exact ok'

end LogState

/-! ### The lines of a text -/

theorem linesFrom_append (unbroken : '\n' ∉ line) (found rest : List Symbol) :
    linesFrom found (line.map some ++ rest) =
      linesFrom ((line.map some).reverse ++ found) rest := by
  induction line generalizing found with
  | nil => rfl
  | cons c line ih =>
    rw [List.mem_cons, not_or] at unbroken
    rw [List.map_cons, List.cons_append, linesFrom, ih unbroken.2]
    · simp
    · intro eq
      exact unbroken.1 (Option.some.inj eq).symm

/-- A line without the carriage return that may stand before its end. -/
def withoutReturn (line : List Char) : List Char :=
  if line.getLast? = some '\r' then line.dropLast else line

theorem closeLine_reverse (line : List Char) :
    closeLine (line.map some).reverse = (withoutReturn line).map some := by
  rcases List.eq_nil_or_concat line with rfl | ⟨init, c, eq⟩
  · rfl
  · rw [List.concat_eq_append] at eq
    subst eq
    rw [withoutReturn, List.getLast?_concat, List.dropLast_concat, List.map_append,
      List.reverse_append]
    by_cases ends : c = '\r'
    · subst ends
      simp [closeLine]
    · rw [if_neg (by simpa using ends), closeLine]
      · simp
      · simp [ends]

/-- What goes with the end of a line is blank. -/
theorem trim_withoutReturn (line : List Char) : trim (withoutReturn line) = trim line := by
  rw [withoutReturn]
  split
  · next ends =>
    obtain ⟨init, rfl⟩ := List.getLast?_eq_some_iff.1 ends
    rw [List.dropLast_concat, trim_append_blank (by decide)]
  · rfl

/-- A text is made up of lines that end in newlines, and of what stands after them. -/
theorem exists_splitOn_eq (text : List Char) :
    ∃ lines last, text.splitOn '\n' = lines ++ [last] ∧
      lines.flatMap (· ++ ['\n']) ++ last = text := by
  have joined : ∀ (lines : List (List Char)) last,
      List.intercalate ['\n'] (lines ++ [last]) = lines.flatMap (· ++ ['\n']) ++ last := by
    intro lines last
    induction lines with
    | nil => simp
    | cons line lines ih =>
      rw [List.flatMap_cons, List.append_assoc, ← ih]
      cases lines <;> exact List.intercalate_cons_cons
  have pieces := List.dropLast_concat_getLast (List.splitOn_ne_nil '\n' text)
  exact ⟨_, _, pieces.symm, by rw [← joined, pieces, List.intercalate_splitOn]⟩

/-- The lines of a text are those that end in newlines, without the carriage returns before them,
and what stands after them, as it is, unless it is empty. -/
theorem splitLines_flatMap (unbroken : ∀ line ∈ lines, '\n' ∉ line) {last : List Char}
    (unbroken_last : '\n' ∉ last) :
    splitLines ((lines.flatMap (· ++ ['\n']) ++ last).map some) =
      (lines.map withoutReturn ++ if last = [] then [] else [last]).map (·.map some) := by
  induction lines with
  | nil =>
    have rest := linesFrom_append unbroken_last [] []
    rw [List.append_nil, List.append_nil] at rest
    rw [List.flatMap_nil, List.nil_append, splitLines, rest]
    cases last with
    | nil => rfl
    | cons c last =>
      rw [linesFrom]
      · simp
      · simp
  | cons line lines ih =>
    rw [List.forall_mem_cons] at unbroken
    rw [List.flatMap_cons, List.append_assoc, List.append_assoc, List.map_append, splitLines,
      linesFrom_append unbroken.1, List.append_nil, List.singleton_append, List.map_cons,
      linesFrom, closeLine_reverse]
    exact congrArg ((withoutReturn line).map some :: ·) (ih unbroken.2)

end MemoryAtlas.Trace
