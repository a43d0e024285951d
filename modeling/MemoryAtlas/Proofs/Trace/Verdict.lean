import Mathlib.Data.Finset.Sort
import MemoryAtlas.Proofs.Trace.Log

/-!
# The verdict on a log

A log is read line by line, and reading stops at the first thing that is wrong. What it comes to can
be told from its lines alone, without the order in which they are read: they are counted, the blank
ones are left out, the first of the others settles the format unless one is given, and every one of
them must then hold an address. The error names the first that does not.

## Main definitions

* `Trace.membersIn`: the addresses of a set in a range.
* `Trace.numbered`, `Trace.linesOf`: the lines that are not blank, with their numbers.
* `Trace.settledFormat?`, `Trace.verdict`: what such lines come to.

## Main results

* `Trace.LogState.value_run_unread`, `Trace.LogState.value_run_undetected`: the runs that fail.
* `Trace.value_readLog`: reading a log gives the verdict on its lines.
* `Trace.readLog_outcome`: when a log has no format, which line is at fault, and what is read.
-/

namespace MemoryAtlas.Trace

open Text

/-! ### Sets of addresses -/

section Sets

variable {S : Finset Nat} {range : Span} {a b : Nat} {l acc : List Nat}

/-- The addresses of a set in a range, ascending. -/
def membersIn (S : Finset Nat) (range : Span) : List Nat :=
  (S.filter fun a => range.start ≤ a ∧ a < range.stop).sort (· ≤ ·)

theorem eq_membersIn (sorted : l.Pairwise (· < ·))
    (mem : ∀ a, a ∈ l ↔ a ∈ S ∧ range.start ≤ a ∧ a < range.stop) : l = membersIn S range := by
  refine sorted.eq_of_mem_iff (Finset.sortedLT_sort _).pairwise fun a => ?_
  rw [mem, membersIn, Finset.mem_sort, Finset.mem_filter]

theorem mem_eraseRepsBy_loop_of_mem (h : b ∈ a :: l ∨ b ∈ acc) :
    b ∈ List.eraseRepsBy.loop (· == ·) a l acc := by
  induction l generalizing a acc with
  | nil => simpa [List.eraseRepsBy.loop, or_comm] using h
  | cons c l ih =>
    rw [List.eraseRepsBy.loop]
    split
    · next same =>
      refine ih ?_
      rw [beq_iff_eq] at same
      simpa [same] using h
    · refine ih ?_
      simp only [List.mem_cons] at h ⊢
      tauto

/-- Sorting loses nothing. -/
theorem mem_ascending_iff : a ∈ ascending l ↔ a ∈ l := by
  refine ⟨mem_ascending, fun mem => ?_⟩
  have mem : a ∈ l.mergeSort (· ≤ ·) := List.mem_mergeSort.2 mem
  rw [ascending, List.eraseReps]
  cases sorted : l.mergeSort (· ≤ ·) with
  | nil =>
    rw [sorted] at mem
    cases mem
  | cons b rest =>
    rw [sorted] at mem
    exact mem_eraseRepsBy_loop_of_mem (.inl mem)

end Sets

variable {src : LogSource} {s : LogState} {f : Format} {format : Option Format}
  {line : List Char} {lines before after : List (List Char)} {l : List Char × Nat}

/-! ### Lines and their numbers -/

/-- The lines that are not blank, with their numbers. Blank lines count too. -/
def numbered (lines : List (List Char)) : List (List Char × Nat) :=
  (lines.zipIdx 1).filter fun line => !(trim line.1).isEmpty

/-- The lines of a text that are not blank, with their numbers. A carriage return before the end of
a line is one of its blanks. -/
def linesOf (text : String) : List (List Char × Nat) := numbered (text.toList.splitOn '\n')

theorem forall_mem_numbered_iff {p : List Char → Prop} :
    (∀ l ∈ numbered lines, p l.1) ↔ ∀ line ∈ lines, trim line = [] ∨ p line := by
  conv_rhs => rw [← List.zipIdx_map_fst 1 lines, List.forall_mem_map]
  simp only [numbered, List.mem_filter, Bool.not_eq_true', List.isEmpty_eq_false_iff, and_imp,
    or_iff_not_imp_left]

theorem exists_mem_numbered (mem : line ∈ lines) (solid : trim line ≠ []) :
    ∃ l ∈ numbered lines, l.1 = line := by
  rw [← List.zipIdx_map_fst 1 lines] at mem
  obtain ⟨l, found, rfl⟩ := List.mem_map.1 mem
  exact ⟨l, List.mem_filter.2 ⟨found, by simpa using solid⟩, rfl⟩

/-- A line that is found has as many lines before it as its number tells, blank ones included. -/
theorem exists_append_of_find?_numbered {p : List Char → Bool}
    (found : (numbered lines).find? (fun l => p l.1) = some l) :
    ∃ before after, lines = before ++ l.1 :: after ∧ l.2 = before.length + 1 ∧ trim l.1 ≠ [] ∧
      p l.1 = true ∧ ∀ line ∈ before, trim line = [] ∨ p line = false := by
  -- The lines that were passed over carry the numbers up to this one.
  rw [numbered, List.find?_filter] at found
  obtain ⟨holds, _, _, split, earlier⟩ := List.find?_eq_some_iff_append.1 found
  obtain ⟨before, rest, rfl, rfl, tail⟩ := List.zipIdx_eq_append_iff.1 split
  obtain ⟨line, after, rfl, rfl, -⟩ := List.zipIdx_eq_cons_iff.1 tail.symm
  obtain ⟨solid, holds⟩ : trim line ≠ [] ∧ p line = true := by simpa using holds
  refine ⟨before, after, rfl, Nat.add_comm _ _, solid, holds, ?_⟩
  rw [← forall_mem_numbered_iff]
  intro l mem
  obtain ⟨mem, solid⟩ := List.mem_filter.1 mem
  simpa [solid] using earlier l mem

theorem map_fst_head?_numbered :
    (numbered lines).head?.map Prod.fst = lines.find? fun l => !(trim l).isEmpty := by
  conv_rhs => rw [← List.zipIdx_map_fst 1 lines, List.find?_map]
  rw [numbered, List.head?_filter]
  rfl

theorem filterMap_numbered :
    (numbered lines).filterMap (fun l => f.readLine? l.1) = lines.filterMap (addressOn? f) := by
  conv_rhs => rw [← List.zipIdx_map_fst 1 lines, List.filterMap_map]
  rw [numbered, List.filterMap_filter]
  refine List.filterMap_congr fun l _ => ?_
  rw [Function.comp_apply, addressOn?]
  cases (trim l.1).isEmpty <;> rfl

theorem numbered_map_trim :
    numbered (lines.map trim) = (numbered lines).map (Prod.map trim id) := by
  rw [numbered, List.zipIdx_map, List.filter_map, numbered]
  congr 2
  funext l
  simp [trim_trim]

theorem numbered_append_nil : numbered (lines ++ [[]]) = numbered lines := by
  rw [numbered, List.zipIdx_append, List.filter_append]
  exact List.append_nil _

/-- What stands between newlines holds none. -/
theorem notMem_of_mem_splitOn {text : List Char} (mem : line ∈ text.splitOn '\n') :
    '\n' ∉ line := by
  induction text generalizing line with
  | nil =>
    rw [List.splitOn_nil, List.mem_singleton] at mem
    simp [mem]
  | cons c text ih =>
    rw [List.splitOn_cons_eq_if_modifyHead] at mem
    split at mem
    · -- A newline closes an empty piece.
      rcases List.mem_cons.1 mem with rfl | mem
      · exact List.not_mem_nil
      · exact ih mem
    · next other =>
      -- Any other character belongs to the piece that comes first.
      obtain ⟨piece, rest, pieces⟩ := List.exists_cons_of_ne_nil (List.splitOn_ne_nil '\n' text)
      rw [pieces, List.modifyHead_cons] at mem
      rw [pieces] at ih
      rcases List.mem_cons.1 mem with rfl | mem
      · rw [List.mem_cons, not_or]
        exact ⟨fun same => other (beq_iff_eq.2 same.symm), ih List.mem_cons_self⟩
      · exact ih (List.mem_cons_of_mem _ mem)

/-- Every text is split so. -/
theorem exists_splitLines_eq (text : String) :
    ∃ lines last, text.toList.splitOn '\n' = lines ++ [last] ∧
      lines.flatMap (· ++ ['\n']) ++ last = text.toList ∧
        splitLines (symbolsOf text) =
          (lines.map withoutReturn ++ if last = [] then [] else [last]).map (·.map some) := by
  obtain ⟨lines, last, pieces, joined⟩ := exists_splitOn_eq text.toList
  have unbroken : ∀ line ∈ lines ++ [last], '\n' ∉ line := by
    rw [← pieces]
    exact fun line mem => notMem_of_mem_splitOn mem
  obtain ⟨unbroken, unbroken_last⟩ := List.forall_mem_append.1 unbroken
  have split := splitLines_flatMap unbroken (unbroken_last last List.mem_cons_self)
  rw [joined] at split
  exact ⟨lines, last, pieces, joined, split⟩

/-! ### Runs that fail -/

namespace LogState

/-- A line that the format does not read is reported. -/
theorem value_record_unread (src : LogSource) (unread : f.readLine? line = none)
    (format : s.format = some f ∨ s.format = none ∧ Format.detect? line = some f) :
    (s.record src line).run.value =
      .error (.line src.path s.lines (.ofList ((f.token? line).getD (trim line)))) := by
  rw [record, value_bind_of_ok (value_formatOf src format), unread]
  rfl

/-- A line that is marked for no format does not settle it. -/
theorem value_record_undetected (src : LogSource) (unknown : s.format = none)
    (undetected : Format.detect? line = none) :
    (s.record src line).run.value = .error (.format src.path) := by
  rw [record]
  apply value_bind_of_error
  rw [formatOf, unknown, undetected]
  rfl

/-- A run up to the first line that the format does not read, if the format is known or the first
line that is no blank one tells it. -/
theorem value_run_unread (src : LogSource) (after : List (List Char))
    (readable : ∀ line ∈ before, trim line = [] ∨ ∃ a, f.readLine? line = some a)
    (solid : trim line ≠ []) (unread : f.readLine? line = none)
    (format : s.format = some f ∨ s.format = none ∧
      ∀ first ∈ (before ++ line :: after).find? (fun l => !(trim l).isEmpty),
        Format.detect? first = some f) :
    (((before ++ line :: after).map (·.map some)).foldlM (step src) s).run.value =
      .error (.line src.path (s.lines + before.length + 1)
        (.ofList ((f.token? line).getD (trim line)))) := by
  rw [List.find?_append, List.find?_cons_of_pos (by simpa using solid)] at format
  obtain ⟨s', ok, follows⟩ := exists_follows src readable (s := s) <| format.imp_right fun h =>
    ⟨h.1, fun first mem => h.2 first (by rw [Option.mem_def.1 mem]; rfl)⟩
  -- If all lines before are blank, the format is still open, and this line is the first to tell it.
  have format' : s'.format = some f ∨ s'.format = none ∧ Format.detect? line = some f := by
    rw [follows.format]
    split
    · next blank =>
      have none : before.find? (fun l => !(trim l).isEmpty) = none := by
        rw [List.find?_eq_none]
        intro l mem
        simpa using List.all_eq_true.1 blank l mem
      rw [none] at format
      exact format.imp_right fun h => ⟨h.1, h.2 line rfl⟩
    · exact .inl rfl
  rw [← follows.count, List.map_append, List.map_cons]
  refine value_foldlM_of_error ok ?_
  rw [step_of_solid src s' solid]
  exact value_record_unread src unread format'

/-- Blank lines do not settle the format. -/
theorem exists_run_blank (src : LogSource) (blank : ∀ line ∈ lines, trim line = [])
    (unknown : s.format = none) :
    ∃ s', ((lines.map (·.map some)).foldlM (step src) s).run.value = .ok s' ∧
      s'.format = none := by
  have all : lines.all (fun l => (trim l).isEmpty) = true := by
    rw [List.all_eq_true]
    intro l mem
    rw [blank l mem]
    rfl
  have undecided : lines.find? (fun l => !(trim l).isEmpty) = none := by
    rw [List.find?_eq_none]
    intro l mem
    simp [blank l mem]
  -- No line is read, so the format that they are read in does not matter.
  obtain ⟨s', ok, follows⟩ := exists_follows (f := .fuse) src (fun l mem => .inl (blank l mem))
    (s := s) (.inr ⟨unknown, by simp [undecided]⟩)
  exact ⟨s', ok, by rw [follows.format, if_pos all, unknown]⟩

/-- A run without a format up to the first line that is no blank one, if that is marked for none. -/
theorem value_run_undetected (src : LogSource) (blank : ∀ line ∈ before, trim line = [])
    (solid : trim line ≠ []) (unknown : s.format = none)
    (undetected : Format.detect? line = none) :
    (((before ++ line :: after).map (·.map some)).foldlM (step src) s).run.value =
      .error (.format src.path) := by
  obtain ⟨s', ok, unknown'⟩ := exists_run_blank src blank unknown
  rw [List.map_append, List.map_cons]
  refine value_foldlM_of_error ok ?_
  rw [step_of_solid src s' solid]
  exact value_record_undetected src unknown' undetected

end LogState

/-! ### The verdict -/

/-- The format of a log: the one given, or else the one that its first line is marked for. -/
def settledFormat? (format : Option Format) (lines : List (List Char × Nat)) : Option Format :=
  format.or (lines.head?.bind fun l => Format.detect? l.1)

/-- What the lines of a log come to. The first line that its format does not read is at fault; if
there is none, the log lists the addresses on its lines. -/
def verdict (src : LogSource) (format : Option Format) (lines : List (List Char × Nat)) :
    Except Error (List Nat) :=
  match settledFormat? format lines with
  | none => .error (.format src.path)
  | some f =>
    match lines.find? fun l => (f.readLine? l.1).isNone with
    | some l => .error (.line src.path l.2 (.ofList ((f.token? l.1).getD (trim l.1))))
    | none => .ok (membersIn (lines.filterMap fun l => f.readLine? l.1).toFinset src.range)

/-- What lines come to stands between their blanks. -/
theorem verdict_map_trim (src : LogSource) (format : Option Format)
    (lines : List (List Char × Nat)) :
    verdict src format (lines.map (Prod.map trim id)) = verdict src format lines := by
  have detect : ∀ line, Format.detect? (trim line) = Format.detect? line :=
    fun line => Format.detect?_congr (trim_trim line)
  have read : ∀ (f : Format) line, f.readLine? (trim line) = f.readLine? line :=
    fun f line => Format.readLine?_congr (trim_trim line)
  have token : ∀ (f : Format) line, f.token? (trim line) = f.token? line :=
    fun f line => Format.token?_congr (trim_trim line)
  simp only [verdict, settledFormat?, List.head?_map, Option.bind_map, List.find?_map,
    List.filterMap_map, Function.comp_def, Prod.map_fst, detect, read]
  cases format.or (lines.head?.bind fun l => Format.detect? l.1) with
  | none => rfl
  | some f =>
    dsimp only
    cases lines.find? fun l => (f.readLine? l.1).isNone with
    | none => rfl
    | some l => simp [token, trim_trim]

theorem verdict_eq_format_iff {lines : List (List Char × Nat)} :
    verdict src format lines = .error (.format src.path) ↔ settledFormat? format lines = none := by
  rw [verdict]
  cases settledFormat? format lines with
  | none => simp
  | some f =>
    dsimp only
    cases lines.find? fun l => (f.readLine? l.1).isNone with
    | none => simp
    | some l => simp

theorem verdict_of_unread {lines : List (List Char × Nat)}
    (settled : settledFormat? format lines = some f)
    (found : lines.find? (fun l => (f.readLine? l.1).isNone) = some l) :
    verdict src format lines =
      .error (.line src.path l.2 (.ofList ((f.token? l.1).getD (trim l.1)))) := by
  rw [verdict, settled]
  dsimp only
  rw [found]

theorem verdict_of_read {lines : List (List Char × Nat)}
    (settled : settledFormat? format lines = some f)
    (readable : ∀ l ∈ lines, ∃ a, f.readLine? l.1 = some a) :
    verdict src format lines =
      .ok (membersIn (lines.filterMap fun l => f.readLine? l.1).toFinset src.range) := by
  have none : lines.find? (fun l => (f.readLine? l.1).isNone) = none := by
    rw [List.find?_eq_none]
    intro l mem
    obtain ⟨a, read⟩ := readable l mem
    simp [read]
  rw [verdict, settled]
  dsimp only
  rw [none]

section Reading

variable {text : List Symbol}

theorem given_or_told (settled : settledFormat? format (numbered lines) = some f) :
    format = some f ∨ format = none ∧ ∃ first,
      lines.find? (fun l => !(trim l).isEmpty) = some first ∧ Format.detect? first = some f := by
  refine (Option.or_eq_some_iff.1 settled).imp_right fun ⟨unknown, detected⟩ => ⟨unknown, ?_⟩
  obtain ⟨l, head, detected⟩ := Option.bind_eq_some_iff.1 detected
  refine ⟨l.1, ?_, detected⟩
  rw [← map_fst_head?_numbered, head]
  rfl

/-- The format of a log is the one that a run over its lines comes upon. -/
theorem format_initial (settled : settledFormat? format (numbered lines) = some f) :
    (LogState.initial format).format = some f ∨ (LogState.initial format).format = none ∧
      ∀ first ∈ lines.find? (fun l => !(trim l).isEmpty), Format.detect? first = some f := by
  refine (given_or_told settled).imp_right fun ⟨unknown, first, found, detected⟩ => ⟨unknown, ?_⟩
  rw [found]
  rintro _ ⟨⟩
  exact detected

theorem value_readLog_undetected (split : splitLines text = lines.map (·.map some))
    (undetected : ∀ l ∈ (numbered lines).head?, Format.detect? l.1 = none) :
    (readLog src none text).run.value = .error (.format src.path) := by
  rw [readLog, split]
  cases first : (numbered lines).find? fun _ => true with
  | none =>
    -- Without any such line the run ends well, and it is only then that the format is missed.
    have blank : ∀ line ∈ lines, trim line = [] ∨ False := by
      rw [← forall_mem_numbered_iff (p := fun _ => False)]
      intro l mem
      exact List.find?_eq_none.1 first l mem rfl
    obtain ⟨s, ok, unknown⟩ := LogState.exists_run_blank src (s := .initial none)
      (fun line mem => (blank line mem).resolve_right id) rfl
    rw [value_bind_of_ok ok, unknown]
    rfl
  | some l =>
    obtain ⟨before, after, rfl, -, solid, -, blank⟩ :=
      exists_append_of_find?_numbered (p := fun _ => true) first
    have head : (numbered (before ++ l.1 :: after)).head? = some l := by
      rw [← first]
      cases numbered (before ++ l.1 :: after) <;> rfl
    have blank : ∀ line ∈ before, trim line = [] := fun line mem => by simpa using blank line mem
    apply value_bind_of_error
    exact LogState.value_run_undetected src blank solid rfl (undetected l head)

theorem value_readLog_unread (split : splitLines text = lines.map (·.map some))
    (settled : settledFormat? format (numbered lines) = some f)
    (found : (numbered lines).find? (fun l => (f.readLine? l.1).isNone) = some l) :
    (readLog src format text).run.value =
      .error (.line src.path l.2 (.ofList ((f.token? l.1).getD (trim l.1)))) := by
  obtain ⟨before, after, rfl, number, solid, unread, readable⟩ :=
    exists_append_of_find?_numbered (p := fun line => (f.readLine? line).isNone) found
  have readable : ∀ line ∈ before, trim line = [] ∨ ∃ a, f.readLine? line = some a := by
    intro line mem
    refine (readable line mem).imp_right fun read => ?_
    rwa [Option.isNone_eq_false_iff, Option.isSome_iff_exists] at read
  have run := LogState.value_run_unread src after readable solid
    (Option.isNone_iff_eq_none.1 unread) (format_initial settled)
  rw [readLog, split, number, value_bind_of_error run]
  simp [LogState.initial]

theorem value_readLog_read (split : splitLines text = lines.map (·.map some))
    (settled : settledFormat? format (numbered lines) = some f)
    (readable : ∀ l ∈ numbered lines, ∃ a, f.readLine? l.1 = some a) :
    (readLog src format text).run.value =
      .ok (membersIn ((numbered lines).filterMap fun l => f.readLine? l.1).toFinset src.range) := by
  obtain ⟨s, ok, follows⟩ := LogState.exists_follows src (forall_mem_numbered_iff.1 readable)
    (format_initial settled)
  have known : s.format = some f := by
    rw [follows.format]
    split
    · next blank =>
      rcases given_or_told settled with known | ⟨-, first, found, -⟩
      · exact known
      · -- There is a line to tell the format, so not all of them are blank.
        have solid := List.find?_some found
        rw [List.all_eq_true.1 blank first (List.mem_of_find?_eq_some found)] at solid
        cases solid
    · rfl
  rw [readLog, split, value_bind_of_ok ok, known]
  refine congrArg Except.ok (eq_membersIn (pairwise_ascending _) fun a => ?_)
  rw [mem_ascending_iff, follows.addresses, filterMap_numbered]
  simp [LogState.initial, LogSource.wanted]

/-- The three ways in which a run ends are those of the verdict. -/
theorem value_readLog_of_splitLines (split : splitLines text = lines.map (·.map some)) :
    (readLog src format text).run.value = verdict src format (numbered lines) := by
  cases settled : settledFormat? format (numbered lines) with
  | none =>
    rw [verdict_eq_format_iff.2 settled]
    obtain ⟨rfl, undetected⟩ := Option.or_eq_none_iff.1 settled
    exact value_readLog_undetected split (Option.bind_eq_none_iff.1 undetected)
  | some f =>
    cases found : (numbered lines).find? fun l => (f.readLine? l.1).isNone with
    | some l => rw [verdict_of_unread settled found, value_readLog_unread split settled found]
    | none =>
      have readable : ∀ l ∈ numbered lines, ∃ a, f.readLine? l.1 = some a := by
        intro l mem
        rw [← Option.isSome_iff_exists, ← Option.isNone_eq_false_iff]
        exact Bool.eq_false_iff.2 (List.find?_eq_none.1 found l mem)
      rw [verdict_of_read settled readable, value_readLog_read split settled readable]

end Reading

/-- Reading a log gives the verdict on its lines. -/
theorem value_readLog (src : LogSource) (format : Option Format) (text : String) :
    (readLog src format (symbolsOf text)).run.value = verdict src format (linesOf text) := by
  obtain ⟨lines, last, pieces, -, split⟩ := exists_splitLines_eq text
  generalize read_eq : (lines.map withoutReturn ++ if last = [] then [] else [last]) = read at split
  -- What is read are the lines up to their blanks, but for an empty last one.
  have same : numbered (read.map trim) = numbered ((lines ++ [last]).map trim) := by
    have blanks : (lines.map withoutReturn).map trim = lines.map trim := by
      rw [List.map_map]
      exact List.map_congr_left fun line _ => trim_withoutReturn line
    rw [← read_eq, List.map_append, List.map_append, blanks]
    split
    · next empty =>
      rw [empty, List.map_nil, List.append_nil]
      exact numbered_append_nil.symm
    · rfl
  calc (readLog src format (symbolsOf text)).run.value
      = verdict src format (numbered read) := value_readLog_of_splitLines split
    _ = verdict src format (numbered (read.map trim)) := by rw [numbered_map_trim, verdict_map_trim]
    _ = verdict src format (linesOf text) := by
      rw [same, numbered_map_trim, verdict_map_trim, linesOf, pieces]

/-- What reading a log comes to. It has no format exactly if none is given and its first line is
marked for none or missing; blank lines never matter, except that they count. Otherwise the first
line that the format does not read is at fault, and the error has its number and the text of its
address, or all of it if it has none. If every line is read, the result is the set of the addresses
on the lines that are wanted. -/
theorem readLog_outcome (src : LogSource) (format : Option Format) (text : String) :
    ((readLog src format (symbolsOf text)).run.value = .error (.format src.path) ↔
      format = none ∧ ∀ line ∈ (linesOf text).head?, Format.detect? line.1 = none) ∧
    ∀ f ∈ settledFormat? format (linesOf text),
      (∀ line ∈ (linesOf text).find? fun line => (f.readLine? line.1).isNone,
        (readLog src format (symbolsOf text)).run.value =
          .error (.line src.path line.2 (.ofList ((f.token? line.1).getD (trim line.1))))) ∧
      ((∀ line ∈ linesOf text, (f.readLine? line.1).isSome) →
        (readLog src format (symbolsOf text)).run.value =
          .ok (membersIn ((linesOf text).filterMap fun line => f.readLine? line.1).toFinset
            src.range)) := by
  rw [value_readLog, verdict_eq_format_iff, settledFormat?, Option.or_eq_none_iff,
    Option.bind_eq_none_iff]
  refine ⟨Iff.rfl, fun f settled => ⟨fun line found => ?_, fun readable => ?_⟩⟩
  · exact verdict_of_unread settled found
  · exact verdict_of_read settled fun line mem => Option.isSome_iff_exists.1 (readable line mem)

/-- Logs with a blank line among the others: one that is read in part, one with two lines at fault,
one that starts with a line of no format, and one of which a table is made. -/
theorem readLog_outcome_logs :
    (readLog ⟨"t.log", 22, ⟨0x8000, 0x9000⟩⟩ none
        (symbolsOf "$8001\r\n \n$8000: ret\n$FFFF")).run.value = .ok [0x8000, 0x8001] ∧
      (readLog ⟨"t.log", 24, ⟨0, 0x10000⟩⟩ none
        (symbolsOf "$8000\n\nPC:32768\n$zz00\n")).run.value = .error (.line "t.log" 3 "PC:32768") ∧
      (readLog ⟨"t.log", 16, ⟨0, 0x10000⟩⟩ none
        (symbolsOf "\nnonsense\n$8000\n")).run.value = .error (.format "t.log") ∧
      (readLog ⟨"t.log", 7, ⟨0, 0x10000⟩⟩ (some .bitmap)
        (symbolsOf "\n$8000\n")).run.value = .error (.line "t.log" 2 "$8000") := by
  refine ⟨?_, ?_, ?_, ?_⟩
  · have read := ((readLog_outcome ⟨"t.log", 22, ⟨0x8000, 0x9000⟩⟩ none
      "$8001\r\n \n$8000: ret\n$FFFF").2 .address (by decide +kernel)).2 (by decide +kernel)
    have addresses : (linesOf "$8001\r\n \n$8000: ret\n$FFFF").filterMap
        (fun line => Format.address.readLine? line.1) = [0x8001, 0x8000, 0xFFFF] := by
      decide +kernel
    rw [read, addresses]
    refine congrArg Except.ok (eq_membersIn (by decide) fun a => ?_).symm
    simp only [List.mem_cons, List.not_mem_nil, or_false, List.mem_toFinset]
    omega
  · exact ((readLog_outcome ⟨"t.log", 24, ⟨0, 0x10000⟩⟩ none
      "$8000\n\nPC:32768\n$zz00\n").2 .address (by decide +kernel)).1
        ("PC:32768".toList, 3) (by decide +kernel)
  · exact (readLog_outcome ⟨"t.log", 16, ⟨0, 0x10000⟩⟩ none "\nnonsense\n$8000\n").1.2
      (by decide +kernel)
  · exact ((readLog_outcome ⟨"t.log", 7, ⟨0, 0x10000⟩⟩ (some .bitmap) "\n$8000\n").2
      .bitmap rfl).1 ("$8000".toList, 2) (by decide +kernel)

end MemoryAtlas.Trace
