import MemoryAtlas.Proofs.Json.Reading
import MemoryAtlas.Proofs.Settings.Choices
import MemoryAtlas.Proofs.Text.LowerCase

/-!
# Settings documents lose nothing

Settings are read back from their text field by field. A document is also checked, and its words are
put into lower case; settings that come from a document or from choices pass the check, and their
words are in lower case already.

## Main definitions

* `Settings.Field.copy`: the settings with one field of other settings.
* `Settings.WellFormed`: what reading asks of settings, and what it makes of them.

## Main results

* `Settings.Field.reads_write`: a field is read from its text.
* `Settings.reads_write`: settings are read from their text, before they are checked.
* `Settings.read_write_iff`: which settings are read back from their text.
* `Settings.wellFormed_of_read`, `Settings.WellFormed.choose`: well-formed settings.
* `Settings.read_write_chooseAll`: settings from documents and choices are read back.
-/

namespace MemoryAtlas

open Text Json Reader

namespace Settings

variable {s t : Settings} {given : List Field} {text : List Symbol}

namespace Field

/-! ### Values -/

theorem reads_length (n : UInt64) : length.Reads (writeNat n.toNat) n := by
  have word : n.toNat < 2 ^ 64 := n.toNat_lt
  have read := (reads_integer (show 0 ≤ (n.toNat : Int) by omega)
    (show (n.toNat : Int) ≤ 0xFFFFFFFFFFFFFFFF by omega)).map fun k => k.toNat.toUInt64
  rwa [Int.toNat_natCast, Nat.toUInt64_eq, UInt64.ofNat_toNat] at read

theorem reads_dictionary (words : List String) :
    Reader.string.list.orNull.Reads (writeList (words.map writeString)) (some words) := by
  have list : Reader.string.list.Reads (writeList (words.map writeString)) words := by
    apply reads_list
    intro word _
    exact ⟨starts_writeString (.inl rfl) word, reads_string word⟩
  exact list.orNull rfl (by decide)

theorem reads_ceiling (n : Int32) :
    (Reader.integer (-0x80000000) 0x7FFFFFFF).Reads (writeInteger n.toInt) n.toInt :=
  reads_integer n.le_toInt (Int.le_of_lt_add_one n.toInt_lt)

theorem reads_ceilingMap (m : SortedMap String Int32) :
    ceilingMap.Reads (writeObject (m.entries.map fun e => writeMember e.1 (writeInteger e.2.toInt)))
      m := by
  -- The names are written in order, so inserting them one after another makes the same map.
  have whole : m.entries.foldl (fun found e => found.insert e.1 e.2) ∅ = m :=
    SortedMap.ofList_entries m
  nth_rewrite 2 [← whole]
  apply reads_writeObject
  apply Folds.of_foldl _ _ (List.forall_mem_nil _) fun _ => rfl
  intro e _
  refine ⟨(starts_writeString (.inr rfl) e.1).append _, fun found => ?_⟩
  have value := (reads_ceiling e.2).map fun n => found.insert e.1 (Int32.ofInt n)
  rw [Int32.ofInt_toInt] at value
  exact (reads_key e.1).entry rfl value

theorem reads_traceFormat (f : Trace.Format) :
    (Reader.string.refine Trace.Format.ofName?).orNull.Reads (writeString f.name) (some f) := by
  have named : Trace.Format.ofName? f.name = some f := by cases f <;> decide
  exact ((reads_string f.name).refine named).orNull rfl (by decide)

/-- The settings `t` with a field of the settings `s`. -/
def copy (s t : Settings) : Field → Settings
  | textChars => { t with textChars := s.textChars }
  | leastInData => { t with leastInData := s.leastInData }
  | leastInCode => { t with leastInCode := s.leastInCode }
  | dictionary => { t with dictionary := s.dictionary }
  | ceilings => { t with ceilings := s.ceilings }
  | traceFormat => { t with traceFormat := s.traceFormat }

/-- A field is read from its text. -/
theorem reads_write (s t : Settings) (f : Field) : (f.reader t).Reads (f.write s) (f.copy s t) := by
  cases f with
  | textChars => exact (reads_string s.textChars).map _
  | leastInData => exact (reads_length s.leastInData).map _
  | leastInCode => exact (reads_length s.leastInCode).map _
  | dictionary =>
    have read : Reader.string.list.orNull.Reads (write s dictionary) s.dictionary := by
      rw [write]
      cases s.dictionary with
      | none => exact reads_orNull_none _
      | some words => exact reads_dictionary words
    exact read.map _
  | ceilings => exact (reads_ceilingMap s.ceilings).map _
  | traceFormat =>
    have read : (Reader.string.refine Trace.Format.ofName?).orNull.Reads (write s traceFormat)
        s.traceFormat := by
      rw [write]
      cases s.traceFormat with
      | none => exact reads_orNull_none _
      | some f => exact reads_traceFormat f
    exact read.map _

theorem ofKey?_key (f : Field) : ofKey? f.key = some f := by
  cases f <;> decide

end Field

/-! ### Documents -/

/-- The member of a field that is not given yet is read from its text. -/
theorem reads_entry (s t : Settings) {f : Field} (new : f ∉ given) :
    (entry Reader.key member (t, given)).Reads (writeMember f.key (f.write s))
      (f.copy s t, f :: given) := by
  have asks : member (t, given) f.key = .ok ((f.reader t).map fun t => (t, f :: given)) := by
    rw [member, Field.ofKey?_key]
    exact if_neg (by simpa using new)
  exact (reads_key f.key).entry asks ((Field.reads_write s t f).map fun t => (t, f :: given))

/-- Members of different fields are read one after another. -/
theorem folds_entries (s : Settings) : ∀ (fields : List Field) (t : Settings) (given : List Field),
    (fields ++ given).Nodup →
    ∃ given', Folds '}' (fun _ => true) (entry Reader.key member) (t, given)
      (fields.map fun f => writeMember f.key (f.write s))
      (fields.foldl (fun t f => f.copy s t) t, given')
  | [], t, given, _ => ⟨given, .nil _⟩
  | f :: fields, t, given, distinct => by
    -- A field is given once, so none of those before stands in its way.
    have new : f ∉ given := fun mem =>
      (List.nodup_cons.1 distinct).1 (List.mem_append_right fields mem)
    have once : (fields ++ f :: given).Nodup := List.perm_middle.nodup_iff.2 distinct
    obtain ⟨given', later⟩ := folds_entries s fields (f.copy s t) (f :: given) once
    have starts := (starts_writeString (.inr rfl) f.key).append (':' :: f.write s)
    have all := Folds.cons (List.forall_mem_nil _) starts rfl (reads_entry s t new) later
    exact ⟨given', all⟩

theorem foldl_copy_all (s t : Settings) : Field.all.foldl (fun t f => f.copy s t) t = s := rfl

/-- Settings are read from their text, before they are checked. -/
theorem reads_write (s : Settings) : reader.Reads s.write s := by
  intro rest closed
  have object : fromObject.Reads s.write s := by
    obtain ⟨given, folds⟩ := folds_entries s Field.all usual [] (by decide)
    rw [foldl_copy_all] at folds
    exact (reads_writeObject folds).map (·.1)
  -- A text that starts with a brace is not taken for a list.
  have other : (skipSpace (s.write.map some ++ rest)).head? ≠ some (some '[') := by
    rw [write, writeObject, List.cons_append, List.map_cons, List.cons_append, skipSpace_cons rfl]
    simp
  simp only [reader, if_neg other]
  exact object rest closed

/-! ### What is read back -/

/-- Ceilings are for opcode classes and words are in lower case. -/
structure WellFormed (s : Settings) : Prop where
  classes : ∀ name ∈ s.ceilings.keys, (readClass? name).isSome = true
  words : ∀ words, s.dictionary = some words → ∀ w ∈ words, lower w = w

theorem checked_eq_ok_iff : s.checked = .ok t ↔
    s = t ∧ ∀ name ∈ s.ceilings.keys, (readClass? name).isSome = true := by
  rw [checked]
  split
  · next name found =>
    have bad : (readClass? name).isNone = true := by simpa using List.find?_some found
    constructor
    · exact nofun
    · rintro ⟨-, good⟩
      have named := good name (List.mem_of_find?_eq_some found)
      rw [Option.isNone_iff_eq_none.1 bad] at named
      cases named
  · next missing =>
    have good : ∀ name ∈ s.ceilings.keys, (readClass? name).isSome = true := by
      simpa [Option.isSome_iff_ne_none] using missing
    rw [Except.ok.injEq, and_iff_left good]

theorem ceilings_lowered (s : Settings) : s.lowered.ceilings = s.ceilings := by
  rw [lowered]
  split <;> rfl

/-- Words in lower case stay as they are. -/
theorem lowered_eq_self_iff :
    s.lowered = s ↔ ∀ words, s.dictionary = some words → ∀ w ∈ words, lower w = w := by
  rw [lowered]
  split
  · next none => simp [none]
  · next words some =>
    have replaced : s.setDictionary words = s ↔ words.map lower = words.map id := by
      obtain ⟨_, _, _, _, _, _⟩ := s
      obtain rfl : _ = Option.some words := some
      simp [setDictionary]
    rw [replaced, List.map_inj_left]
    simp [some]

theorem read_eq_ok_iff : read text = .ok s ↔ ∃ t, reader.document text = .ok t ∧
    (∀ name ∈ t.ceilings.keys, (readClass? name).isSome = true) ∧ t.lowered = s := by
  rw [read]
  cases reader.document text with
  | error f => simp
  | ok t =>
    simp only [Except.ok.injEq, exists_eq_left']
    constructor
    · intro loaded
      cases outcome : t.checked with
      | error e =>
        rw [outcome] at loaded
        cases loaded
      | ok u =>
        obtain ⟨rfl, classes⟩ := checked_eq_ok_iff.1 outcome
        rw [outcome] at loaded
        exact ⟨classes, Except.ok.inj loaded⟩
    · rintro ⟨classes, rfl⟩
      rw [checked_eq_ok_iff.2 ⟨rfl, classes⟩]
      rfl

/-- The settings that are read back from their text are the well-formed ones. -/
theorem read_write_iff : read (s.write.map some) = .ok s ↔ s.WellFormed := by
  rw [read_eq_ok_iff, (reads_write s).document]
  constructor
  · rintro ⟨t, same, classes, lower⟩
    cases same
    exact ⟨classes, lowered_eq_self_iff.1 lower⟩
  · intro h
    exact ⟨s, rfl, h.classes, lowered_eq_self_iff.2 h.words⟩

/-! ### Well-formed settings -/

theorem wellFormed_usual : WellFormed usual where
  classes := nofun
  words := nofun

/-- Words that are put into lower case are in lower case. -/
theorem lower_of_mem_setDictionary {l words : List String}
    (chosen : (s.setDictionary l).dictionary = some words) : ∀ w ∈ words, lower w = w := by
  obtain rfl : l.map lower = words := Option.some.inj chosen
  intro w mem
  obtain ⟨x, -, rfl⟩ := List.mem_map.1 mem
  exact lower_lower x

theorem wellFormed_of_read (h : read text = .ok s) : s.WellFormed := by
  obtain ⟨t, -, classes, rfl⟩ := read_eq_ok_iff.1 h
  constructor
  · rwa [ceilings_lowered]
  · rw [lowered]
    split
    · next none => simp [none]
    · exact fun words chosen => lower_of_mem_setDictionary chosen

/-- Every choice keeps settings well-formed. -/
theorem WellFormed.choose (h : s.WellFormed) (choice : Choice) : (s.choose choice).WellFormed := by
  cases choice with
  | dictionary words => exact ⟨h.classes, fun words chosen => lower_of_mem_setDictionary chosen⟩
  | ceiling c v =>
    refine ⟨fun name mem => ?_, h.words⟩
    obtain ⟨e, found, rfl⟩ := List.mem_map.1 mem
    rcases SortedMap.mem_insertEntry found with rfl | old
    · rw [readClass?_className]
      rfl
    · exact h.classes e.1 (List.mem_map_of_mem old)
  | _ => exact ⟨h.classes, h.words⟩

/-- Settings that come from choices, on the usual ones or on those of a document, are read back from
their text. -/
theorem read_write_chooseAll (choices : List Choice) :
    read ((usual.chooseAll choices).write.map some) = .ok (usual.chooseAll choices) ∧
    ∀ text s, read text = .ok s →
      read ((s.chooseAll choices).write.map some) = .ok (s.chooseAll choices) := by
  have kept {s : Settings} (h : s.WellFormed) :
      read ((s.chooseAll choices).write.map some) = .ok (s.chooseAll choices) :=
    read_write_iff.2 (chooseAll_induction h (fun s choice h => h.choose choice) choices)
  exact ⟨kept wellFormed_usual, fun text s loaded => kept (wellFormed_of_read loaded)⟩

/-- A document with a word that ends in a capital sigma and an unusual name of a class. -/
def spelledText : List Symbol :=
  symbolsOf "\x7b\"Dictionary\":[\"ΟΔΟΣ\"],\"RepeatCeilings\":\x7b\" $0ed44\":-2147483648\x7d\x7d"

/-- The settings of that document. -/
def spelledOut : Settings :=
  { usual with
    dictionary := some ["οδος"]
    ceilings := SortedMap.empty.insert " $0ed44" (-2147483648) }

/-- Choices with characters that are written with escapes, the greatest length and a word that is not
in lower case. -/
def escapedChoices : List Choice :=
  [.textChars "\"\\\n\x01é", .leastInData 0xFFFFFFFFFFFFFFFF, .dictionary ["Σ", "İ"],
    .ceiling 0 (-1), .traceFormat .occupancy]

theorem read_write_chooseAll_spelledOut :
    read spelledText = .ok spelledOut ∧
    (spelledOut.chooseAll escapedChoices).dictionary = some ["σ", "i̇"] ∧
    read ((spelledOut.chooseAll escapedChoices).write.map some) =
      .ok (spelledOut.chooseAll escapedChoices) := by
  have loaded : read spelledText = .ok spelledOut := by
    have value : (read spelledText).toOption = some spelledOut := by decide +kernel
    cases outcome : read spelledText with
    | error e =>
      rw [outcome] at value
      cases value
    | ok s =>
      rw [outcome] at value
      exact congrArg Except.ok (Option.some.inj value)
  refine ⟨loaded, by decide +kernel, ?_⟩
  exact (read_write_chooseAll escapedChoices).2 spelledText spelledOut loaded

end Settings

end MemoryAtlas
