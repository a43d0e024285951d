import MemoryAtlas.Json.Reader
import MemoryAtlas.Proofs.Json.Lexeme

/-!
# Written values are read

A reader reads a written value if it takes the value off the front of any text that starts with it.
Readers are made of readers, and what is written is made of what is written in the same way: each
way to make a reader has a lemma here, so that the readers of whole documents need no induction of
their own.

## Main definitions

* `Json.Reader.Reads`: a reader reads a written value.
* `Json.Reader.SkipsSpace`: a reader passes blanks before a value.
* `Json.Reader.Folds`: the items of a sequence, read one after another.

## Main results

* `Json.Reader.reads_string`, `Json.Reader.reads_integer`, `Json.Reader.Reads.orNull`,
  `Json.Reader.reads_list`: values.
* `Json.Reader.reads_sequence`, `Json.Reader.Reads.entry`, `Json.Reader.reads_object`: lists and
  objects, with blanks or without.
* `Json.Reader.Reads.document`: whole texts.
-/

namespace MemoryAtlas.Json

open Text

/-! ### Blanks -/

theorem skipSpace_cons {c : Symbol} (solid : isSpace c = false) (s : List Symbol) :
    skipSpace (c :: s) = c :: s :=
  List.dropWhile_cons_of_neg (by simp [solid])

theorem skipSpace_append {gap : List Char} (blank : ∀ c ∈ gap, isSpace (some c) = true)
    (s : List Symbol) : skipSpace (gap.map some ++ s) = skipSpace s := by
  apply List.dropWhile_append_of_pos
  intro c mem
  obtain ⟨x, found, rfl⟩ := List.mem_map.1 mem
  exact blank x found

theorem skipSpace_skipSpace (s : List Symbol) : skipSpace (skipSpace s) = skipSpace s :=
  List.dropWhile_idempotent isSpace s

theorem closed_of_isSpace {c : Symbol} (blank : isSpace c = true) (rest : List Symbol) :
    Closed (c :: rest) := by
  cases c with
  | none => cases blank
  | some c =>
    simp only [isSpace, Bool.or_eq_true, beq_iff_eq] at blank
    rcases blank with ((rfl | rfl) | rfl) | rfl
    all_goals exact closed_cons (by decide) (by decide) (by decide) (by decide)

theorem isSpace_of_isDigit {c : Symbol} (digit : isDigit c = true) : isSpace c = false := by
  apply Bool.eq_false_iff.2
  intro blank
  have closed := closed_of_isSpace blank [] c rfl
  exact absurd digit (by simp [closed.1])

namespace Reader

variable {α β κ σ : Type} {r : Reader α} {text gap : List Char} {x : α}

/-- The reader takes the written value off the front of a text. -/
def Reads (r : Reader α) (text : List Char) (x : α) : Prop :=
  ∀ rest, Closed rest → r.read (text.map some ++ rest) = .ok (x, rest)

/-- The reader passes blanks. -/
def SkipsSpace (r : Reader α) : Prop := ∀ s, r.read (skipSpace s) = r.read s

theorem Reads.blank_append (h : r.Reads text x) (skips : r.SkipsSpace)
    (blank : ∀ c ∈ gap, isSpace (some c) = true) : r.Reads (gap ++ text) x := by
  intro rest closed
  rw [List.map_append, List.append_assoc, ← skips, skipSpace_append blank, skips]
  exact h rest closed

theorem Reads.refine (h : r.Reads text x) {f : α → Option β} {y : β} (value : f x = some y) :
    (r.refine f).Reads text y := by
  intro rest closed
  simp only [Reader.refine, h rest closed, value]

theorem Reads.map (h : r.Reads text x) (f : α → β) : (r.map f).Reads text (f x) :=
  h.refine rfl

/-- A text that is one written value holds the value. -/
theorem Reads.document (h : r.Reads text x) : r.document (text.map some) = .ok x := by
  have read := h [] closed_nil
  rw [List.append_nil] at read
  simp only [Reader.document, read]
  rfl

/-! ### Values -/

theorem reads_string (s : String) : string.Reads (writeString s) s := by
  intro rest _
  have start : skipSpace ((writeString s).map some ++ rest) =
      some '"' :: ((s.toList.flatMap writeChar).map some ++ some '"' :: rest) := by
    rw [writeString, List.cons_append, List.map_cons, List.cons_append,
      skipSpace_cons (by decide), List.map_append, List.append_assoc]
    rfl
  simp only [string, start, stringFrom_flatMap_writeChar, List.reverse_nil, List.nil_append,
    chars?_map_some, String.ofList_toList]

theorem reads_key (s : String) : key.Reads (writeString s) s := reads_string s

/-- An integer starts with its sign or with a digit. -/
theorem exists_writeInteger_eq_cons (n : Int) :
    ∃ c s, writeInteger n = c :: s ∧ isSpace (some c) = false ∧
      (some c = some '-' || isDigit (some c)) = true := by
  cases n with
  | ofNat n =>
    obtain ⟨c, s, eq⟩ := exists_writeNat_eq_cons n
    have digit : isDigit (some c) = true := isDigit_of_mem_writeNat (eq ▸ List.mem_cons_self)
    exact ⟨c, s, eq, isSpace_of_isDigit digit, by simp [digit]⟩
  | negSucc n => exact ⟨'-', _, rfl, rfl, rfl⟩

theorem reads_integer {least greatest n : Int} (low : least ≤ n) (high : n ≤ greatest) :
    (integer least greatest).Reads (writeInteger n) n := by
  intro rest closed
  obtain ⟨c, s, eq, solid, first⟩ := exists_writeInteger_eq_cons n
  have read := number_writeInteger n closed
  rw [eq, List.map_cons, List.cons_append] at read ⊢
  simp only [integer, skipSpace_cons solid, read, first, low, high, and_self, if_true]

theorem reads_orNull_none (r : Reader α) : r.orNull.Reads writeNull none := by
  intro rest _
  change r.orNull.read (some 'n' :: (['u', 'l', 'l'].map some ++ rest)) = _
  simp only [orNull, skipSpace_cons (show isSpace (some 'n') = false from rfl), keyword_append]
  rfl

/-- A value whose text does not start as the key word does is read in its place. -/
theorem Reads.orNull {c : Char} {tail : List Char} (h : r.Reads (c :: tail) x)
    (solid : isSpace (some c) = false) (other : c ≠ 'n') : r.orNull.Reads (c :: tail) (some x) := by
  intro rest closed
  have read := h rest closed
  rw [List.map_cons, List.cons_append] at read ⊢
  simp only [Reader.orNull, skipSpace_cons solid]
  split
  · next eq => simp_all
  · rw [read]
    rfl

/-! ### Sequences -/

variable {close : Char} {wanted : σ → Bool} {item : σ → Reader σ} {isFirst : Bool}
  {state next final : σ} {texts : List (List Char)} {s rest : List Symbol}

/-- The end of a list or of an object. -/
def IsClose (c : Char) : Prop := c = ']' ∨ c = '}'

theorem IsClose.ne_comma (h : IsClose close) : close ≠ ',' := by
  rcases h with rfl | rfl <;> decide

theorem IsClose.isSpace_eq_false (h : IsClose close) : isSpace (some close) = false := by
  rcases h with rfl | rfl <;> rfl

theorem IsClose.closed (h : IsClose close) (rest : List Symbol) : Closed (some close :: rest) := by
  rcases h with rfl | rfl <;>
    exact closed_cons (by decide) (by decide) (by decide) (by decide)

/-- The text starts with neither a blank nor the end of the sequence. -/
def Starts (close : Char) (text : List Char) : Prop :=
  ∃ c tail, text = c :: tail ∧ isSpace (some c) = false ∧ c ≠ close

theorem Starts.append (h : Starts close text) (rest : List Char) : Starts close (text ++ rest) := by
  obtain ⟨c, tail, rfl, solid, other⟩ := h
  exact ⟨c, tail ++ rest, rfl, solid, other⟩

theorem starts_writeString (closes : IsClose close) (s : String) : Starts close (writeString s) := by
  refine ⟨'"', _, rfl, rfl, ?_⟩
  rcases closes with rfl | rfl <;> decide

/-- The items of a sequence, each after blanks, are read one after another. -/
inductive Folds (close : Char) (wanted : σ → Bool) (item : σ → Reader σ) :
    σ → List (List Char) → σ → Prop
  | nil (state : σ) : Folds close wanted item state [] state
  | cons {state next final : σ} {gap text : List Char} {texts : List (List Char)}
      (blank : ∀ c ∈ gap, isSpace (some c) = true) (starts : Starts close text)
      (wants : wanted state = true) (reads : (item state).Reads text next)
      (later : Folds close wanted item next texts final) :
      Folds close wanted item state ((gap ++ text) :: texts) final

/-- Items that are folded by a function. -/
theorem Folds.of_foldl {ι : Type} (f : σ → ι → σ) (write : ι → List Char)
    (blank : ∀ c ∈ gap, isSpace (some c) = true) (wants : ∀ state, wanted state = true) :
    ∀ (l : List ι) (state : σ),
      (∀ x ∈ l, Starts close (write x) ∧ ∀ state, (item state).Reads (write x) (f state x)) →
      Folds close wanted item state (l.map fun x => gap ++ write x) (l.foldl f state)
  | [], state, _ => .nil state
  | x :: l, state, reads => by
    obtain ⟨starts, read⟩ := reads x List.mem_cons_self
    exact .cons blank starts (wants state) (read state)
      (of_foldl f write blank wants l (f state x) fun y mem => reads y (List.mem_cons_of_mem x mem))

theorem itemsFrom_of_end
    (ends : nextItem (some close) isFirst (wanted state) s = .ok (false, rest)) :
    itemsFrom (some close) wanted item isFirst state s = .ok (state, rest) := by
  rw [itemsFrom]
  split <;> simp_all

theorem itemsFrom_of_item {s' : List Symbol}
    (starts : nextItem (some close) isFirst (wanted state) s = .ok (true, s'))
    (read : (item state).read s' = .ok (next, rest)) :
    itemsFrom (some close) wanted item isFirst state s =
      itemsFrom (some close) wanted item false next rest := by
  rw [itemsFrom]
  split
  · simp_all
  · simp_all
  · next eq =>
    rw [starts] at eq
    cases eq
    split <;> simp_all

theorem nextItem_close (closes : IsClose close) (blank : ∀ c ∈ gap, isSpace (some c) = true)
    (isFirst wants : Bool) :
    nextItem (some close) isFirst wants (gap.map some ++ some close :: rest) = .ok (false, rest) := by
  rw [nextItem, skipSpace_append blank, skipSpace_cons closes.isSpace_eq_false]
  simp

theorem nextItem_first (blank : ∀ c ∈ gap, isSpace (some c) = true) (starts : Starts close text) :
    nextItem (some close) true true ((gap ++ text).map some ++ rest) =
      .ok (true, text.map some ++ rest) := by
  obtain ⟨c, tail, rfl, solid, other⟩ := starts
  rw [nextItem, List.map_append, List.append_assoc, skipSpace_append blank, List.map_cons,
    List.cons_append, skipSpace_cons solid]
  simp [other]

theorem nextItem_comma (closes : IsClose close) (blank : ∀ c ∈ gap, isSpace (some c) = true)
    (starts : Starts close text) :
    nextItem (some close) false true (some ',' :: ((gap ++ text).map some ++ rest)) =
      .ok (true, text.map some ++ rest) := by
  obtain ⟨c, tail, rfl, solid, other⟩ := starts
  rw [nextItem, skipSpace_cons rfl]
  simp only [List.map_append, List.append_assoc, skipSpace_append blank, List.map_cons,
    List.cons_append, skipSpace_cons solid]
  simp [other, closes.ne_comma.symm]

/-- The rest of a sequence after its first item, up to its end. -/
def ending (close : Char) (gap : List Char) (texts : List (List Char)) : List Char :=
  texts.flatMap (',' :: ·) ++ (gap ++ [close])

theorem closed_ending (closes : IsClose close) (blank : ∀ c ∈ gap, isSpace (some c) = true)
    (texts : List (List Char)) (rest : List Symbol) :
    Closed ((ending close gap texts).map some ++ rest) := by
  cases texts with
  | cons text texts => exact closed_cons (by decide) (by decide) (by decide) (by decide)
  | nil =>
    cases gap with
    | cons c gap => exact closed_of_isSpace (blank c List.mem_cons_self) _
    | nil => exact closes.closed rest

/-- The items after the first one are read, each after a comma. -/
theorem Folds.itemsFrom_ending (h : Folds close wanted item state texts final)
    (closes : IsClose close) (blank : ∀ c ∈ gap, isSpace (some c) = true) (rest : List Symbol) :
    itemsFrom (some close) wanted item false state ((ending close gap texts).map some ++ rest) =
      .ok (final, rest) := by
  induction h with
  | nil state =>
    apply itemsFrom_of_end
    simpa [ending] using nextItem_close closes blank false (wanted state)
  | @cons state next final gap' text texts blank' starts wants reads later ih =>
    -- What follows an item is a comma, a blank or the end, so the item is read to its end.
    rw [itemsFrom_of_item ?_ (reads _ (closed_ending closes blank texts rest)), ih]
    rw [wants]
    simpa [ending] using nextItem_comma closes blank' starts

theorem separated_cons (text : List Char) (texts : List (List Char)) :
    separated (text :: texts) = text ++ texts.flatMap (',' :: ·) := by
  induction texts generalizing text with
  | nil => simp [separated]
  | cons next texts ih => simp [separated, ih]

/-- A sequence is read from its items, whatever the blanks between them. -/
theorem reads_sequence (opening : Char) (h : Folds close wanted item state texts final)
    (opens : isSpace (some opening) = false) (closes : IsClose close)
    (blank : ∀ c ∈ gap, isSpace (some c) = true) :
    (sequence opening close wanted item state).Reads
      (opening :: separated texts ++ (gap ++ [close])) final := by
  intro rest _
  have start : skipSpace ((opening :: separated texts ++ (gap ++ [close])).map some ++ rest) =
      some opening :: ((separated texts ++ (gap ++ [close])).map some ++ rest) :=
    skipSpace_cons opens _
  simp only [sequence, start, if_true]
  cases h with
  | nil =>
    apply itemsFrom_of_end
    simpa [separated] using nextItem_close closes blank true (wanted state)
  | @cons _ next _ gap' text texts blank' starts wants reads later =>
    have split : (separated ((gap' ++ text) :: texts) ++ (gap ++ [close])).map some ++ rest =
        (gap' ++ text).map some ++ ((ending close gap texts).map some ++ rest) := by
      simp [separated_cons, ending]
    rw [split, itemsFrom_of_item ?_ (reads _ (closed_ending closes blank texts rest)),
      later.itemsFrom_ending closes blank]
    rw [wants]
    exact nextItem_first blank' starts

/-- A list of written values is read. -/
theorem reads_list {write : α → List Char} {l : List α}
    (reads : ∀ x ∈ l, Starts ']' (write x) ∧ r.Reads (write x) x) :
    r.list.Reads (writeList (l.map write)) l := by
  have folds : Folds ']' (fun _ => true) (fun found => r.map (· :: found)) []
      (l.map write) (l.foldl (fun found x => x :: found) []) := by
    apply Folds.of_foldl _ write (List.forall_mem_nil _) (fun _ => rfl)
    intro x mem
    obtain ⟨starts, read⟩ := reads x mem
    exact ⟨starts, fun found => read.map (· :: found)⟩
  have read := (reads_sequence '[' folds rfl (.inl rfl) (List.forall_mem_nil _)).map List.reverse
  rwa [List.foldl_flip_cons_eq_append, List.append_nil, List.reverse_reverse, List.map_id'] at read

/-- A member of an object: a key, and then the value that the key asks for. -/
def entry (key : Reader κ) (asked : σ → κ → Except Fault (Reader σ)) (state : σ) : Reader σ :=
  key.andThen fun k => (asked state k).map afterColon

variable {key : Reader κ} {asked : σ → κ → Except Fault (Reader σ)}

theorem Reads.entry {k : κ} {value : Reader σ} {keyText : List Char} (hk : key.Reads keyText k)
    (asks : asked state k = .ok value) (hv : value.Reads text next) :
    (entry key asked state).Reads (keyText ++ ':' :: text) next := by
  intro rest closed
  rw [List.map_append, List.append_assoc, List.map_cons, List.cons_append]
  have colon : Closed (some ':' :: (text.map some ++ rest)) :=
    closed_cons (by decide) (by decide) (by decide) (by decide)
  simp only [Reader.entry, andThen, hk _ colon, asks, Except.map]
  exact hv rest closed

/-- An object is read from its members. -/
theorem reads_object (h : Folds '}' (fun _ => true) (entry key asked) state texts final)
    (blank : ∀ c ∈ gap, isSpace (some c) = true) :
    (object key asked state).Reads ('{' :: separated texts ++ (gap ++ ['}'])) final :=
  reads_sequence '{' h rfl (.inr rfl) blank

theorem reads_writeObject (h : Folds '}' (fun _ => true) (entry key asked) state texts final) :
    (object key asked state).Reads (writeObject texts) final :=
  reads_object h (List.forall_mem_nil _)

/-! ### Readers that pass blanks -/

theorem skipsSpace_string : string.SkipsSpace := fun s => by
  simp only [string, skipSpace_skipSpace]

theorem skipsSpace_sequence {opening : Char} :
    (sequence opening close wanted item state).SkipsSpace := fun s => by
  simp only [sequence, skipSpace_skipSpace]

theorem SkipsSpace.refine (h : r.SkipsSpace) (f : α → Option β) : (r.refine f).SkipsSpace :=
  fun s => by simp only [Reader.refine, h s]

end Reader

end MemoryAtlas.Json
