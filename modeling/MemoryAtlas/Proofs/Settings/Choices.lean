import MemoryAtlas.Proofs.Text.Numeral
import MemoryAtlas.Settings.Document

/-!
# Choices

Settings are chosen field by field. A ceiling is chosen for an opcode class under the shortest name
of the class; if the settings hold a greater name of the same class, from a document, that name
decides and the choice is lost.

## Main definitions

* `Settings.Choice`, `Settings.choose`, `Settings.chooseAll`: the choices and what they do.
* `Settings.isOutranked`: whether a name of a class is greater than its shortest one.

## Main results

* `Settings.readClass?_className`: a class is read from its shortest name.
* `Settings.repeatCeilings_setCeiling`: the table of ceilings after a choice.
* `Settings.setCeiling_takes_effect_iff`: when a chosen ceiling takes effect.
-/

namespace MemoryAtlas

open Text Z80

/-! ### Names of classes -/

theorem Text.isNumeral_hexDigits (width n : Nat) : IsNumeral 16 n (hexDigits width n) :=
  (isNumeral_toDigits (by decide) (by decide) n).zeros_append _

/-- Digits have no mark of hexadecimal before them. -/
theorem Text.IsNumeral.afterHexMark? {s : List Char} {n : Nat} (h : IsNumeral 16 n s) :
    afterHexMark? s = none := by
  have digits : ∀ c ∈ s, ∃ d, digit? 16 c = some d := fun c mem =>
    digit?_of_readDigits? (h.readDigits?_eq (by decide) (by decide)) mem
  have unmarked : ∀ mark c, c ∈ mark → digit? 16 c = none → after? mark s = none := by
    intro mark c mem no
    rw [after?, if_neg]
    intro starts
    obtain ⟨d, digit⟩ := digits c ((List.isPrefixOf_iff_prefix.1 starts).subset mem)
    exact absurd (no.symm.trans digit) (by simp)
  rw [Text.afterHexMark?, unmarked ['0', 'x'] 'x' (by decide) (by decide),
    unmarked ['$'] '$' (by decide) (by decide)]
  rfl

namespace Settings

variable {s : Settings} {c : UInt32}

/-- A class is read from its shortest name. -/
theorem readClass?_className (c : UInt32) : readClass? (className c) = some c.toNat := by
  have numeral : IsNumeral 16 c.toNat (className c).toList := by
    rw [className, hexUpper, String.toList_ofList]
    exact (isNumeral_hexDigits 1 c.toNat).map_toUpper
  have solid := trim_of_solid fun x mem => (numeral.solid (by decide) (by decide) mem).1
  simp only [readClass?, solid, numeral.afterHexMark?, Option.getD_none]
  exact numeral.readBelow?_eq (by decide) (by decide) c.toNat_lt

end Settings

/-! ### Tables of ceilings -/

namespace Z80.RepeatCeilings

variable {t : RepeatCeilings} {c d : Nat} {v w : Int}

@[ext]
theorem ext {t u : RepeatCeilings} (h : ∀ x, t.ceiling x = u.ceiling x) : t = u := by
  cases t
  cases u
  exact congrArg mk (funext h)

theorem set_set_self : (t.set c v).set c w = t.set c w := by
  ext x
  simp only [ceiling_set]
  split <;> rfl

theorem set_comm (ne : c ≠ d) : (t.set c v).set d w = (t.set d w).set c v := by
  ext x
  simp only [ceiling_set]
  split
  · next eq => rw [if_neg (by omega)]
  · rfl

/-- A ceiling that is set first is lost if any of those set after it is for the same class. -/
theorem setAll_set (l : List (Nat × Int)) :
    (t.set c v).setAll l = if c ∈ l.map Prod.fst then t.setAll l else (t.setAll l).set c v := by
  induction l generalizing t with
  | nil => simp [setAll]
  | cons o rest ih =>
    change ((t.set c v).set o.1 o.2).setAll rest =
      if c ∈ o.1 :: rest.map Prod.fst then (t.set o.1 o.2).setAll rest
      else ((t.set o.1 o.2).setAll rest).set c v
    by_cases same : o.1 = c
    · rw [if_pos (by simp [same]), same, set_set_self]
    · rw [set_comm (Ne.symm same), ih]
      simp only [List.mem_cons, Ne.symm same, false_or]

end Z80.RepeatCeilings

namespace Settings

variable {s : Settings} {c : UInt32} {v : Int32}

/-- What a named ceiling sets, if it is for a class. -/
def override? (e : String × Int32) : Option (Nat × Int) :=
  (readClass? e.1).map fun c => (c, e.2.toInt)

theorem mem_map_fst_filterMap_override? {l : List (String × Int32)} {n : Nat} :
    n ∈ (l.filterMap override?).map Prod.fst ↔ ∃ e ∈ l, readClass? e.1 = some n := by
  simp [override?]

theorem setAll_cons_override? (t : RepeatCeilings) (e : String × Int32)
    (l : List (String × Int32)) :
    t.setAll ((e :: l).filterMap override?) =
      (t.setAll ([e].filterMap override?)).setAll (l.filterMap override?) := by
  rw [← List.singleton_append, List.filterMap_append, RepeatCeilings.setAll, List.foldl_append]
  rfl

/-- Whether some entry names the class by a name greater than the given one. -/
def namesAfter (name : String) (n : Nat) (l : List (String × Int32)) : Bool :=
  l.any fun e => name < e.1 && readClass? e.1 == some n

theorem namesAfter_cons_of_not_lt {name : String} {n : Nat} {e : String × Int32}
    {l : List (String × Int32)} (h : ¬name < e.1) :
    namesAfter name n (e :: l) = namesAfter name n l := by
  rw [namesAfter, List.any_cons, decide_eq_false h]
  rfl

/-- Where all names are greater, some name is for the class if anything is set for it. -/
theorem namesAfter_iff_of_lt {name : String} {n : Nat} {l : List (String × Int32)}
    (after : ∀ e ∈ l, name < e.1) :
    namesAfter name n l = true ↔ n ∈ (l.filterMap override?).map Prod.fst := by
  rw [mem_map_fst_filterMap_override?, namesAfter, List.any_eq_true]
  simp only [Bool.and_eq_true, decide_eq_true_eq, beq_iff_eq]
  exact exists_congr fun e => and_congr_right fun mem => and_iff_right (after e mem)

/-- An entry for a class goes to its place among the names. It decides unless a greater name of the
same class is there. -/
theorem setAll_insertEntry (t : RepeatCeilings) {name : String} {n : Nat}
    (names : readClass? name = some n) {l : List (String × Int32)}
    (sorted : l.Pairwise fun x y => x.1 < y.1) :
    t.setAll ((SortedMap.insertEntry name v l).filterMap override?) =
      if namesAfter name n l then t.setAll (l.filterMap override?)
      else (t.setAll (l.filterMap override?)).set n v.toInt := by
  have single : ∀ (t : RepeatCeilings) (w : Int32),
      t.setAll ([(name, w)].filterMap override?) = t.set n w.toInt := by
    intro t w
    simp [override?, names, RepeatCeilings.setAll]
  -- The induction goes down the names, up to the place of the new one.
  induction l generalizing t with
  | nil => exact single t v
  | cons e rest ih =>
    obtain ⟨head, tail⟩ := List.pairwise_cons.1 sorted
    rw [SortedMap.insertEntry]
    split
    · next before =>
      have after : ∀ e' ∈ e :: rest, name < e'.1 := by
        intro e' mem
        rcases List.mem_cons.1 mem with rfl | mem
        · exact before
        · exact Std.lt_trans before (head e' mem)
      rw [setAll_cons_override?, single, RepeatCeilings.setAll_set]
      simp only [namesAfter_iff_of_lt after]
    · next before =>
      split
      · next eq =>
        -- The name is replaced, and what it set before is lost in either way.
        obtain ⟨name', w⟩ := e
        obtain rfl : name = name' := eq
        rw [setAll_cons_override?, single, setAll_cons_override?, single,
          RepeatCeilings.setAll_set, RepeatCeilings.setAll_set, namesAfter_cons_of_not_lt before]
        simp only [namesAfter_iff_of_lt head]
        split
        · rfl
        · rw [RepeatCeilings.set_set_self]
      · rw [setAll_cons_override?, ih _ tail, namesAfter_cons_of_not_lt before,
          setAll_cons_override? t e rest]

/-! ### Choosing -/

/-- A value chosen for one field, or for one opcode class. -/
inductive Choice where
  | textChars (chars : String)
  | leastInData (length : UInt64)
  | leastInCode (length : UInt64)
  | dictionary (words : List String)
  | ceiling (c : UInt32) (ceiling : Int32)
  | traceFormat (f : Trace.Format)
  deriving DecidableEq

/-- The settings with a choice made. -/
def choose (s : Settings) : Choice → Settings
  | .textChars chars => { s with textChars := chars }
  | .leastInData length => { s with leastInData := length }
  | .leastInCode length => { s with leastInCode := length }
  | .dictionary words => s.setDictionary words
  | .ceiling c ceiling => s.setCeiling c ceiling
  | .traceFormat f => { s with traceFormat := some f }

/-- The settings with choices made in turn. -/
def chooseAll (s : Settings) (choices : List Choice) : Settings := choices.foldl choose s

/-- What holds of settings and is kept by each choice is kept by all of them. -/
theorem chooseAll_induction {P : Settings → Prop} (holds : P s)
    (kept : ∀ s choice, P s → P (choose s choice)) (choices : List Choice) :
    P (s.chooseAll choices) := by
  induction choices generalizing s with
  | nil => exact holds
  | cons choice rest ih => exact ih (kept s choice holds)

/-- Whether the settings name a class by a name greater than its shortest one. -/
def isOutranked (s : Settings) (c : UInt32) : Bool :=
  namesAfter (className c) c.toNat s.ceilings.entries

theorem isOutranked_iff : s.isOutranked c = true ↔
    ∃ name ∈ s.ceilings.keys, readClass? name = some c.toNat ∧ className c < name := by
  rw [isOutranked, namesAfter, List.any_eq_true]
  simp only [Bool.and_eq_true, decide_eq_true_eq, beq_iff_eq]
  constructor
  · rintro ⟨e, mem, after, names⟩
    exact ⟨e.1, List.mem_map_of_mem mem, names, after⟩
  · rintro ⟨name, mem, names, after⟩
    obtain ⟨e, found, rfl⟩ := List.mem_map.1 mem
    exact ⟨e, found, after, names⟩

/-- The ceilings after a choice: as they were if a greater name of the class decides, and else with
the chosen one. -/
theorem repeatCeilings_setCeiling (s : Settings) (c : UInt32) (v : Int32) :
    (s.setCeiling c v).repeatCeilings =
      if s.isOutranked c then s.repeatCeilings else s.repeatCeilings.set c.toNat v.toInt :=
  setAll_insertEntry _ (readClass?_className c) s.ceilings.ascending

/-- The names of classes are the shortest ones. -/
def NamesShortest (s : Settings) : Prop := ∀ name ∈ s.ceilings.keys, ∃ c, name = className c

theorem NamesShortest.choose (h : NamesShortest s) (choice : Choice) :
    NamesShortest (s.choose choice) := by
  cases choice with
  | ceiling c v =>
    intro name mem
    obtain ⟨e, found, rfl⟩ := List.mem_map.1 mem
    rcases SortedMap.mem_insertEntry found with rfl | old
    · exact ⟨c, rfl⟩
    · exact h e.1 (List.mem_map_of_mem old)
  | _ => exact h

theorem NamesShortest.isOutranked (h : NamesShortest s) (c : UInt32) : s.isOutranked c = false := by
  rw [Bool.eq_false_iff, Ne, isOutranked_iff]
  rintro ⟨name, mem, names, after⟩
  obtain ⟨d, rfl⟩ := h name mem
  rw [readClass?_className, Option.some.injEq, UInt32.toNat_inj] at names
  exact Std.lt_irrefl (names ▸ after)

/-- When a chosen ceiling takes effect: if no name that the settings hold for its class is greater
than the shortest one, or the ceiling was the chosen one before. Otherwise nothing changes at all.
The ceilings of the other classes stay, and choices alone never get in the way of another one. -/
theorem setCeiling_takes_effect_iff (s : Settings) (c : UInt32) (v : Int32) :
    ((s.setCeiling c v).repeatCeilings.ceiling c.toNat = v.toInt ↔
      (∀ name ∈ s.ceilings.keys, readClass? name = some c.toNat → name ≤ className c) ∨
        s.repeatCeilings.ceiling c.toNat = v.toInt) ∧
    (∀ name ∈ s.ceilings.keys, readClass? name = some c.toNat → className c < name →
      (s.setCeiling c v).repeatCeilings = s.repeatCeilings) ∧
    (∀ d ≠ c.toNat,
      (s.setCeiling c v).repeatCeilings.ceiling d = s.repeatCeilings.ceiling d) ∧
    ∀ choices, s = usual.chooseAll choices →
      (s.setCeiling c v).repeatCeilings.ceiling c.toNat = v.toInt := by
  have taken (free : s.isOutranked c = false) :
      (s.setCeiling c v).repeatCeilings.ceiling c.toNat = v.toInt := by
    rw [repeatCeilings_setCeiling, free]
    simp
  have lost (outranked : s.isOutranked c = true) :
      (s.setCeiling c v).repeatCeilings = s.repeatCeilings := by
    rw [repeatCeilings_setCeiling, if_pos outranked]
  have free_iff : s.isOutranked c = false ↔
      ∀ name ∈ s.ceilings.keys, readClass? name = some c.toNat → name ≤ className c := by
    rw [Bool.eq_false_iff, Ne, isOutranked_iff]
    constructor
    · intro none name mem names
      exact String.not_lt.1 fun after => none ⟨name, mem, names, after⟩
    · rintro least ⟨name, mem, names, after⟩
      exact String.not_lt.2 (least name mem names) after
  refine ⟨?_, fun name mem names after => ?_, fun d ne => ?_, fun choices made => ?_⟩
  · rw [← free_iff]
    cases outranked : s.isOutranked c with
    | false => simp [taken outranked]
    | true => simp [lost outranked]
  · exact lost (isOutranked_iff.2 ⟨name, mem, names, after⟩)
  · rw [repeatCeilings_setCeiling]
    split
    · rfl
    · rw [RepeatCeilings.ceiling_set, if_neg ne]
  · have shortest : NamesShortest usual := fun name mem => nomatch mem
    have kept : NamesShortest s := by
      rw [made]
      exact chooseAll_induction shortest (fun s choice h => h.choose choice) choices
    exact taken (kept.isOutranked c)

/-- Settings of a document that names a class in lower case. -/
def lowerNamed : Settings := { usual with ceilings := SortedMap.empty.insert "ed44" 4 }

/-- A name in lower case is greater than the shortest one, so the ceiling of the document stays,
where one that was chosen gives way. -/
theorem setCeiling_takes_effect_iff_lowerNamed :
    (read (symbolsOf "\x7b\"RepeatCeilings\":\x7b\"ed44\":4\x7d\x7d")).toOption = some lowerNamed ∧
    (lowerNamed.setCeiling 0xED44 5).repeatCeilings = lowerNamed.repeatCeilings ∧
    (lowerNamed.setCeiling 0xED44 5).repeatCeilings.ceiling 0xED44 = 4 ∧
    (lowerNamed.setCeiling 0xED44 5).repeatCeilings.ceiling 0x76 = 2 ∧
    ((usual.chooseAll [.ceiling 0xED44 4]).setCeiling 0xED44 5).repeatCeilings.ceiling 0xED44 =
      5 := by
  obtain ⟨-, lost, others, -⟩ := setCeiling_takes_effect_iff lowerNamed 0xED44 5
  have same := lost "ed44" (by decide) (by decide) (by decide)
  refine ⟨by decide +kernel, same, ?_, ?_, ?_⟩
  · rw [same]
    decide
  · rw [others 0x76 (by decide)]
    decide
  · exact (setCeiling_takes_effect_iff (usual.chooseAll [.ceiling 0xED44 4]) 0xED44 5).2.2.2 _ rfl

end Settings

end MemoryAtlas
