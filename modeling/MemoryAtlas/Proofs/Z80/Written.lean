import MemoryAtlas.Proofs.Text.Numeral
import MemoryAtlas.Z80.Operation

/-!
# What written forms tell

The written form of an operation is a mnemonic, a blank and operands divided by commas. A reader of
it can tell two things apart without a parser. Whether the operation is a jump is told by the first
three characters. Whether it has an operand in the memory at `hl` is told by a search for `(hl)`,
because a bracket opens only at the start of an operand, and no other operand has an `h` behind it.

## Main results

* `Z80.Operation.infix_text_iff`: an operand in the memory at `hl`, by the written form.
* `Z80.Operation.jumpTarget?_eq_some_iff_prefix_text`: a jump, by the written form.
-/

namespace MemoryAtlas

/-! ### Digits -/

namespace Text

theorem notMem_hexLower {c : Char} (other : digit? 16 c = none) (width n : Nat) :
    c ∉ (hexLower width n).toList := by
  rw [hexLower, String.toList_ofList, hexDigits, List.mem_append, not_or]
  refine ⟨fun zero => ?_, fun mem => ?_⟩
  · cases List.eq_of_mem_replicate zero
    cases other
  · have read := readDigits?_toDigits (by decide) (Nat.le_refl 16) n
    obtain ⟨d, digit⟩ := digit?_of_readDigits? read mem
    rw [other] at digit
    cases digit

theorem notMem_toString {c : Char} (other : c.isDigit = false) (n : Nat) :
    c ∉ (toString n).toList := by
  intro mem
  rw [Nat.toString_eq_ofList_toDigits, String.toList_ofList] at mem
  have digit := Nat.isDigit_of_mem_toDigits (by decide) (Nat.le_refl 10) mem
  rw [other] at digit
  cases digit

end Text

namespace Z80

open Text

/-! ### The memory at `hl` -/

theorem notMem_showSigned (d : Int) : '(' ∉ (showSigned d).toList := by
  have digits := notMem_toString (c := '(') rfl d.natAbs
  unfold showSigned
  split <;> simpa using digits

/-- Before the first bracket there is nothing to find. -/
theorem infix_append_of_bare {s r : List Char} (bare : '(' ∉ s) :
    "(hl)".toList <:+: s ++ r ↔ "(hl)".toList <:+: r := by
  induction s with
  | nil => rfl
  | cons d s ih =>
    rw [List.mem_cons, not_or] at bare
    rw [List.cons_append, List.infix_cons_iff, ih bare.2]
    exact or_iff_right fun found => bare.1 (List.cons_prefix_cons.1 found).1

/-- Nor is there behind a bracket that another character follows. -/
theorem infix_bracket_append {c : Char} {s r : List Char} (other : c ≠ 'h') (bare : '(' ∉ c :: s) :
    "(hl)".toList <:+: '(' :: c :: s ++ r ↔ "(hl)".toList <:+: r := by
  rw [List.cons_append, List.infix_cons_iff, infix_append_of_bare bare]
  refine or_iff_right fun found => other ?_
  exact (List.cons_prefix_cons.1 (List.cons_prefix_cons.1 found).2).1.symm

namespace Operand

theorem infix_of_bare {o : Operand} {r : List Char} (ne : o ≠ .via .hl)
    (bare : '(' ∉ o.text.toList) :
    "(hl)".toList <:+: o.text.toList ++ r ↔ o = .via .hl ∨ "(hl)".toList <:+: r := by
  rw [infix_append_of_bare bare, or_iff_right ne]

theorem infix_of_bracket {o : Operand} {r : List Char} (ne : o ≠ .via .hl) {c : Char}
    {s : List Char} (eq : o.text.toList = '(' :: c :: s) (other : c ≠ 'h') (bare : '(' ∉ c :: s) :
    "(hl)".toList <:+: o.text.toList ++ r ↔ o = .via .hl ∨ "(hl)".toList <:+: r := by
  rw [eq, infix_bracket_append other bare, or_iff_right ne]

/-- `(hl)` is found in an operand exactly if it is the memory at `hl`. -/
theorem infix_text_append (o : Operand) (r : List Char) :
    "(hl)".toList <:+: o.text.toList ++ r ↔ o = .via .hl ∨ "(hl)".toList <:+: r := by
  have hex : ∀ width n, '(' ∉ (hexLower width n).toList := notMem_hexLower (by decide)
  cases o with
  | register name =>
    refine infix_of_bare (by simp) ?_
    rcases name with _ | _ | _ | _ | _ | _ | _ | _ | _ | _ | ⟨⟨⟩⟩ | ⟨⟨⟩⟩ <;> decide
  | pair p =>
    refine infix_of_bare (by simp) ?_
    rcases p with _ | _ | _ | _ | _ | ⟨⟨⟩⟩ <;> decide
  | shadow => exact infix_of_bare (by simp) (by decide)
  | condition test =>
    refine infix_of_bare (by simp) ?_
    cases test <;> decide
  | digit n => exact infix_of_bare (by simp) (notMem_toString rfl n)
  | byte v | word v | target v | restart v => exact infix_of_bare (by simp) (by simp [text, hex])
  | via p =>
    rcases p with _ | _ | _ | _ | _ | ⟨⟨⟩⟩
    case hl => exact iff_of_true ⟨[], r, rfl⟩ (.inl rfl)
    all_goals exact infix_of_bracket (by simp) rfl (by decide) (by decide)
  | portC => exact infix_of_bracket (by simp) rfl (by decide) (by decide)
  | port v =>
    have eq : (port v).text.toList = '(' :: '$' :: ((hexLower 2 v.toNat).toList ++ [')']) := by
      simp [text]
    exact infix_of_bracket (by simp) eq (by decide) (by simp [hex])
  | cell v =>
    have eq : (cell v).text.toList = '(' :: '$' :: ((hexLower 4 v).toList ++ [')']) := by
      simp [text]
    exact infix_of_bracket (by simp) eq (by decide) (by simp [hex])
  | indexed x d =>
    have eq : (indexed x d).text.toList =
        '(' :: 'i' :: (x.text.toList.tail ++ (showSigned d).toList ++ [')']) := by
      cases x <;> simp [text, Index.text]
    refine infix_of_bracket (by simp) eq (by decide) ?_
    cases x <;> simp [Index.text, notMem_showSigned]

theorem infix_intercalate_iff (operands : List Operand) :
    "(hl)".toList <:+: [','].intercalate (operands.map (·.text.toList)) ↔ .via .hl ∈ operands := by
  induction operands with
  | nil => simp [List.intercalate]
  | cons o rest ih =>
    rw [List.mem_cons, ← ih, eq_comm]
    cases rest with
    | nil =>
      have alone := o.infix_text_append []
      rw [List.append_nil] at alone
      rwa [List.map_cons, List.map_nil, List.intercalate_singleton, List.intercalate_nil]
    | cons next rest =>
      -- The comma has no bracket in it, so what is found lies in one operand.
      rw [List.map_cons, List.map_cons, List.intercalate_cons_cons, List.append_assoc,
        o.infix_text_append, infix_append_of_bare (by decide)]

end Operand

theorem Mnemonic.notMem_text (n : Mnemonic) : '(' ∉ n.text.toList := by
  cases n <;> decide

/-- `(hl)` is found in an operation exactly if it has an operand in the memory at `hl`. -/
theorem Operation.infix_text_iff (o : Operation) :
    "(hl)".toList <:+: o.text.toList ↔ .via .hl ∈ o.operands := by
  obtain ⟨name, operands⟩ := o
  cases operands with
  | nil =>
    have alone := infix_append_of_bare (r := []) name.notMem_text
    rw [List.append_nil] at alone
    exact alone.trans (by simp)
  | cons first rest =>
    rw [← Operand.infix_intercalate_iff]
    simp only [text, String.toList_append, String.toList_intercalate, List.map_map,
      List.append_assoc]
    rw [infix_append_of_bare name.notMem_text, infix_append_of_bare (by decide)]
    rfl

/-! ### Jumps -/

theorem Mnemonic.prefix_text_iff (n : Mnemonic) (r : List Char) :
    ("jp ".toList <+: n.text.toList ++ ' ' :: r ↔ n = .jp) ∧
      ("jr ".toList <+: n.text.toList ++ ' ' :: r ↔ n = .jr) := by
  cases n <;> simp [text]

/-- The mnemonic of a jump is told by the first three characters, if operands follow it. -/
theorem Operation.prefix_text_iff {o : Operation} (ne : o.operands ≠ []) :
    ("jp ".toList <+: o.text.toList ↔ o.mnemonic = .jp) ∧
      ("jr ".toList <+: o.text.toList ↔ o.mnemonic = .jr) := by
  obtain ⟨name, operands⟩ := o
  cases operands with
  | nil => exact absurd rfl ne
  | cons first rest =>
    have written : (text ⟨name, first :: rest⟩).toList = name.text.toList ++
        ' ' :: (String.intercalate "," ((first :: rest).map Operand.text)).toList := by
      simp [text]
    rw [written]
    exact name.prefix_text_iff _

theorem Operation.jumpTarget?_eq_some_iff {o : Operation} {x : Nat} :
    o.jumpTarget? = some x ↔ (o.mnemonic = .jp ∨ o.mnemonic = .jr) ∧ o.target? = some x := by
  unfold jumpTarget?
  split <;> simp_all

/-- A jump is told by the first three characters of its written form. -/
theorem Operation.jumpTarget?_eq_some_iff_prefix_text {o : Operation} {x : Nat} :
    o.jumpTarget? = some x ↔
      ("jp ".toList <+: o.text.toList ∨ "jr ".toList <+: o.text.toList) ∧ o.target? = some x := by
  rw [jumpTarget?_eq_some_iff]
  by_cases empty : o.operands = []
  · -- Without operands there is no destination, whatever the mnemonic.
    have none : o.target? = none := by rw [target?, empty]; rfl
    simp [none]
  · rw [(prefix_text_iff empty).1, (prefix_text_iff empty).2]

end Z80

end MemoryAtlas
