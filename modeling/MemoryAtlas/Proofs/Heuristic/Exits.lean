import MemoryAtlas.Proofs.Heuristic.Segments
import MemoryAtlas.Proofs.Heuristic.ZeroPrecedence
import MemoryAtlas.Proofs.Z80.Encoding

/-!
# Ranges of zeros and exits

The simplest code to find is a return, or a jump through a register, among zeros. Such a range is
told byte by byte: each exit is a block of code, and each run of zeros a block of zeros, whether the
sweep takes the zeros for data in disguise or for the start of the code that follows them. So a
block of the map, taken as a range, makes a map of one block, the same.

## Main definitions

* `Z80.IsExit`: the opcodes of one byte after which control does not go on to the next.
* `Z80.Instruction.Lone`: a zero or an exit.
* `Heuristic.Strip`, `Heuristic.Progress.Striped`: what a sweep makes of zeros and exits.
* `Heuristic.Told`: a block of zeros or an exit.

## Main results

* `Heuristic.Progress.Striped.afterSegment`, `Heuristic.Progress.Striped.foldl_afterSegment`: one
  segment and all of them.
* `Heuristic.strip_swept`, `Heuristic.told_zeroed`, `Heuristic.told_classify`: the blocks after the
  sweep, after zeros are told, and in the end.
* `Heuristic.classify_zeros_and_exits`: the map of a range of zeros and exits, and of each of its
  blocks.
-/

namespace MemoryAtlas

namespace Z80

variable {t : RepeatCeilings} {m : Image} {a c d limit : Nat} {i : Instruction}
  {l : List Instruction}

/-- A return, or a jump to the address in `hl`. -/
def IsExit (op : UInt8) : Prop := op = 0xC9 ∨ op = 0xE9

instance (op : UInt8) : Decidable (IsExit op) := inferInstanceAs (Decidable (_ ∨ _))

theorem IsExit.ne_zero {op : UInt8} (h : IsExit op) : op ≠ 0 := by
  rcases h with rfl | rfl <;> decide

/-- The instruction is a zero or an exit. -/
structure Instruction.Lone (m : Image) (i : Instruction) : Prop where
  /-- It is one byte. -/
  stop : i.stop = i.address + 1
  /-- Control goes on from zeros, and from them only. -/
  zero : i.isTerminal = false ↔ m.read i.address = 0
  /-- Zeros are of one class. -/
  idle : i.isTerminal = false → i.classId = 0
  /-- Exits are of other classes, and a single one is not data in disguise. -/
  leaves : i.isTerminal = true → i.classId ≠ 0 ∧ i.ceiling ≠ 1

theorem lone_decode (ret : t.ceiling 0xC9 ≠ 1) (jump : t.ceiling 0xE9 ≠ 1)
    (byte : m.read a = 0 ∨ IsExit (m.read a)) (lt : a < limit) (le : limit ≤ addressSpace) :
    (decode t m a limit).Lone m := by
  obtain ⟨op, read, kind⟩ : ∃ op, m.read a = op ∧ (op = 0 ∨ op = 0xC9 ∨ op = 0xE9) :=
    ⟨_, rfl, byte⟩
  have single : Opcode.selectsPage op = false ∧ (Opcode.plain op).size = 1 := by
    rcases kind with rfl | rfl | rfl <;> decide
  have fetched : Opcode.fetch m a = .plain op := Opcode.fetch_eq_iff.2 ⟨read, single.1⟩
  have decoded : decode t m a limit = (Opcode.plain op).instruction t m a := by
    rw [decode_of_le, fetched]
    rw [fetched, single.2]
    omega
  have stop : ((Opcode.plain op).instruction t m a).stop = a + 1 := by
    rw [Opcode.stop_instruction, single.2]
    rw [single.2]
    omega
  rw [decoded]
  rcases kind with rfl | exit
  · exact ⟨stop, iff_of_true rfl read, fun _ => rfl, fun terminal => by cases terminal⟩
  · have terminal : ((Opcode.plain op).instruction t m a).isTerminal = true := by
      rcases exit with rfl | rfl <;> rfl
    have ne : m.read a ≠ 0 := read ▸ IsExit.ne_zero exit
    refine ⟨stop, iff_of_false (by simp [terminal]) ne, fun goesOn => ?_, fun _ => ?_⟩
    · rw [terminal] at goesOn
      cases goesOn
    · rcases exit with rfl | rfl
      · exact ⟨(by decide : (0xC9 : Nat) ≠ 0), ret⟩
      · exact ⟨(by decide : (0xE9 : Nat) ≠ 0), jump⟩

/-- From the start to the end of instructions that go on there are zeros. -/
theorem Tiles.read_eq_zero (tiles : Tiles c l d) (lone : ∀ i ∈ l, i.Lone m)
    (goesOn : ∀ i ∈ l, i.isTerminal = false) (above : c ≤ a) (below : a < d) : m.read a = 0 := by
  obtain ⟨i, mem, lower, upper⟩ := (Heuristic.covers_iff_of_tiles tiles).2 ⟨above, below⟩
  rw [(lone i mem).stop] at upper
  rw [show a = i.address by omega]
  exact (lone i mem).zero.1 (goesOn i mem)

end Z80

namespace Heuristic

open Z80 TagMap

variable {s : Settings} {t : RepeatCeilings} {m : Image} {start stop a c d x : Nat} {b : Block}
  {p : Progress} {u : Tag} {init l : List Instruction} {last : Instruction}
  {lists : List (List Instruction)}

/-! ### Streaks -/

/-- Zeros are one streak, and an exit after them is another. -/
theorem streaks_concat (lone : ∀ i ∈ init ++ [last], i.Lone m)
    (goesOn : ∀ i ∈ init, i.isTerminal = false) (terminal : last.isTerminal = true) :
    streaks (init ++ [last]) = streaks init ++ [[last]] := by
  refine List.splitBy_append_cons [] fun i mem => ?_
  have inside := List.mem_of_getLast? mem
  rw [(lone i (List.mem_append_left _ inside)).idle (goesOn i inside)]
  simpa using ((lone last (by simp)).leaves terminal).1.symm

theorem streaks_eq_singleton (lone : ∀ i ∈ l, i.Lone m) (goesOn : ∀ i ∈ l, i.isTerminal = false)
    (ne : l ≠ []) : streaks l = [l] := by
  refine List.splitBy_of_isChain ne ?_
  refine List.Pairwise.isChain (List.pairwise_of_forall_mem_list fun i hi j hj => ?_)
  rw [(lone i hi).idle (goesOn i hi), (lone j hj).idle (goesOn j hj)]
  rfl

theorem isDisguised_singleton (ceiling : last.ceiling ≠ 1) : isDisguised [last] = false := by
  rw [Bool.eq_false_iff]
  intro disguised
  rw [isDisguised, streakOf, Streak.isDisguised] at disguised
  simp only [Bool.and_eq_true, decide_eq_true_eq, List.length_singleton] at disguised
  omega

/-! ### The sweep -/

/-- What a sweep makes of zeros and exits: code is an exit, perhaps with the zeros before it, and
bytes are all zeros up to an exit or the end of the range. -/
def Strip (m : Image) (stop : Nat) (b : Block) : Prop :=
  b.tag = .code ∧ (∃ e, b.stop = e + 1 ∧ b.start ≤ e ∧
      (∀ a, b.start ≤ a → a < e → m.read a = 0) ∧ m.read e ≠ 0) ∨
    b.tag = .bytes ∧ (∀ a, b.start ≤ a → a < b.stop → m.read a = 0) ∧
      (b.stop = stop ∨ m.read b.stop ≠ 0)

namespace Progress

/-- Each block of a sweep, and what lies between the last boundary and what is pending, is a
strip. -/
structure Striped (m : Image) (stop : Nat) (p : Progress) : Prop where
  current : ∀ e ∈ p.boundaries.head?, Strip m stop ⟨e.1, p.pending, e.2⟩
  earlier : p.boundaries.IsChain fun e e' => Strip m stop ⟨e'.1, e.1, e'.2⟩

namespace Striped

/-- What is pending becomes a strip, and the sweep goes on after it. -/
theorem enter (h : p.Striped m stop) (strip : Strip m stop ⟨p.pending, d, u⟩)
    (events : List Event) : Striped m stop ⟨(p.pending, u) :: p.boundaries, d, events⟩ where
  current e mem := by
    obtain rfl := Option.some.inj mem
    exact strip
  earlier := List.isChain_cons.2 ⟨h.current, h.earlier⟩

/-- An exit, with the zeros that are pending before it. -/
theorem close (h : p.Striped m stop) (le : p.pending ≤ x)
    (zeros : ∀ a, p.pending ≤ a → a < x → m.read a = 0) (exit : m.read x ≠ 0) :
    (p.close (x + 1)).Striped m stop ∧
      (∀ e ∈ (p.close (x + 1)).boundaries.head?, e.2 = .code) ∧
        (p.close (x + 1)).pending = x + 1 := by
  have strip : Strip m stop ⟨p.pending, x + 1, .code⟩ :=
    .inl ⟨rfl, x, rfl, le, zeros, exit⟩
  rw [Progress.close, if_pos (Nat.lt_succ_of_le le)]
  refine ⟨h.enter strip p.events, fun e mem => ?_, rfl⟩
  obtain rfl := Option.some.inj mem
  rfl

/-- Zeros after code stay pending, or are bytes if they are data in disguise. -/
theorem foldl_streaks_of_zeros (code : ∀ e ∈ p.boundaries.head?, e.2 = .code)
    (tiles : Tiles p.pending init x) (lone : ∀ i ∈ init, i.Lone m)
    (goesOn : ∀ i ∈ init, i.isTerminal = false) :
    (streaks init).foldl Progress.afterStreak p = p ∨ ∃ events,
      (streaks init).foldl Progress.afterStreak p =
        ⟨(p.pending, .bytes) :: p.boundaries, x, events⟩ := by
  by_cases ne : init = []
  · rw [ne]
    exact .inl rfl
  · rw [streaks_eq_singleton lone goesOn ne, List.foldl_cons, List.foldl_nil]
    rcases afterStreak_cases p tiles ne with ⟨-, eq⟩ | ⟨-, events, ⟨y, rest, head, -⟩ | eq⟩
    · exact .inl eq
    · have tag := code (y, .bytes) (by rw [head]; rfl)
      cases tag
    · exact .inr ⟨events, eq⟩

theorem afterSegment_concat (tiles : Tiles c (init ++ [last]) d)
    (lone : ∀ i ∈ init ++ [last], i.Lone m) (goesOn : ∀ i ∈ init, i.isTerminal = false)
    (terminal : last.isTerminal = true) :
    p.afterSegment (init ++ [last]) = ((streaks init).foldl Progress.afterStreak p).close d := by
  obtain ⟨x, -, final⟩ := Tiles.append_iff.1 tiles
  have plain := isDisguised_singleton ((lone last (by simp)).leaves terminal).2
  have found : (init ++ [last]).getLast? = some last := List.getLast?_concat
  simp only [Progress.afterSegment, found, terminal, if_true, tiles.stop_getLast? found]
  rw [streaks_concat lone goesOn terminal, List.foldl_append, List.foldl_cons, List.foldl_nil]
  -- The exit itself is no data in disguise.
  rcases afterStreak_cases ((streaks init).foldl Progress.afterStreak p) final
    (List.cons_ne_nil last []) with ⟨-, eq⟩ | ⟨disguised, -⟩
  · rw [eq]
  · rw [plain] at disguised
    cases disguised

/-- Zeros that no exit follows are not judged. -/
theorem afterSegment_of_zeros (lone : ∀ i ∈ l, i.Lone m)
    (goesOn : ∀ i ∈ l, i.isTerminal = false) : p.afterSegment l = p := by
  unfold Progress.afterSegment
  split
  · rfl
  · next last found =>
    rw [goesOn last (List.mem_of_getLast? found), if_neg Bool.false_ne_true,
      streaks_eq_singleton lone goesOn (by rintro rfl; cases found)]
    rfl

/-- A segment that ends with an exit. The zeros before it are a strip if they are data in disguise,
and else they belong to the exit. -/
theorem afterSegment (h : p.Striped m stop) (code : ∀ e ∈ p.boundaries.head?, e.2 = .code)
    (tiles : Tiles p.pending (init ++ [last]) d) (lone : ∀ i ∈ init ++ [last], i.Lone m)
    (goesOn : ∀ i ∈ init, i.isTerminal = false) (terminal : last.isTerminal = true) :
    (p.afterSegment (init ++ [last])).Striped m stop ∧
      (∀ e ∈ (p.afterSegment (init ++ [last])).boundaries.head?, e.2 = .code) ∧
        (p.afterSegment (init ++ [last])).pending = d := by
  rw [afterSegment_concat tiles lone goesOn terminal]
  obtain ⟨x, before, address, -, ends⟩ := Tiles.append_iff.1 tiles
  have final := lone last (by simp)
  have exit : m.read x ≠ 0 := fun zero => by
    rw [← address, ← final.zero, terminal] at zero
    cases zero
  obtain rfl : x + 1 = d := by
    rw [← address, ← final.stop]
    exact ends
  have lone' : ∀ i ∈ init, i.Lone m := fun i mem => lone i (List.mem_append_left _ mem)
  have zeros : ∀ a, p.pending ≤ a → a < x → m.read a = 0 := fun a =>
    before.read_eq_zero lone' goesOn
  rcases foldl_streaks_of_zeros code before lone' goesOn with eq | ⟨events, eq⟩
  · rw [eq]
    exact h.close before.le zeros exit
  · have strip : Strip m stop ⟨p.pending, x, .bytes⟩ := .inr ⟨rfl, zeros, .inr exit⟩
    rw [eq]
    exact (h.enter strip events).close (Nat.le_refl x)
      (fun a above below => absurd below (Nat.not_lt_of_le above)) exit

/-- The blocks of a sweep that has nothing pending at the end of the range. -/
theorem isChain (h : p.Striped m stop) (done : p.pending = stop) :
    ((stop, .limit) :: p.boundaries).IsChain fun e e' => Strip m stop ⟨e'.1, e.1, e'.2⟩ :=
  List.isChain_cons.2 ⟨fun e mem => done ▸ h.current e mem, h.earlier⟩

/-- All segments, each of which but the last ends with an exit. -/
theorem foldl_afterSegment (h : p.Striped m stop) (code : ∀ e ∈ p.boundaries.head?, e.2 = .code)
    (tiles : Tiles p.pending lists.flatten stop) (nonempty : [] ∉ lists)
    (lone : ∀ i ∈ lists.flatten, i.Lone m)
    (goesOn : ∀ l ∈ lists, ∀ i ∈ l.dropLast, i.isTerminal = false)
    (closed : lists.IsChain fun x _ => ∃ last, x.getLast? = some last ∧ last.isTerminal = true) :
    ((stop, .limit) :: ((lists.foldl Progress.afterSegment p).finish stop).boundaries).IsChain
      fun e e' => Strip m stop ⟨e'.1, e.1, e'.2⟩ := by
  induction lists generalizing p with
  | nil =>
    have done : p.pending = stop := tiles
    rw [List.foldl_nil, finish, if_neg (by omega)]
    exact h.isChain done
  | cons l lists ih =>
    obtain ⟨d, first, rest⟩ := Tiles.append_iff.1 tiles
    rw [List.mem_cons, not_or] at nonempty
    obtain ⟨init, last, rfl⟩ : ∃ init last, l = init ++ [last] :=
      ⟨_, _, (List.dropLast_append_getLast (Ne.symm nonempty.1)).symm⟩
    have zeros := goesOn (init ++ [last]) List.mem_cons_self
    rw [List.dropLast_concat] at zeros
    have lone' : ∀ i ∈ init ++ [last], i.Lone m := fun i mem => lone i (List.mem_append_left _ mem)
    rw [List.foldl_cons]
    cases terminal : last.isTerminal with
    | true =>
      obtain ⟨h', code', pending⟩ := h.afterSegment code first lone' zeros terminal
      exact ih h' code' (pending ▸ rest) nonempty.2
        (fun i mem => lone i (List.mem_append_right _ mem))
        (fun l' mem => goesOn l' (List.mem_cons_of_mem _ mem)) (List.isChain_of_isChain_cons closed)
    | false =>
      -- Without an exit the segment is the last one, and its zeros are still pending at the end.
      obtain rfl := eq_nil_of_open closed List.getLast?_concat terminal
      have done : d = stop := rest
      have lt := first.lt (by simp)
      have all : ∀ i ∈ init ++ [last], i.isTerminal = false := by
        intro i mem
        rcases List.mem_append.1 mem with mem | mem
        · exact zeros i mem
        · rw [List.mem_singleton.1 mem, terminal]
      have strip : Strip m stop ⟨p.pending, stop, .bytes⟩ :=
        .inr ⟨rfl, fun a above below => first.read_eq_zero lone' all above (done ▸ below), .inl rfl⟩
      rw [List.foldl_nil, afterSegment_of_zeros lone' all, finish, if_pos (by omega)]
      exact (h.enter strip p.events).isChain rfl

end Striped

end Progress

/-- Each block of the sweep is a strip. -/
theorem strip_swept (ret : t.ceiling 0xC9 ≠ 1) (jump : t.ceiling 0xE9 ≠ 1) (lt : start < stop)
    (top : stop ≤ addressSpace)
    (bytes : ∀ a, start ≤ a → a < stop → m.read a = 0 ∨ IsExit (m.read a))
    (hb : b ∈ (swept t m start stop).blocks) : Strip m stop b := by
  have cut := cutInto_segments (instructions t m start stop)
  have tiles := tiles_segments t m (Nat.le_of_lt lt)
  have lone : ∀ i ∈ (segments (instructions t m start stop)).flatten, i.Lone m := by
    intro i mem
    have bounds := tiles.bounds mem
    rw [← cut.whole] at mem
    rw [eq_decode_of_mem_instructions t m mem]
    exact lone_decode ret jump (bytes _ bounds.1 (by omega)) (by omega) top
  have initial : Progress.Striped m stop ⟨[], start, []⟩ := ⟨by simp, List.isChain_nil⟩
  have chain := initial.foldl_afterSegment (by simp) tiles cut.nonempty lone
    (fun l mem i => cut.goesOn mem) cut.closed
  rw [← sweepProgress] at chain
  obtain ⟨_, strip⟩ := rel_of_mem_blocks_swept lt chain hb
  exact strip

/-! ### Zeros -/

/-- A block of zeros that cannot be made longer, or an exit. -/
def Told (m : Image) (stop : Nat) (b : Block) : Prop :=
  b.tag = .zero ∧ (∀ a, b.start ≤ a → a < b.stop → m.read a = 0) ∧
      (b.stop = stop ∨ m.read b.stop ≠ 0) ∨
    b.tag = .code ∧ b.stop = b.start + 1 ∧ m.read b.start ≠ 0

/-- The leading zeros of a block end at its first other byte. -/
theorem start_add_leadingZeros (le : b.start ≤ x) (lt : x < b.stop)
    (zeros : ∀ a, b.start ≤ a → a < x → m.read a = 0) (ne : m.read x ≠ 0) :
    b.start + leadingZeros m b = x := by
  have top : x < addressSpace := by
    by_contra above
    exact ne (m.read_eq_zero_of_le (Nat.le_of_not_lt above))
  have all : ∀ v ∈ m.slice b.start x, (v == 0) = true := by
    rw [← List.all_eq_true]
    exact Image.isZeroFill_iff.2 zeros
  rw [leadingZeros, ← m.slice_append le (Nat.le_of_lt lt), m.slice_eq_cons lt top,
    List.takeWhile_append_of_pos all, List.takeWhile_cons_of_neg (by simpa using ne),
    List.append_nil, Image.length_slice]
  omega

/-- Strips without the zeros before exits are zeros and exits, but for zeros that are still
bytes. -/
theorem told_trimmed (strips : ∀ b ∈ (swept t m start stop).blocks, Strip m stop b)
    (hb : b ∈ (trimmed t m start stop).blocks) :
    Told m stop b ∨ b.tag = .bytes ∧ (∀ a, b.start ≤ a → a < b.stop → m.read a = 0) ∧
      (b.stop = stop ∨ m.read b.stop ≠ 0) := by
  obtain ⟨c, hc, above, below, hb'⟩ := refines_trimmed.mem_blocks_iff.1 hb
  have lt := start_lt_stop_of_mem_blocks hb
  rcases strips c hc with ⟨code, x, ends, le, zeros, exit⟩ | strip
  · rw [if_pos code] at hb'
    have cut := start_add_leadingZeros le (by omega) zeros exit
    refine .inl ?_
    rcases eq_of_mem_blocks_splitBlock hc hb' above below with ⟨none, rfl⟩ | ⟨-, rfl | rfl⟩
    · rw [none, Nat.add_zero] at cut
      exact .inr ⟨code, by omega, cut ▸ exit⟩
    · rw [cut]
      exact .inl ⟨rfl, zeros, .inr exit⟩
    · rw [cut]
      exact .inr ⟨rfl, ends, exit⟩
  · rw [if_neg (by rw [strip.1]; decide)] at hb'
    obtain rfl := eq_of_mem_of_mem (a := b.start) hb' hc (Nat.le_refl _) lt above (by omega)
    exact .inr strip

/-- When zeros are told from bytes, each block is zeros or an exit. -/
theorem told_zeroed (strips : ∀ b ∈ (swept t m start stop).blocks, Strip m stop b)
    (hb : b ∈ (zeroed t m start stop).blocks) : Told m stop b := by
  obtain ⟨c, hc, starts, stops, fill⟩ := mem_blocks_markZeroFill hb
  obtain ⟨lower, upper, tag⟩ := b
  dsimp only at starts stops fill
  subst starts stops
  rcases told_trimmed strips hc with told | ⟨bytes, zeros, ends⟩
  · rcases fill with ⟨-, bytes, -⟩ | ⟨same, -⟩
    · simp [Told, bytes] at told
    · rw [same]
      exact told
  · rcases fill with ⟨zero, -, -⟩ | ⟨-, plain⟩
    · exact .inl ⟨zero, zeros, ends⟩
    · have fill := Image.isZeroFill_iff.2 zeros
      rw [plain bytes] at fill
      cases fill

/-- Zeros do not meet, so there is nothing to join. -/
theorem joined_eq_zeroed (lt : start < stop)
    (told : ∀ b ∈ (zeroed t m start stop).blocks, Told m stop b) :
    joined t m start stop = zeroed t m start stop := by
  have wellFormed := wellFormed_zeroed (t := t) (m := m) lt
  rw [joined, mergeData_eq_nil, edit_nil]
  rintro x ⟨⟨b, hb, rfl, data⟩, u, key, data'⟩
  have below : b.stop < stop := wellFormed.lt_stop key (by rintro rfl; cases data')
  obtain ⟨c, hc, starts, rfl, -⟩ :=
    exists_block_of_get? key (Option.isSome_iff_exists.2 ⟨_, wellFormed.get?_stop⟩) below
  have ltC := start_lt_stop_of_mem_blocks hc
  rcases told b hb with ⟨-, -, ends⟩ | ⟨code, -⟩
  · rcases told c hc with ⟨-, zeros, -⟩ | ⟨code, -⟩
    · have zero := zeros c.start (Nat.le_refl _) ltC
      rw [starts] at zero
      rcases ends with ends | ne
      · omega
      · exact ne zero
    · rw [code] at data'
      cases data'
  · rw [code] at data
    cases data

/-! ### Text -/

theorem isTextByte_eq_false (nul : Char.ofNat 0 ∉ s.textChars.toList) {v : UInt8}
    (kind : v = 0 ∨ IsExit v) : s.isTextByte v = false := by
  rcases kind with rfl | rfl | rfl
  · simpa [Settings.isTextByte] using nul
  · rfl
  · rfl

/-! ### The map -/

/-- In the end each block is zeros or an exit. -/
theorem told_classify (nul : Char.ofNat 0 ∉ s.textChars.toList) (ret : t.ceiling 0xC9 ≠ 1)
    (jump : t.ceiling 0xE9 ≠ 1) (lt : start < stop) (top : stop ≤ addressSpace)
    (bytes : ∀ a, start ≤ a → a < stop → m.read a = 0 ∨ IsExit (m.read a))
    (hb : b ∈ (classify s t m start stop).value.blocks) : Told m stop b := by
  have told : ∀ c ∈ (zeroed t m start stop).blocks, Told m stop c := fun c =>
    told_zeroed fun d => strip_swept ret jump lt top bytes
  have same := joined_eq_zeroed lt told
  obtain ⟨c, hc, -, -, hb⟩ := (refines_classify s t m start stop).mem_blocks_iff.1 hb
  have bounds := (wellFormed_joined lt).of_mem_blocks hc
  rw [marksOf_eq_nil fun a above below =>
    isTextByte_eq_false nul (bytes a (by omega) (by omega)), edit_nil, same] at hb
  exact told b hb

/-- The boundaries of a map of zeros and exits. -/
theorem get?_iff_of_told {tags : TagMap} (wellFormed : tags.WellFormed start stop)
    (told : ∀ b ∈ tags.blocks, Told m stop b) :
    tags.get? x = some u ↔
      u = .zero ∧ start ≤ x ∧ x < stop ∧ m.read x = 0 ∧ (x = start ∨ m.read (x - 1) ≠ 0) ∨
      u = .code ∧ start ≤ x ∧ x < stop ∧ m.read x ≠ 0 ∨
      u = .limit ∧ x = stop := by
  constructor
  · intro key
    by_cases limit : u = .limit
    · subst limit
      exact .inr (.inr ⟨rfl, wellFormed.eq_stop key⟩)
    have above := (wellFormed.bounds key).1
    have below := wellFormed.lt_stop key limit
    obtain ⟨b, hb, rfl, rfl, -⟩ :=
      exists_block_of_get? key (Option.isSome_iff_exists.2 ⟨_, wellFormed.get?_stop⟩) below
    have lt := start_lt_stop_of_mem_blocks hb
    rcases told b hb with ⟨tag, zeros, -⟩ | ⟨tag, -, ne⟩
    · have zero := zeros b.start (Nat.le_refl _) lt
      refine .inl ⟨tag, above, below, zero, ?_⟩
      rcases Nat.eq_or_lt_of_le above with first | later
      · exact .inl first.symm
      · -- The block before is an exit, as zeros would not end here.
        obtain ⟨v, key'⟩ := wellFormed.get?_start
        obtain ⟨c, hc, ends, -⟩ := exists_block_of_get?_stop key (by simp [key']) later
        rcases told c hc with ⟨-, -, last | ne⟩ | ⟨-, single, ne⟩
        · omega
        · exact absurd (ends ▸ zero) ne
        · rw [show b.start - 1 = c.start by omega]
          exact .inr ne
    · exact .inr (.inl ⟨tag, above, below, ne⟩)
  · rintro (⟨rfl, above, below, zero, first⟩ | ⟨rfl, above, below, ne⟩ | ⟨rfl, rfl⟩)
    · obtain ⟨b, hb, lower, upper⟩ := wellFormed.exists_mem_blocks above below
      rcases told b hb with ⟨tag, zeros, -⟩ | ⟨-, single, ne⟩
      · have starts : b.start = x := by
          by_contra other
          rcases first with rfl | ne
          · have := (wellFormed.of_mem_blocks hb).1
            omega
          · exact ne (zeros (x - 1) (by omega) (by omega))
        rw [← starts, ← tag]
        exact get?_start_of_mem_blocks hb
      · rw [show b.start = x by omega] at ne
        exact absurd zero ne
    · obtain ⟨b, hb, lower, upper⟩ := wellFormed.exists_mem_blocks above below
      rcases told b hb with ⟨-, zeros, -⟩ | ⟨tag, single, -⟩
      · exact absurd (zeros x lower upper) ne
      · rw [show x = b.start by omega, ← tag]
        exact get?_start_of_mem_blocks hb
    · exact wellFormed.get?_stop

/-- A map of zeros and exits of a range that is zeros or an exit has one block. -/
theorem entries_eq_of_told {tags : TagMap} (wellFormed : tags.WellFormed b.start b.stop)
    (told : ∀ c ∈ tags.blocks, Told m b.stop c) (lt : b.start < b.stop) (whole : Told m stop b) :
    tags.entries = [(b.start, b.tag), (b.stop, .limit)] := by
  have boundary := fun x u => get?_iff_of_told (x := x) (u := u) wellFormed told
  rcases whole with ⟨tag, zeros, -⟩ | ⟨tag, single, ne⟩
  · have zero := zeros b.start (Nat.le_refl _) lt
    refine wellFormed.entries_eq_pair lt ?_ fun a above below => ?_
    · exact (boundary _ _).2 (.inl ⟨tag, Nat.le_refl _, lt, zero, .inl rfl⟩)
    · rw [Option.eq_none_iff_forall_ne_some]
      intro u key
      rcases (boundary a u).1 key with ⟨-, -, -, -, first | ne⟩ | ⟨-, -, -, ne⟩ | ⟨-, last⟩
      · omega
      · exact ne (zeros (a - 1) (by omega) (by omega))
      · exact ne (zeros a (by omega) below)
      · omega
  · refine wellFormed.entries_eq_pair lt ?_ fun a above below => by omega
    exact (boundary _ _).2 (.inr (.inl ⟨tag, Nat.le_refl _, lt, ne⟩))

/-- A range of zeros and exits, by a table of ceilings that allows for one exit of each kind, is
told byte by byte: zeros start where there is none before, and every exit is code of its own. Each
block of the map makes a map of one block, the same. -/
theorem classify_zeros_and_exits (nul : Char.ofNat 0 ∉ s.textChars.toList)
    (ret : t.ceiling 0xC9 ≠ 1) (jump : t.ceiling 0xE9 ≠ 1) (lt : start < stop)
    (top : stop ≤ addressSpace)
    (bytes : ∀ a, start ≤ a → a < stop → m.read a = 0 ∨ IsExit (m.read a)) :
    (∀ x u, (classify s t m start stop).value.get? x = some u ↔
      u = .zero ∧ start ≤ x ∧ x < stop ∧ m.read x = 0 ∧ (x = start ∨ m.read (x - 1) ≠ 0) ∨
      u = .code ∧ start ≤ x ∧ x < stop ∧ IsExit (m.read x) ∨
      u = .limit ∧ x = stop) ∧
    ∀ b ∈ (classify s t m start stop).value.blocks,
      (classify s t m b.start b.stop).value.entries = [(b.start, b.tag), (b.stop, .limit)] := by
  have wellFormed := wellFormed_classify (s := s) (t := t) (m := m) lt
  have told : ∀ b ∈ (classify s t m start stop).value.blocks, Told m stop b := fun b =>
    told_classify nul ret jump lt top bytes
  refine ⟨fun x u => ?_, fun b hb => ?_⟩
  · rw [get?_iff_of_told wellFormed told]
    refine or_congr_right (or_congr_left (and_congr_right fun _ => ?_))
    refine and_congr_right fun above => and_congr_right fun below => ?_
    exact ⟨fun ne => (bytes x above below).resolve_left ne, IsExit.ne_zero⟩
  · obtain ⟨lower, inside, upper, -⟩ := wellFormed.of_mem_blocks hb
    refine entries_eq_of_told (wellFormed_classify inside) (fun c => ?_) inside (told b hb)
    exact told_classify nul ret jump inside (Nat.le_trans upper top)
      fun a above below => bytes a (by omega) (by omega)

/-- Returns and a jump among zeros. -/
def zerosAndExits : Image := ⟨0, #[0x00, 0x00, 0xC9, 0xE9, 0x00, 0xC9, 0x00, 0x00], by decide⟩

/-- Two zeros are data in disguise by this table and one is not, but both are told. -/
theorem classify_zeros_and_exits_told :
    (∀ a, 0 ≤ a → a < 8 → zerosAndExits.read a = 0 ∨ IsExit (zerosAndExits.read a)) ∧
      (classify .usual (.set .usual 0 2) zerosAndExits 0 8).value.get? 0 = some .zero ∧
      (classify .usual (.set .usual 0 2) zerosAndExits 0 8).value.get? 3 = some .code ∧
      (classify .usual (.set .usual 0 2) zerosAndExits 0 8).value.get? 4 = some .zero ∧
      (classify .usual (.set .usual 0 2) zerosAndExits 6 8).value.entries =
        [(6, .zero), (8, .limit)] := by
  have bytes : ∀ a, 0 ≤ a → a < 8 →
      zerosAndExits.read a = 0 ∨ IsExit (zerosAndExits.read a) := by decide
  obtain ⟨boundary, again⟩ := classify_zeros_and_exits (s := .usual) (t := .set .usual 0 2)
    (by decide) (by decide) (by decide) (by decide : 0 < 8) (by decide) bytes
  refine ⟨bytes, (boundary 0 _).2 (by decide), (boundary 3 _).2 (by decide),
    (boundary 4 _).2 (by decide), again ⟨6, 8, .zero⟩ (by decide +kernel)⟩

end Heuristic

end MemoryAtlas
