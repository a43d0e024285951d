import MemoryAtlas.Proofs.Trace.Verdict

/-!
# The formats of traces agree

A set of addresses can be written as a bitmap, as an occupancy table, or as a log in any of the
shapes of lines. Whatever it is written as, reading it yields the addresses of the set in the wanted
range.

## Main definitions

* `Trace.bitmapOf`, `Trace.IsOccupancyOf`, `Trace.IsLogOf`: the ways to write a set.

## Main results

* `Trace.readBitmap_bitmapOf`, `Trace.readOccupancy_eq`, `Trace.readLog_eq`: each of them is read.
* `Trace.readers_agree`: all of them yield the same.
-/

namespace MemoryAtlas.Trace

open Text

variable {S : Finset Nat} {range : Span} {a : Nat} {l : List Nat}

/-! ### Tables -/

/-- The bitmap of a set: the bit of an address is the remainder by eight of the byte at the
quotient. -/
def bitmapOf (S : Finset Nat) : Array UInt8 :=
  .ofFn fun i : Fin 8192 => .ofNat (.ofBits fun j : Fin 8 => decide (8 * i.val + j.val ∈ S))

/-- An occupancy table of a set: the bytes at its addresses are odd, and the others even. -/
structure IsOccupancyOf (S : Finset Nat) (data : Array UInt8) : Prop where
  /-- A byte for each address. -/
  size : data.size = addressSpace
  /-- The lowest bit tells. -/
  odd : ∀ a < addressSpace, (data.getD a 0).toNat % 2 = 1 ↔ a ∈ S

theorem mem_addressesWhere {p : Nat → Bool} {bound : Nat} :
    a ∈ addressesWhere p bound range ↔
      p a = true ∧ a < bound ∧ range.start ≤ a ∧ a < range.stop := by
  have bounds : range.start ≤ a ∧ a < range.start + (min range.stop bound - range.start) ↔
      a < bound ∧ range.start ≤ a ∧ a < range.stop := by omega
  rw [addressesWhere, List.mem_filter, List.mem_range'_1, bounds, and_comm]

/-- The bitmap of a set has the bits of its addresses. -/
theorem inBitmap_bitmapOf (lt : a < addressSpace) : inBitmap (bitmapOf S) a = true ↔ a ∈ S := by
  have index : a / 8 < 8192 := by
    rw [addressSpace] at lt
    omega
  have byte : ((bitmapOf S).getD (a / 8) 0).toNat =
      .ofBits fun j : Fin 8 => decide (8 * (a / 8) + j.val ∈ S) := by
    have small := Nat.ofBits_lt_two_pow fun j : Fin 8 => decide (8 * (a / 8) + j.val ∈ S)
    rw [bitmapOf, Array.getD_eq_getD_getElem?, Array.getElem?_eq_getElem (by simpa using index),
      Array.getElem_ofFn, Option.getD_some, UInt8.toNat_ofNat']
    exact Nat.mod_eq_of_lt small
  rw [inBitmap, byte, Nat.testBit_ofBits_lt _ _ (Nat.mod_lt a (by decide)), decide_eq_true_iff,
    Nat.div_add_mod]

theorem readBitmap_bitmapOf (below : ∀ a ∈ S, a < addressSpace) (range : Span) :
    readBitmap (bitmapOf S) range = membersIn S range := by
  refine eq_membersIn (addressesOf_addressesWhere _ _ _).1 fun a => ?_
  have size : 8 * (bitmapOf S).size = addressSpace := by rw [bitmapOf, Array.size_ofFn]; rfl
  rw [readBitmap, mem_addressesWhere, size, ← and_assoc]
  refine and_congr_left fun _ => ?_
  constructor
  · rintro ⟨bit, lt⟩
    exact (inBitmap_bitmapOf lt).1 bit
  · intro mem
    exact ⟨(inBitmap_bitmapOf (below a mem)).2 mem, below a mem⟩

theorem readOccupancy_eq (below : ∀ a ∈ S, a < addressSpace) {data : Array UInt8}
    (table : IsOccupancyOf S data) (range : Span) :
    readOccupancy data range = membersIn S range := by
  refine eq_membersIn (addressesOf_addressesWhere _ _ _).1 fun a => ?_
  rw [readOccupancy, mem_addressesWhere, table.size, ← and_assoc]
  refine and_congr_left fun _ => ?_
  have bit : inOccupancy data a = true ↔ (data.getD a 0).toNat % 2 = 1 := by
    rw [inOccupancy, Nat.testBit_zero, decide_eq_true_iff]
  constructor
  · rintro ⟨odd, lt⟩
    exact (table.odd a lt).1 (bit.1 odd)
  · intro mem
    exact ⟨bit.2 ((table.odd a (below a mem)).2 mem), below a mem⟩

/-! ### Logs -/

/-- A log of a set: each line is blank or has the shape of the format with an address of the set,
and each address has a line. -/
structure IsLogOf (S : Finset Nat) (f : Format) (lines : List (List Char)) : Prop where
  /-- The lines are lines. -/
  unbroken : ∀ line ∈ lines, '\n' ∉ line
  /-- A line that is not blank lists an address of the set. -/
  listed : ∀ line ∈ lines, (∀ c ∈ line, isBlank c = true) ∨ ∃ a ∈ S, f.Lists a line
  /-- Every address of the set is listed. -/
  complete : ∀ a ∈ S, ∃ line ∈ lines, f.Lists a line

variable {f : Format} {lines : List (List Char)}

/-- A line of a log that is not blank lists an address of the set. -/
theorem IsLogOf.exists_lists (log : IsLogOf S f lines) :
    ∀ l ∈ numbered lines, ∃ a ∈ S, f.Lists a l.1 := by
  rw [forall_mem_numbered_iff (p := fun line => ∃ a ∈ S, f.Lists a line)]
  intro line mem
  exact (log.listed line mem).imp_left trim_of_blank

/-- The addresses on the lines of a log are those of the set. -/
theorem IsLogOf.toFinset_addresses (log : IsLogOf S f lines) (below : ∀ a ∈ S, a < addressSpace) :
    ((numbered lines).filterMap fun l => f.readLine? l.1).toFinset = S := by
  ext a
  rw [List.mem_toFinset, List.mem_filterMap]
  constructor
  · rintro ⟨l, mem, read⟩
    obtain ⟨b, hb, lists⟩ := log.exists_lists l mem
    rw [lists.readLine?_eq (below b hb)] at read
    exact Option.some.inj read ▸ hb
  · intro ha
    obtain ⟨line, mem, lists⟩ := log.complete a ha
    obtain ⟨l, found, rfl⟩ := exists_mem_numbered mem lists.trim_ne_nil
    exact ⟨l, found, lists.readLine?_eq (below a ha)⟩

/-- A log is read, whichever of the shapes its lines have. -/
theorem readLog_eq (nonempty : S.Nonempty) (below : ∀ a ∈ S, a < addressSpace)
    (log : IsLogOf S f lines) (path : String) (size : Nat) (range : Span) :
    (readLog ⟨path, size, range⟩ none
        (symbolsOf (.ofList (List.intercalate ['\n'] lines)))).run.value =
      .ok (membersIn S range) := by
  obtain ⟨a, ha⟩ := nonempty
  obtain ⟨line, mem, lists⟩ := log.complete a ha
  have text : linesOf (.ofList (List.intercalate ['\n'] lines)) = numbered lines := by
    rw [linesOf, String.toList_ofList,
      List.splitOn_intercalate _ log.unbroken (List.ne_nil_of_mem mem)]
  -- The first line that is not blank tells the format, and all of them are read.
  have detected : (numbered lines).head?.bind (fun l => Format.detect? l.1) = some f := by
    obtain ⟨l, found, -⟩ := exists_mem_numbered mem lists.trim_ne_nil
    obtain ⟨first, rest, eq⟩ := List.exists_cons_of_ne_nil (List.ne_nil_of_mem found)
    obtain ⟨b, -, lists⟩ := log.exists_lists first (by rw [eq]; exact List.mem_cons_self)
    rw [eq]
    exact lists.detect?_eq
  have readable : ∀ l ∈ numbered lines, ∃ a, f.readLine? l.1 = some a := by
    intro l mem
    obtain ⟨b, hb, lists⟩ := log.exists_lists l mem
    exact ⟨b, lists.readLine?_eq (below b hb)⟩
  have settled : settledFormat? none (numbered lines) = some f := by
    rw [settledFormat?, Option.none_or, detected]
  rw [value_readLog, text, verdict_of_read settled readable, log.toFinset_addresses below]

/-- Whatever a set of addresses is written as, reading it yields the addresses of the set in the
wanted range: its bitmap, any occupancy table of it, and, if it is not empty, any log of it in any
of the shapes of lines, with no format given. -/
theorem readers_agree (S : Finset Nat) (below : ∀ a ∈ S, a < addressSpace) (range : Span) :
    readBitmap (bitmapOf S) range = membersIn S range ∧
    (∀ data, IsOccupancyOf S data → readOccupancy data range = membersIn S range) ∧
    (S.Nonempty → ∀ f lines, IsLogOf S f lines → ∀ path size,
      (readLog ⟨path, size, range⟩ none
          (symbolsOf (.ofList (List.intercalate ['\n'] lines)))).run.value =
        .ok (membersIn S range)) := by
  refine ⟨readBitmap_bitmapOf below range, ?_, ?_⟩
  · intro data table
    exact readOccupancy_eq below table range
  · intro nonempty f lines log path size
    exact readLog_eq nonempty below log path size range

/-- The addresses of a short run. -/
def executed : Finset Nat := {5, 0x8000, 0x8003}

/-- Its lines in decimal, in no order, with a blank one among them and a zero too many. -/
def executedLines : List (List Char) :=
  ["PC:32771".toList, " ".toList, "PC:032768 SP:65280\r".toList, "PC:5".toList, []]

theorem isLogOf_executedLines : IsLogOf executed .zero executedLines := by
  have first : Format.Lists .zero 0x8003 "PC:32771".toList :=
    ⟨_, rfl, "32771".toList, [], rfl, ⟨0, by decide +kernel⟩, by simp⟩
  have second : Format.Lists .zero 0x8000 "PC:032768 SP:65280\r".toList := by
    refine ⟨_, rfl, "032768".toList, " SP:65280\r".toList, rfl, ⟨1, by decide +kernel⟩, ?_⟩
    rintro c ⟨⟩
    decide
  have third : Format.Lists .zero 5 "PC:5".toList :=
    ⟨_, rfl, "5".toList, [], rfl, ⟨0, by decide +kernel⟩, by simp⟩
  have blank : ∀ c ∈ " ".toList, isBlank c = true := by
    intro c mem
    rw [List.mem_singleton.1 mem]
    decide
  refine ⟨by decide +kernel, ?_, ?_⟩
  · simp only [executedLines, List.forall_mem_cons]
    exact ⟨.inr ⟨_, by decide, first⟩, .inl blank, .inr ⟨_, by decide, second⟩,
      .inr ⟨_, by decide, third⟩, .inl (by simp), by simp⟩
  · simp only [executed, Finset.forall_mem_insert, Finset.mem_singleton, forall_eq]
    exact ⟨⟨_, by simp [executedLines], third⟩, ⟨_, by simp [executedLines], second⟩,
      ⟨_, by simp [executedLines], first⟩⟩

/-- The bitmap, an occupancy table and a log of the same addresses, of which two are wanted. -/
theorem readers_agree_executed :
    readBitmap (bitmapOf executed) ⟨0x8000, 0x9000⟩ = [0x8000, 0x8003] ∧
      readOccupancy (.ofFn fun i : Fin 65536 => if i.val ∈ executed then 0xFF else 2)
        ⟨0x8000, 0x9000⟩ = [0x8000, 0x8003] ∧
      (readLog ⟨"trace.log", 36, ⟨0x8000, 0x9000⟩⟩ none
        (symbolsOf "PC:32771\n \nPC:032768 SP:65280\r\nPC:5\n")).run.value =
          .ok [0x8000, 0x8003] := by
  have members : membersIn executed ⟨0x8000, 0x9000⟩ = [0x8000, 0x8003] := by
    refine (eq_membersIn (by decide) fun a => ?_).symm
    simp only [executed, List.mem_cons, List.not_mem_nil, or_false, Finset.mem_insert,
      Finset.mem_singleton]
    omega
  have table : IsOccupancyOf executed
      (.ofFn fun i : Fin 65536 => if i.val ∈ executed then 0xFF else 2) := by
    refine ⟨Array.size_ofFn, fun a lt => ?_⟩
    rw [Array.getD_eq_getD_getElem?, Array.getElem?_eq_getElem (by rw [Array.size_ofFn]; exact lt),
      Array.getElem_ofFn, Option.getD_some]
    split <;> simp_all
  have text : String.ofList (List.intercalate ['\n'] executedLines) =
      "PC:32771\n \nPC:032768 SP:65280\r\nPC:5\n" := by decide +kernel
  obtain ⟨bitmap, occupancy, log⟩ := readers_agree executed (by decide) ⟨0x8000, 0x9000⟩
  rw [← members, ← text]
  exact ⟨bitmap, occupancy _ table, log (by decide) .zero _ isLogOf_executedLines _ _⟩

end MemoryAtlas.Trace
