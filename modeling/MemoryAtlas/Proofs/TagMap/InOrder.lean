import MemoryAtlas.Proofs.TagMap.Lookup

/-!
# Blocks in order

The blocks of a map are listed in ascending order. What is gathered from the blocks of a range, one
after the other, so depends on their order too, and a boundary that is removed joins two blocks that
stand next to each other in the list.

## Main definitions

* `TagMap.parts`: the blocks that lie in a range, ascending.

## Main results

* `TagMap.pairwise_blocks`: each block ends before the later ones start.
* `TagMap.parts_eq_cons`: the parts of a range, one block at a time.
* `TagMap.mem_zip_of_shared`: blocks that share a boundary are neighbours in the list.
* `TagMap.blocks_erase`: the list after the boundary between two blocks is removed.
-/

namespace MemoryAtlas.TagMap

variable {m : TagMap} {b c : Block} {start stop : Nat} {l : List (Nat × Tag)}
  {pair : Block × Block}

theorem pairwise_zipWith_between (sorted : l.Pairwise fun x y => x.1 < y.1) :
    (List.zipWith between l l.tail).Pairwise fun b c => b.stop ≤ c.start := by
  induction l with
  | nil => exact .nil
  | cons first rest ih =>
    cases rest with
    | nil => exact .nil
    | cons second rest =>
      refine (ih sorted.of_cons).cons fun c hc => ?_
      -- A later block starts at the second boundary or after it.
      obtain ⟨before, after, upper, eq⟩ := mem_zipWith_between hc
      have mem : (c.start, c.tag) ∈ second :: rest := by simp [eq]
      rcases List.mem_cons.1 mem with same | later
      · exact Nat.le_of_eq (congrArg Prod.fst same).symm
      · exact Nat.le_of_lt ((List.pairwise_cons.1 sorted.of_cons).1 _ later)

/-- Each block ends before the later ones start. -/
theorem pairwise_blocks (m : TagMap) : m.blocks.Pairwise fun b c => b.stop ≤ c.start :=
  pairwise_zipWith_between m.ascending

/-- No block is listed twice. -/
theorem nodup_blocks (m : TagMap) : m.blocks.Nodup := by
  refine (pairwise_blocks m).imp_of_mem fun {b c} hb _ le => ?_
  have := start_lt_stop_of_mem_blocks hb
  rintro rfl
  omega

/-! ### The blocks of a range -/

/-- The blocks that lie in a range, ascending. -/
def parts (m : TagMap) (start stop : Nat) : List Block :=
  m.blocks.filter fun c => start ≤ c.start && c.stop ≤ stop

theorem mem_parts_iff :
    c ∈ m.parts start stop ↔ c ∈ m.blocks ∧ start ≤ c.start ∧ c.stop ≤ stop := by
  simp [parts]

/-- An empty range has no parts. -/
theorem parts_of_le (le : stop ≤ start) : m.parts start stop = [] := by
  refine List.filter_eq_nil_iff.2 fun c hc => ?_
  have := start_lt_stop_of_mem_blocks hc
  simp only [Bool.and_eq_true, decide_eq_true_eq]
  omega

/-- A block that starts with the range is its first part. -/
theorem parts_eq_cons (hc : c ∈ m.blocks) (below : c.stop ≤ stop) :
    m.parts c.start stop = c :: m.parts c.stop stop := by
  have lt := start_lt_stop_of_mem_blocks hc
  obtain ⟨before, after, eq⟩ := List.append_of_mem hc
  have sorted := pairwise_blocks m
  rw [eq, List.pairwise_append, List.pairwise_cons] at sorted
  obtain ⟨-, ⟨later, -⟩, earlier⟩ := sorted
  -- The blocks before it start below the range, and those after it start where it ends or later.
  have outside : ∀ start', c.start ≤ start' →
      before.filter (fun d => start' ≤ d.start && d.stop ≤ stop) = [] := by
    intro start' le
    refine List.filter_eq_nil_iff.2 fun d hd => ?_
    have := earlier d hd c List.mem_cons_self
    have := start_lt_stop_of_mem_blocks (m := m) (b := d) (by simp [eq, hd])
    simp only [Bool.and_eq_true, decide_eq_true_eq]
    omega
  have same : after.filter (fun d => c.start ≤ d.start && d.stop ≤ stop) =
      after.filter fun d => c.stop ≤ d.start && d.stop ≤ stop := by
    refine List.filter_congr fun d hd => ?_
    have := later d hd
    rw [decide_eq_true (show c.start ≤ d.start by omega), decide_eq_true this]
  rw [parts, parts, eq, List.filter_append, List.filter_append, outside c.start (Nat.le_refl _),
    outside c.stop (Nat.le_of_lt lt), List.filter_cons_of_pos (by simpa using below),
    List.filter_cons_of_neg (by simp; omega), same]
  rfl

/-! ### Neighbours -/

theorem mem_zip_tail {α : Type} (before after : List α) (x y : α) :
    (x, y) ∈ (before ++ x :: y :: after).zip (before ++ x :: y :: after).tail := by
  induction before with
  | nil => exact List.mem_cons_self
  | cons first before ih =>
    cases before with
    | nil => exact List.mem_cons_of_mem _ ih
    | cons second before => exact List.mem_cons_of_mem _ ih

/-- Blocks that share a boundary are neighbours in the list. -/
theorem mem_zip_of_shared (hb : b ∈ m.blocks) (hc : c ∈ m.blocks) (shared : b.stop = c.start) :
    (b, c) ∈ m.blocks.zip m.blocks.tail := by
  obtain ⟨before, after, eq⟩ := List.append_of_mem hb
  have lt := start_lt_stop_of_mem_blocks hb
  have mem := hc
  rw [eq, List.mem_append, List.mem_cons] at mem
  have sorted := pairwise_blocks m
  rw [eq, List.pairwise_append, List.pairwise_cons] at sorted
  obtain ⟨-, -, earlier⟩ := sorted
  rcases mem with mem | rfl | mem
  · have := earlier c mem b List.mem_cons_self
    have := start_lt_stop_of_mem_blocks hc
    omega
  · omega
  · cases after with
    | nil => cases mem
    | cons next after =>
      have neighbour : (b, next) ∈ m.blocks.zip m.blocks.tail := by
        rw [eq]
        exact mem_zip_tail before after b next
      obtain ⟨-, hnext, shared'⟩ := neighbours_of_mem_zip neighbour
      rwa [eq_of_mem_blocks hc hnext (shared.symm.trans shared')]

theorem exists_append_of_mem_zip
    (h : pair ∈ (List.zipWith between l l.tail).zip (List.zipWith between l l.tail).tail) :
    ∃ before after upper, l = before ++ (pair.1.start, pair.1.tag) ::
      (pair.2.start, pair.2.tag) :: (pair.2.stop, upper) :: after := by
  induction l with
  | nil => simp at h
  | cons first rest ih =>
    match rest, ih, h with
    | [], _, h => simp at h
    | [second], _, h => simp at h
    | second :: third :: rest, ih, h =>
      rcases List.mem_cons.1 h with rfl | h
      · exact ⟨[], rest, third.2, rfl⟩
      · obtain ⟨before, after, upper, eq⟩ := ih h
        exact ⟨first :: before, after, upper, by rw [eq]; rfl⟩

theorem zipWith_between_append (before after : List (Nat × Tag)) (e : Nat × Tag) :
    List.zipWith between (before ++ e :: after) (before ++ e :: after).tail =
      List.zipWith between (before ++ [e]) (before ++ [e]).tail ++
        List.zipWith between (e :: after) after := by
  induction before with
  | nil => rfl
  | cons first before ih =>
    cases before with
    | nil => rfl
    | cons second before => exact congrArg (between first second :: ·) ih

/-- Without the boundary between two blocks, one block reaches from the start of the first to the
end of the second, and all others are as they were. -/
theorem blocks_erase (hb : b ∈ m.blocks) (hc : c ∈ m.blocks) (shared : b.stop = c.start) :
    ∃ before after, m.blocks = before ++ b :: c :: after ∧
      blocks (m.erase c.start) = before ++ ⟨b.start, c.stop, b.tag⟩ :: after := by
  obtain ⟨before, after, upper, (eq : m.entries = before ++ (b.start, b.tag) ::
    (c.start, c.tag) :: (c.stop, upper) :: after)⟩ :=
      exists_append_of_mem_zip (mem_zip_of_shared hb hc shared)
  -- No other boundary has the same address, so removing it leaves the entries around it.
  have erased : (m.erase c.start).entries =
      before ++ (b.start, b.tag) :: (c.stop, upper) :: after := by
    have sorted := m.ascending
    rw [eq] at sorted
    simp only [List.pairwise_append, List.pairwise_cons, List.mem_cons] at sorted
    obtain ⟨-, ⟨lower, above, -⟩, earlier⟩ := sorted
    have kept : ∀ l : List (Nat × Tag), (∀ e ∈ l, e.1 ≠ c.start) →
        l.filter (fun e => decide (e.1 ≠ c.start)) = l := fun l ne =>
      List.filter_eq_self.2 fun e mem => by simpa using ne e mem
    have front := kept before fun e mem =>
      Nat.ne_of_lt (earlier e mem _ (.inr (.inl rfl)))
    have back := kept ((c.stop, upper) :: after) fun e mem =>
      Nat.ne_of_gt (above e (List.mem_cons.1 mem))
    have first : b.start ≠ c.start := Nat.ne_of_lt (lower _ (.inl rfl))
    rw [SortedMap.erase, SortedMap.filter]
    dsimp only
    rw [eq, List.filter_append, front, List.filter_cons_of_pos (by simpa using first),
      List.filter_cons_of_neg (by simp), back]
  refine ⟨List.zipWith between (before ++ [(b.start, b.tag)]) (before ++ [(b.start, b.tag)]).tail,
    List.zipWith between ((c.stop, upper) :: after) after, ?_, ?_⟩
  · rw [blocks, eq, zipWith_between_append]
    have first : between (b.start, b.tag) (c.start, c.tag) = b := by
      rw [between, ← shared]
    exact congrArg (_ ++ · :: _) first
  · rw [blocks, erased, zipWith_between_append]
    rfl

end MemoryAtlas.TagMap
