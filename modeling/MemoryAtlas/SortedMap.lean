import MemoryAtlas.Total

/-!
# Finite maps in ascending key order

A `SortedMap` is a list of entries whose keys strictly ascend. Boundary maps, configured overrides
and reports all keep their entries in key order and show that order, so the order is part of the
type: every operation below returns a strictly ascending list again.

## Main definitions

* `SortedMap.insert`, `SortedMap.erase`, `SortedMap.filter` change a map.
* `SortedMap.get?` looks a key up; `SortedMap.ofList` builds a map, later pairs replacing earlier.

## Main results

* `SortedMap.get?_insert`, `SortedMap.get?_erase` say what a change does to every look-up.
* `SortedMap.ext_get?`: two maps with the same look-ups are equal.
* `SortedMap.ofList_entries`: a map is what its entries make.
-/

namespace MemoryAtlas

universe u v

/-- A finite map whose entries stand in strictly ascending key order. -/
structure SortedMap (κ : Type u) (ν : Type v) [LT κ] where
  /-- The entries, by ascending key. -/
  entries : List (κ × ν)
  /-- No key is repeated and none is out of order. -/
  ascending : entries.Pairwise fun x y => x.1 < y.1

namespace SortedMap

variable {κ : Type u} {ν : Type v} [LT κ]

/-- Maps with the same entries are equal. -/
@[ext]
theorem ext {m n : SortedMap κ ν} (h : m.entries = n.entries) : m = n := by
  cases m
  cases n
  cases h
  rfl

instance [DecidableEq κ] [DecidableEq ν] : DecidableEq (SortedMap κ ν) := fun m n =>
  decidable_of_iff (m.entries = n.entries) ⟨ext, congrArg entries⟩

/-- The map without entries. -/
def empty : SortedMap κ ν := ⟨[], .nil⟩

instance : EmptyCollection (SortedMap κ ν) := ⟨empty⟩

instance : Inhabited (SortedMap κ ν) := ⟨empty⟩

/-- The number of entries. -/
def size (m : SortedMap κ ν) : Nat := m.entries.length

/-- The keys, ascending. -/
def keys (m : SortedMap κ ν) : List κ := m.entries.map (·.1)

/-- The sum of the weights of the entries. -/
def weight (f : κ × ν → Nat) (m : SortedMap κ ν) : Nat := total f m.entries

/-- The entries that satisfy `p`. -/
def filter (p : κ × ν → Bool) (m : SortedMap κ ν) : SortedMap κ ν :=
  ⟨m.entries.filter p, m.ascending.filter p⟩

/-! ### Looking up and removing -/

section Lookup

variable [DecidableEq κ]

/-- The value of the first entry with key `k`. -/
def lookup (k : κ) : List (κ × ν) → Option ν
  | [] => none
  | e :: rest => if k = e.1 then some e.2 else lookup k rest

/-- The value at `k`, if there is one. -/
def get? (m : SortedMap κ ν) (k : κ) : Option ν := lookup k m.entries

/-- Whether `k` is a key. -/
def contains (m : SortedMap κ ν) (k : κ) : Bool := (m.get? k).isSome

/-- The map without the key `k`. -/
def erase (m : SortedMap κ ν) (k : κ) : SortedMap κ ν := m.filter (·.1 ≠ k)

@[simp]
theorem get?_empty (k : κ) : (empty : SortedMap κ ν).get? k = none := rfl

omit [LT κ] in
theorem lookup_filter_ne (k j : κ) (l : List (κ × ν)) :
    lookup j (l.filter (·.1 ≠ k)) = if j = k then none else lookup j l := by
  induction l with
  | nil => simp [lookup]
  | cons d rest ih =>
    by_cases hd : d.1 = k
    · rw [List.filter_cons_of_neg (by simpa using hd), ih, lookup]
      by_cases h : j = k <;> simp [h, hd]
    · rw [List.filter_cons_of_pos (by simpa using hd), lookup, ih, lookup]
      by_cases h : j = k
      · subst h
        simp [Ne.symm hd]
      · simp [h]

@[simp]
theorem get?_erase (m : SortedMap κ ν) (k j : κ) :
    (m.erase k).get? j = if j = k then none else m.get? j :=
  lookup_filter_ne k j m.entries

end Lookup

/-! ### Inserting -/

section Entries

variable [DecidableEq κ] [DecidableLT κ]

/-- The entries with `k` set to `v`: in its place if it is new, replaced if it is not. -/
def insertEntry (k : κ) (v : ν) : List (κ × ν) → List (κ × ν)
  | [] => [(k, v)]
  | e :: rest =>
    if k < e.1 then (k, v) :: e :: rest
    else if k = e.1 then (k, v) :: rest
    else e :: insertEntry k v rest

theorem mem_insertEntry {k : κ} {v : ν} {e : κ × ν} {l : List (κ × ν)}
    (h : e ∈ insertEntry k v l) : e = (k, v) ∨ e ∈ l := by
  induction l with
  | nil => simpa [insertEntry] using h
  | cons d rest ih =>
    rw [insertEntry] at h
    split at h
    · simpa using h
    · split at h
      · rcases List.mem_cons.1 h with rfl | h
        · exact .inl rfl
        · exact .inr (List.mem_cons_of_mem _ h)
      · rcases List.mem_cons.1 h with rfl | h
        · exact .inr List.mem_cons_self
        · exact (ih h).imp_right (List.mem_cons_of_mem _)

theorem lookup_insertEntry (k j : κ) (v : ν) (l : List (κ × ν)) :
    lookup j (insertEntry k v l) = if j = k then some v else lookup j l := by
  induction l with
  | nil => rfl
  | cons d rest ih =>
    rw [insertEntry]
    split
    · rfl
    · split
      · next heq =>
        subst heq
        by_cases h : j = d.1 <;> simp [lookup, h]
      · next hne =>
        rw [lookup, lookup, ih]
        by_cases h : j = k
        · subst h
          simp [hne]
        · simp [h]

theorem total_insertEntry (f : κ × ν → Nat) {k : κ} {v : ν}
    {l : List (κ × ν)} (h : lookup k l = none) :
    total f (insertEntry k v l) = total f l + f (k, v) := by
  induction l with
  | nil => simp [insertEntry]
  | cons d rest ih =>
    rw [lookup] at h
    rw [insertEntry]
    split
    · simp only [total_cons]
      omega
    · split
      · next eq => simp [eq] at h
      · next ne =>
        rw [if_neg ne] at h
        simp only [total_cons, ih h]
        omega

end Entries

section Ordered

variable [LE κ] [Std.LawfulOrderLT κ]

/-- An entry is what looking its key up yields. -/
theorem get?_eq_some_iff [DecidableEq κ] {m : SortedMap κ ν} {k : κ} {v : ν} :
    m.get? k = some v ↔ (k, v) ∈ m.entries := by
  obtain ⟨l, hl⟩ := m
  rw [get?]
  induction l with
  | nil => simp [lookup]
  | cons d rest ih =>
    have head := (List.pairwise_cons.1 hl).1
    rw [lookup, List.mem_cons]
    split
    · next h =>
      subst h
      have fresh : (d.1, v) ∉ rest := fun hm => Std.lt_irrefl (head (d.1, v) hm)
      rw [Option.some.injEq, or_iff_left fresh]
      exact ⟨fun e => e ▸ rfl, fun e => (congrArg Prod.snd e).symm⟩
    · next h =>
      rw [or_iff_right fun e => h (congrArg Prod.fst e)]
      exact ih hl.of_cons

variable [Std.IsLinearOrder κ]

theorem lt_of_not_lt_of_ne {a b : κ} (h : ¬a < b) (hne : a ≠ b) : b < a :=
  Std.lt_of_le_of_ne (Std.not_lt.1 h) (Ne.symm hne)

/-- Two maps with the same look-ups are equal. -/
theorem ext_get? [DecidableEq κ] {m n : SortedMap κ ν} (h : ∀ k, m.get? k = n.get? k) : m = n := by
  have mem : ∀ e, e ∈ m.entries ↔ e ∈ n.entries := fun e => by
    rw [← get?_eq_some_iff (m := m), ← get?_eq_some_iff (m := n), h]
  obtain ⟨l, hl⟩ := m
  obtain ⟨r, hr⟩ := n
  apply ext
  simp only at mem ⊢
  clear h
  induction l generalizing r with
  | nil =>
    cases r with
    | nil => rfl
    | cons e rest => exact absurd ((mem e).2 List.mem_cons_self) (by simp)
  | cons d rest ih =>
    cases r with
    | nil => exact absurd ((mem d).1 List.mem_cons_self) (by simp)
    | cons e tail =>
      have headL := (List.pairwise_cons.1 hl).1
      have headR := (List.pairwise_cons.1 hr).1
      have same : d = e := by
        rcases List.mem_cons.1 ((mem d).1 List.mem_cons_self) with h | hd
        · exact h
        rcases List.mem_cons.1 ((mem e).2 List.mem_cons_self) with h | he
        · exact h.symm
        exact absurd (Std.lt_trans (headL _ he) (headR _ hd)) Std.lt_irrefl
      subst same
      have tails : rest = tail := ih hl.of_cons tail hr.of_cons fun x => by
        constructor
        · intro hx
          rcases List.mem_cons.1 ((mem x).1 (List.mem_cons_of_mem _ hx)) with h | h
          · exact absurd (headL _ hx) (h ▸ Std.lt_irrefl)
          · exact h
        · intro hx
          rcases List.mem_cons.1 ((mem x).2 (List.mem_cons_of_mem _ hx)) with h | h
          · exact absurd (headR _ hx) (h ▸ Std.lt_irrefl)
          · exact h
      rw [tails]

variable [DecidableEq κ] [DecidableLT κ]

theorem pairwise_insertEntry (k : κ) (v : ν) {l : List (κ × ν)}
    (h : l.Pairwise fun x y => x.1 < y.1) :
    (insertEntry k v l).Pairwise fun x y => x.1 < y.1 := by
  induction l with
  | nil => simp [insertEntry]
  | cons d rest ih =>
    have head := (List.pairwise_cons.1 h).1
    rw [insertEntry]
    split
    · next hlt =>
      refine h.cons fun e he => ?_
      rcases List.mem_cons.1 he with rfl | he
      · exact hlt
      · exact Std.lt_trans hlt (head e he)
    · split
      · next heq =>
        exact h.of_cons.cons fun e he => heq ▸ head e he
      · next hlt hne =>
        refine (ih h.of_cons).cons fun e he => ?_
        rcases mem_insertEntry he with rfl | he
        · exact lt_of_not_lt_of_ne hlt hne
        · exact head e he

/-- The map with `k` set to `v`. -/
def insert (m : SortedMap κ ν) (k : κ) (v : ν) : SortedMap κ ν :=
  ⟨insertEntry k v m.entries, pairwise_insertEntry k v m.ascending⟩

/-- The map of a list of pairs; a later pair replaces an earlier one with the same key. -/
def ofList (l : List (κ × ν)) : SortedMap κ ν :=
  l.foldl (fun m e => m.insert e.1 e.2) empty

@[simp]
theorem get?_insert (m : SortedMap κ ν) (k j : κ) (v : ν) :
    (m.insert k v).get? j = if j = k then some v else m.get? j :=
  lookup_insertEntry k j v m.entries

/-- A key above all others goes to the end. -/
theorem entries_insert_of_lt {m : SortedMap κ ν} {k : κ} {v : ν}
    (above : ∀ e ∈ m.entries, e.1 < k) : (m.insert k v).entries = m.entries ++ [(k, v)] := by
  obtain ⟨l, sorted⟩ := m
  rw [insert]
  dsimp only at above ⊢
  clear sorted
  induction l with
  | nil => rfl
  | cons e l ih =>
    have less := above e List.mem_cons_self
    have not_lt : ¬k < e.1 := fun lt => Std.lt_irrefl (Std.lt_trans less lt)
    have ne : k ≠ e.1 := fun eq => Std.lt_irrefl (eq ▸ less)
    rw [insertEntry, if_neg not_lt, if_neg ne, ih fun d mem => above d (List.mem_cons_of_mem _ mem)]
    rfl

/-- Entries that come after those of a map are appended to it one by one. -/
theorem entries_foldl_insert_of_pairwise (m : SortedMap κ ν) {l : List (κ × ν)}
    (h : (m.entries ++ l).Pairwise fun x y => x.1 < y.1) :
    (l.foldl (fun m e => m.insert e.1 e.2) m).entries = m.entries ++ l := by
  induction l generalizing m with
  | nil => exact (List.append_nil _).symm
  | cons e rest ih =>
    have last : (m.insert e.1 e.2).entries = m.entries ++ [e] := by
      apply entries_insert_of_lt
      exact fun d mem => (List.pairwise_append.1 h).2.2 d mem e List.mem_cons_self
    have split : m.entries ++ e :: rest = (m.insert e.1 e.2).entries ++ rest := by
      rw [last, List.append_assoc]
      rfl
    rw [split] at h ⊢
    exact ih _ h

/-- A map is what its entries make. -/
theorem ofList_entries (m : SortedMap κ ν) : ofList m.entries = m :=
  ext (entries_foldl_insert_of_pairwise empty m.ascending)

/-! ### Weights -/

omit [DecidableLT κ] [Std.IsLinearOrder κ] in
/-- Removing an entry takes its weight away. -/
theorem weight_erase_add (f : κ × ν → Nat) {m : SortedMap κ ν} {k : κ} {v : ν}
    (h : m.get? k = some v) : (m.erase k).weight f + f (k, v) = m.weight f := by
  obtain ⟨l, hl⟩ := m
  rw [get?_eq_some_iff] at h
  simp only [erase, filter, weight] at h ⊢
  induction l with
  | nil => simp at h
  | cons d rest ih =>
    have head := (List.pairwise_cons.1 hl).1
    rcases List.mem_cons.1 h with rfl | h
    · have others : rest.filter (fun e => decide (e.1 ≠ k)) = rest :=
        List.filter_eq_self.2 fun e he => by
          have := head e he
          simpa using fun eq => Std.lt_irrefl (eq ▸ this)
      rw [List.filter_cons_of_neg (by simp), others, total_cons, Nat.add_comm]
    · have ne : d.1 ≠ k := fun eq => Std.lt_irrefl (eq ▸ head (k, v) h)
      rw [List.filter_cons_of_pos (by simpa using ne), total_cons, total_cons, Nat.add_assoc,
        ih hl.of_cons h]

/-- A new entry adds its weight. -/
theorem weight_insert (f : κ × ν → Nat) {m : SortedMap κ ν} {k : κ} (v : ν)
    (h : m.get? k = none) : (m.insert k v).weight f = m.weight f + f (k, v) :=
  total_insertEntry f h

end Ordered

end SortedMap

end MemoryAtlas
