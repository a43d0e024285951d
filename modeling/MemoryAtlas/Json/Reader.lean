import MemoryAtlas.Json.Pass

/-!
# Readers

A reader takes a value of a known type off the front of a text. It reads strictly from left to
right, so that of two faults the first one counts, whether it is a fault of the text or of the type.
A reader takes at least one symbol, which is why lists and objects can be read to their end.

## Main definitions

* `Reader`: the type, with `Reader.string`, `Reader.integer`, `Reader.orNull`.
* `Reader.sequence`: the items of a list or object, folded into a state.
* `Reader.document`: a whole text.
-/

namespace MemoryAtlas.Json

open Text

/-- A way to take a value off the front of a text. -/
structure Reader (α : Type) where
  /-- The value and what follows it. -/
  read : List Symbol → Except Fault (α × List Symbol)
  /-- Something is taken. -/
  length_read : ∀ {s rest : List Symbol} {x : α}, read s = .ok (x, rest) → rest.length < s.length

/-- The fault of a value of another type than the wanted one. Scalars are looked at whole, lists and
objects are not entered. -/
def wrongType : List Symbol → Fault
  | [] => .truncated
  | some '[' :: _ | some '{' :: _ => .malformed
  | some '"' :: rest =>
    match stringFrom [] rest with
    | .error f => f
    | .ok _ => .malformed
  | c :: rest =>
    if c = some '-' || isDigit c then
      match number (c :: rest) with
      | .error f => f
      | .ok _ => .malformed
    else
      match passScalar (c :: rest) with
      | .error f => f
      | .ok _ => .malformed

namespace Reader

variable {α β σ : Type}

/-- The value changed by a function that may refuse it. -/
def refine (r : Reader α) (f : α → Option β) : Reader β where
  read s :=
    match r.read s with
    | .error e => .error e
    | .ok (x, rest) =>
      match f x with
      | some y => .ok (y, rest)
      | none => .error .malformed
  length_read h := by
    split at h
    · simp at h
    · next ok =>
      split at h
      · cases h
        exact r.length_read ok
      · simp at h

/-- The value changed by a function. -/
def map (r : Reader α) (f : α → β) : Reader β := r.refine fun x => some (f x)

/-- One reader after another. -/
def andThen (r : Reader α) (f : α → Except Fault (Reader β)) : Reader β where
  read s :=
    match r.read s with
    | .error e => .error e
    | .ok (x, rest) =>
      match f x with
      | .error e => .error e
      | .ok next => next.read rest
  length_read h := by
    split at h
    · simp at h
    · next ok =>
      split at h
      · simp at h
      · next next _ =>
        exact Nat.lt_trans (next.length_read h) (r.length_read ok)

/-- A string. -/
def string : Reader String where
  read s :=
    match skipSpace s with
    | some '"' :: rest =>
      match stringFrom [] rest with
      | .error f => .error f
      | .ok (found, rest) =>
        match chars? found with
        | some text => .ok (.ofList text, rest)
        | none => .error .malformed
    | other => .error (wrongType other)
  length_read {s _ _} h := by
    have space := length_skipSpace_le s
    split at h
    · next eq =>
      rw [eq, List.length_cons] at space
      split at h
      · simp at h
      · next ok =>
        have := length_stringFrom ok
        grind
    · simp at h

/-- An integer from `least` to `greatest`. -/
def integer (least greatest : Int) : Reader Int where
  read s :=
    match skipSpace s with
    | [] => .error .truncated
    | c :: rest =>
      if c = some '-' || isDigit c then
        match number (c :: rest) with
        | .error f => .error f
        | .ok (.integer n, rest) =>
          if least ≤ n ∧ n ≤ greatest then .ok (n, rest) else .error .malformed
        | .ok (.fraction, _) => .error .malformed
      else .error (wrongType (c :: rest))
  length_read {s _ _} h := by
    have space := length_skipSpace_le s
    have num := @length_number
    grind

/-- The key word `null`. -/
def null : Reader Unit where
  read s :=
    match skipSpace s with
    | some 'n' :: rest => (keyword ['u', 'l', 'l'] rest).map fun rest => ((), rest)
    | other => .error (wrongType other)
  length_read {s _ _} h := by
    have space := length_skipSpace_le s
    split at h
    · obtain ⟨rest, ok, eq⟩ := map_eq_ok h
      have := length_keyword ok
      grind
    · simp at h

/-- A value, or `null` for none. -/
def orNull (r : Reader α) : Reader (Option α) where
  read s :=
    match skipSpace s with
    | some 'n' :: rest => (keyword ['u', 'l', 'l'] rest).map fun rest => (none, rest)
    | _ => (r.read s).map fun (x, rest) => (some x, rest)
  length_read {s _ _} h := by
    have space := length_skipSpace_le s
    split at h
    · obtain ⟨rest, ok, eq⟩ := map_eq_ok h
      have := length_keyword ok
      grind
    · obtain ⟨rest, ok, eq⟩ := map_eq_ok h
      have := r.length_read ok
      grind

/-- A value that nobody wants. -/
def ignored (x : α) : Reader α where
  read s := (pass s).map (x, ·)
  length_read {s _ _} h := by
    obtain ⟨rest, ok, eq⟩ := map_eq_ok h
    cases eq
    exact length_pass ok

/-- Where the next item of a sequence starts, or what follows the sequence if it ends. Between items
stands a comma, and none before the end. Where no more items are wanted, a comma is wrong. -/
def nextItem (close : Symbol) (isFirst wanted : Bool) (s : List Symbol) :
    Except Fault (Bool × List Symbol) :=
  match skipSpace s with
  | [] => .error .truncated
  | c :: rest =>
    if c = close then .ok (false, rest)
    else if !wanted then .error .malformed
    else if isFirst then .ok (true, c :: rest)
    else if c = some ',' then
      match skipSpace rest with
      | [] => .error .truncated
      | d :: rest => if d = close then .error .malformed else .ok (true, d :: rest)
    else .error .malformed

theorem length_nextItem {close : Symbol} {isFirst wanted : Bool} {s rest : List Symbol}
    {more : Bool} (h : nextItem close isFirst wanted s = .ok (more, rest)) :
    rest.length ≤ s.length ∧ (more = false → rest.length < s.length) := by
  have space := length_skipSpace_le
  unfold nextItem at h
  grind

/-- The items of a sequence up to its end, folded into a state, which also tells whether more are
wanted. -/
def itemsFrom (close : Symbol) (wanted : σ → Bool) (item : σ → Reader σ) (isFirst : Bool)
    (state : σ) (s : List Symbol) : Except Fault (σ × List Symbol) :=
  match _hs : nextItem close isFirst (wanted state) s with
  | .error f => .error f
  | .ok (false, rest) => .ok (state, rest)
  | .ok (true, rest) =>
    match _hi : (item state).read rest with
    | .error f => .error f
    | .ok (next, rest) => itemsFrom close wanted item false next rest
termination_by s.length
decreasing_by
  have next := (length_nextItem _hs).1
  have taken := (item state).length_read _hi
  omega

theorem length_itemsFrom {close : Symbol} {wanted : σ → Bool} {item : σ → Reader σ}
    {isFirst : Bool} {state final : σ} {s rest : List Symbol}
    (h : itemsFrom close wanted item isFirst state s = .ok (final, rest)) :
    rest.length < s.length := by
  fun_induction itemsFrom close wanted item isFirst state s with
  | case1 => simp at h
  | case2 _ _ _ _ hs =>
    cases h
    exact (length_nextItem hs).2 rfl
  | case3 => simp at h
  | case4 isFirst state s after hs next taken hi ih =>
    have start := (length_nextItem hs).1
    have item := (item state).length_read hi
    have := ih h
    omega

/-- A sequence between brackets, folded into a state. -/
def sequence (opening close : Char) (wanted : σ → Bool) (item : σ → Reader σ) (state : σ) :
    Reader σ where
  read s :=
    match skipSpace s with
    | [] => .error .truncated
    | c :: rest =>
      if c = some opening then itemsFrom (some close) wanted item true state rest
      else .error (wrongType (c :: rest))
  length_read {s _ _} h := by
    have space := length_skipSpace_le s
    have items := @length_itemsFrom σ
    grind

/-- A list. -/
def list (item : Reader α) : Reader (List α) :=
  (sequence '[' ']' (fun _ => true) (fun found => item.map (· :: found)) []).map List.reverse

/-- The key of a member of an object, where a quote stands. -/
def key : Reader String where
  read s :=
    match s with
    | some '"' :: _ => string.read s
    | _ => .error .malformed
  length_read h := by
    split at h
    · exact string.length_read h
    · simp at h

/-- A value after a colon. -/
def afterColon (r : Reader α) : Reader α where
  read s :=
    match colon s with
    | .error f => .error f
    | .ok rest => r.read rest
  length_read h := by
    split at h
    · simp at h
    · next ok => exact Nat.lt_trans (r.length_read h) (length_colon ok)

/-- An object whose members are folded into a state. The key of a member decides how its value is
read, or that it is wrong. -/
def object {κ : Type} (key : Reader κ) (member : σ → κ → Except Fault (Reader σ)) (state : σ) :
    Reader σ :=
  sequence '{' '}' (fun _ => true)
    (fun state => key.andThen fun k => (member state k).map afterColon) state

/-- The value that a whole text holds. -/
def document (r : Reader α) (s : List Symbol) : Except Fault α :=
  match r.read s with
  | .error f => .error f
  | .ok (x, rest) => if (skipSpace rest).isEmpty then .ok x else .error .malformed

end Reader

end MemoryAtlas.Json
