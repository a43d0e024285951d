import MemoryAtlas.Json.Lexeme

/-!
# Values that are not wanted

A value that nobody asks for is passed over, to any depth. The brackets that are open are kept in a
list, innermost first.
-/

namespace MemoryAtlas.Json

open Text

/-- An open bracket. -/
inductive Bracket where
  | array
  | object
  deriving DecidableEq, Repr

/-- The symbol that closes a bracket. -/
def Bracket.close : Bracket → Symbol
  | array => some ']'
  | object => some '}'

/-- What must stand at the next symbol of a value that is passed over. -/
inductive Expect where
  /-- A value. -/
  | value
  /-- The first item of the innermost bracket, or its end. -/
  | first
  /-- A comma and the next item of the innermost bracket, or its end. -/
  | next
  deriving DecidableEq, Repr

/-- What follows a value without brackets. -/
def passScalar (s : List Symbol) : Except Fault (List Symbol) :=
  match s with
  | [] => .error .truncated
  | some 'n' :: _ => keyword ['n', 'u', 'l', 'l'] s
  | some 't' :: _ => keyword ['t', 'r', 'u', 'e'] s
  | some 'f' :: _ => keyword ['f', 'a', 'l', 's', 'e'] s
  | some '"' :: rest => passString rest
  | c :: _ => if c = some '-' || isDigit c then passNumber s else .error .malformed

theorem length_passScalar {s rest : List Symbol} (h : passScalar s = .ok rest) :
    rest.length < s.length := by
  unfold passScalar at h
  split at h
  · simp at h
  · have := length_keyword h
    simp only [List.length_cons, List.length_nil] at this ⊢
    omega
  · have := length_keyword h
    simp only [List.length_cons, List.length_nil] at this ⊢
    omega
  · have := length_keyword h
    simp only [List.length_cons, List.length_nil] at this ⊢
    omega
  · have := length_passString h
    simp only [List.length_cons]
    omega
  · split at h
    · unfold passNumber at h
      split at h
      · next ok =>
        have := length_number ok
        grind
      · simp at h
    · simp at h

/-- What follows a colon. -/
def colon (s : List Symbol) : Except Fault (List Symbol) :=
  match skipSpace s with
  | [] => .error .truncated
  | c :: rest => if c = some ':' then .ok rest else .error .malformed

theorem length_colon {s rest : List Symbol} (h : colon s = .ok rest) : rest.length < s.length := by
  have := length_skipSpace_le s
  unfold colon at h
  grind

/-- Where the value of an item starts: in an object, after its key and colon. -/
def itemValue (b : Bracket) (s : List Symbol) : Except Fault (List Symbol) :=
  match b with
  | .array => .ok s
  | .object =>
    match skipSpace s with
    | [] => .error .truncated
    | c :: rest => if c = some '"' then passString rest >>= colon else .error .malformed

theorem length_itemValue {b : Bracket} {s rest : List Symbol} (h : itemValue b s = .ok rest) :
    rest.length ≤ s.length := by
  have space := length_skipSpace_le s
  have key := @length_passString
  have value := @length_colon
  unfold itemValue at h
  simp only [bind, Except.bind] at h
  grind

/-- What follows a value that is passed over. -/
def passFrom (expect : Expect) (brackets : List Bracket) (s : List Symbol) :
    Except Fault (List Symbol) :=
  match expect, brackets with
  | .next, [] => .ok s
  | .first, [] => .ok s
  | .value, _ =>
    match _hs : skipSpace s with
    | some '[' :: rest => passFrom .first (.array :: brackets) rest
    | some '{' :: rest => passFrom .first (.object :: brackets) rest
    | t =>
      match _ht : passScalar t with
      | .error f => .error f
      | .ok rest => passFrom .next brackets rest
  | .first, b :: outer =>
    match _hs : skipSpace s with
    | [] => .error .truncated
    | c :: rest =>
      if c = b.close then passFrom .next outer rest
      else
        match _hi : itemValue b (c :: rest) with
        | .error f => .error f
        | .ok value => passFrom .value brackets value
  | .next, b :: outer =>
    match _hs : skipSpace s with
    | [] => .error .truncated
    | c :: rest =>
      if c = b.close then passFrom .next outer rest
      else if c = some ',' then
        match _hi : itemValue b rest with
        | .error f => .error f
        | .ok value => passFrom .value brackets value
      else .error .malformed
termination_by (s.length, match expect with | .value => 0 | _ => 1)
decreasing_by
  all_goals
    have space := length_skipSpace_le s
  · grind
  · grind
  · have := length_passScalar _ht
    grind
  · grind
  · have := length_itemValue _hi
    grind
  · grind
  · have := length_itemValue _hi
    grind

/-- What follows a value that nobody wants. -/
def pass (s : List Symbol) : Except Fault (List Symbol) := passFrom .value [] s

theorem length_passFrom {expect : Expect} {brackets : List Bracket} {s rest : List Symbol}
    (h : passFrom expect brackets s = .ok rest) :
    rest.length ≤ s.length ∧ (expect = .value → rest.length < s.length) := by
  have space := length_skipSpace_le
  have scalar := @length_passScalar
  have item := @length_itemValue
  fun_induction passFrom expect brackets s <;> grind

theorem length_pass {s rest : List Symbol} (h : pass s = .ok rest) : rest.length < s.length :=
  (length_passFrom h).2 rfl

end MemoryAtlas.Json
