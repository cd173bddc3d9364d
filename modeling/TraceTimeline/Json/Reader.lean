import TraceTimeline.Text.Utf8

/-!
# Readers of JSON

A reader takes what it needs from the front of the input and hands back the rest. The rest is never
longer than the input, and that is part of the type of readers, so a loop that takes a separator
before every item ends with the input.

The input is read once, from left to right, and the first thing that is wrong with it decides the
fault that is reported.
-/

namespace TraceTimeline.Json

inductive Fault where
  /-- It is no JSON. -/
  | malformed
  /-- It is JSON, but a value is of the wrong kind or out of range, or a field is missing or
  repeated. -/
  | unfit
  /-- It ends too early. -/
  | truncated
  deriving DecidableEq, Repr

def Fault.message : Fault → String
  | malformed => "malformed JSON"
  | unfit => "unexpected value"
  | truncated => "unexpected end of input"

/-- Reads an `α` from the front of the input. -/
structure Reader (α : Type) where
  run : Bytes → Except Fault (α × Bytes)
  rest_le : ∀ {s a r}, run s = .ok (a, r) → r.length ≤ s.length

namespace Reader

variable {α β : Type}

protected def pure (a : α) : Reader α where
  run s := .ok (a, s)
  rest_le h := by cases h; exact Nat.le_refl _

protected def bind (x : Reader α) (f : α → Reader β) : Reader β where
  run s :=
    match x.run s with
    | .error fault => .error fault
    | .ok (a, r) => (f a).run r
  rest_le {s b r} h := by
    split at h
    · cases h
    · rename_i a t ht
      exact Nat.le_trans ((f a).rest_le h) (x.rest_le ht)

instance : Monad Reader where
  pure := Reader.pure
  bind := Reader.bind

@[simp] theorem run_pure (a : α) (s : Bytes) : (pure a : Reader α).run s = .ok (a, s) := rfl

theorem run_bind (x : Reader α) (f : α → Reader β) (s : Bytes) :
    (x >>= f).run s =
      match x.run s with
      | .error fault => .error fault
      | .ok (a, r) => (f a).run r := rfl

def fail (fault : Fault) : Reader α where
  run _ := .error fault
  rest_le h := by cases h

@[simp] theorem run_fail (fault : Fault) (s : Bytes) : (fail fault : Reader α).run s = .error fault :=
  rfl

/-- The next byte, which stays in the input; `none` at the end. -/
def peek : Reader (Option UInt8) where
  run s := .ok (s.head?, s)
  rest_le h := by cases h; exact Nat.le_refl _

@[simp] theorem run_peek (s : Bytes) : peek.run s = .ok (s.head?, s) := rfl

def drop : Reader Unit where
  run s := .ok ((), s.tail)
  rest_le {s _ _} h := by cases h; simp

@[simp] theorem run_drop (s : Bytes) : drop.run s = .ok ((), s.tail) := rfl

def takeWhile (p : UInt8 → Bool) : Reader Bytes where
  run s := .ok (s.takeWhile p, s.dropWhile p)
  rest_le {s _ _} h := by cases h; exact (List.dropWhile_suffix p).length_le

@[simp] theorem run_takeWhile (p : UInt8 → Bool) (s : Bytes) :
    (takeWhile p).run s = .ok (s.takeWhile p, s.dropWhile p) := rfl

def next : Reader UInt8 where
  run
    | [] => .error .truncated
    | b :: r => .ok (b, r)
  rest_le {s _ _} h := by
    cases s with
    | nil => cases h
    | cons b r => cases h; simp

@[simp] theorem run_next_nil : next.run [] = .error .truncated := rfl

@[simp] theorem run_next_cons (b : UInt8) (r : Bytes) : next.run (b :: r) = .ok (b, r) := rfl

def literal : Bytes → Reader Unit
  | [] => pure ()
  | b :: bs => do
    let c ← next
    if c = b then literal bs else fail .malformed

end Reader

def ascii (c : Char) : UInt8 :=
  c.toUInt8

/-- The white space that may stand between two tokens: space, tab, line feed, carriage return. -/
def isSpace (b : UInt8) : Bool :=
  b == 0x20 || b == 0x09 || b == 0x0A || b == 0x0D

def isDigit (b : UInt8) : Bool :=
  0x30 ≤ b && b ≤ 0x39

namespace Reader

variable {α σ : Type}

def spaces : Reader Unit := do
  let _ ← takeWhile isSpace

/-- The next byte after white space; it stays in the input. -/
def ahead : Reader UInt8 := do
  spaces
  match ← peek with
  | some b => return b
  | none => fail .truncated

def mark (c : Char) : Reader Unit := do
  let b ← ahead
  if b = ascii c then drop else fail .malformed

/-- What follows the first byte after white space is shorter than the input. -/
theorem length_lt_of_dropWhile {p : UInt8 → Bool} {s r : Bytes} {b : UInt8}
    (h : s.dropWhile p = b :: r) : r.length < s.length := by
  have := (List.dropWhile_suffix (l := s) p).length_le
  rw [h, List.length_cons] at this
  omega

/-- The items after the first one, each behind a comma, and the closing bracket. -/
def itemsAfter (close : UInt8) (item : σ → Reader σ) (state : σ) (s : Bytes) :
    Except Fault (σ × Bytes) :=
  match _h : s.dropWhile isSpace with
  | [] => .error .truncated
  | b :: r =>
    if b = close then .ok (state, r)
    else if b = ascii ',' then
      match _hi : (item state).run r with
      | .error fault => .error fault
      | .ok (state', r') => itemsAfter close item state' r'
    else .error .malformed
termination_by s.length
decreasing_by
  exact Nat.lt_of_le_of_lt ((item state).rest_le _hi) (length_lt_of_dropWhile _h)

theorem itemsAfter_rest_le (close : UInt8) (item : σ → Reader σ) {state state' : σ} {s r : Bytes}
    (h : itemsAfter close item state s = .ok (state', r)) : r.length ≤ s.length := by
  fun_induction itemsAfter close item state s with
  | case1 => cases h
  | case2 state s t ht =>
    cases h
    exact Nat.le_of_lt (length_lt_of_dropWhile ht)
  | case3 => cases h
  | case4 state s t state₁ u hu ht _ ih =>
    have h1 := ih h
    have h2 := (item state).rest_le hu
    have h3 := length_lt_of_dropWhile ht
    omega
  | case5 => cases h

/-- Items between commas up to a closing bracket, behind the opening one. Every item changes the
state that was reached before it. -/
def items (close : Char) (item : σ → Reader σ) (state : σ) : Reader σ := do
  let b ← ahead
  if b = ascii close then
    drop
    return state
  else
    let first ← item state
    { run := itemsAfter (ascii close) item first
      rest_le := itemsAfter_rest_le (ascii close) item }

end Reader
end TraceTimeline.Json
