import TraceTimeline.Json.Numeral
import TraceTimeline.Json.Quoted

/-!
# Skipping JSON values

The value of a member that is no field is skipped. Only its grammar is checked, so its numbers may be
of any size. It may be nested to any depth: the brackets that are open are kept in a list.
-/

namespace TraceTimeline.Json

open Reader

inductive Bracket where
  | object
  | array
  deriving DecidableEq, Repr

namespace Bracket

def close : Bracket → UInt8
  | object => ascii '}'
  | array => ascii ']'

/-- What stands in front of every value inside a bracket: in an object a name and a colon. -/
def lead : Bracket → Reader Unit
  | object => do
    mark '"'
    skipAfterQuote
    mark ':'
  | array => pure ()

end Bracket

/-- Where a skip stands. -/
inductive SkipState where
  /-- A value has to come. -/
  | value
  /-- A bracket has just been opened. -/
  | opened (bracket : Bracket)
  /-- A value has just ended. -/
  | ended
  deriving DecidableEq, Repr

/-- How many steps can follow without taking a byte. -/
def SkipState.rank : SkipState → Nat
  | ended => 0
  | value => 1
  | opened _ => 2

def skipScalar : Reader Unit := do
  let b ← ahead
  if b = ascii '"' then
    drop
    skipAfterQuote
  else if b = ascii 'n' then literal ("null".toList.map ascii)
  else if b = ascii 't' then literal ("true".toList.map ascii)
  else if b = ascii 'f' then literal ("false".toList.map ascii)
  else
    let _ ← Numeral.read .malformed

/-- Skips to the end of the outermost value. The brackets around the current place are in `stack`,
the innermost first. -/
def skipFrom (state : SkipState) (stack : List Bracket) (s : Bytes) : Except Fault (Unit × Bytes) :=
  match state, stack with
  | .value, stack =>
    match _h : s.dropWhile isSpace with
    | [] => .error .truncated
    | b :: r =>
      if b = ascii '{' then skipFrom (.opened .object) stack r
      else if b = ascii '[' then skipFrom (.opened .array) stack r
      else
        match _hr : skipScalar.run (b :: r) with
        | .error fault => .error fault
        | .ok (_, r') => skipFrom .ended stack r'
  | .opened bracket, stack =>
    match _h : s.dropWhile isSpace with
    | [] => .error .truncated
    | b :: r =>
      if b = bracket.close then skipFrom .ended stack r
      else
        match _hr : bracket.lead.run (b :: r) with
        | .error fault => .error fault
        | .ok (_, r') => skipFrom .value (bracket :: stack) r'
  | .ended, [] => .ok ((), s)
  | .ended, bracket :: outer =>
    match _h : s.dropWhile isSpace with
    | [] => .error .truncated
    | b :: r =>
      if b = bracket.close then skipFrom .ended outer r
      else if b = ascii ',' then
        match _hr : bracket.lead.run r with
        | .error fault => .error fault
        | .ok (_, r') => skipFrom .value (bracket :: outer) r'
      else .error .malformed
termination_by 3 * s.length + state.rank
decreasing_by
  -- Every step takes a byte, and that outweighs any rise in rank.
  all_goals
    have h1 := length_lt_of_dropWhile _h
    simp only [SkipState.rank]
  · omega
  · omega
  · have h2 := skipScalar.rest_le _hr
    simp only [List.length_cons] at h2
    omega
  · omega
  · have h2 := bracket.lead.rest_le _hr
    simp only [List.length_cons] at h2
    omega
  · omega
  · have h2 := bracket.lead.rest_le _hr
    omega

theorem skipFrom_rest_le {state : SkipState} {stack : List Bracket} {s r : Bytes}
    (h : skipFrom state stack s = .ok ((), r)) : r.length ≤ s.length := by
  fun_induction skipFrom state stack s <;>
    grind [→ length_lt_of_dropWhile, → Reader.rest_le]

def skipValue : Reader Unit where
  run := skipFrom .value []
  rest_le := skipFrom_rest_le

end TraceTimeline.Json
