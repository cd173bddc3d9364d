import TraceTimeline.Json.Skip

/-!
# Reading JSON values of a known kind

Each reader expects a value of one kind. Where it meets a value of another kind it reads that value
first, if it is a scalar, so that a mistake in its spelling is reported rather than its kind.
-/

namespace TraceTimeline.Json.Reader

open Json

variable {α : Type}

/-- Whether a value that begins like this is a number. -/
def startsNumber (b : UInt8) : Bool :=
  b == ascii '-' || isDigit b

/-- A number whose value is within the range of floats. -/
def numeral : Reader (Numeral × Float) := do
  let numeral ← Numeral.read .truncated
  match numeral.float? with
  | some x => return (numeral, x)
  | none => fail .malformed

def otherKind : Reader α := do
  let b ← ahead
  if b = ascii '"' then
    drop
    let _ ← textAfterQuote
    fail .unfit
  else if b = ascii 'n' then
    literal ("null".toList.map ascii)
    fail .unfit
  else if b = ascii 't' then
    literal ("true".toList.map ascii)
    fail .unfit
  else if b = ascii 'f' then
    literal ("false".toList.map ascii)
    fail .unfit
  else if startsNumber b then
    let _ ← numeral
    fail .unfit
  else if b = ascii '[' ∨ b = ascii '{' then fail .unfit
  else fail .malformed

def text : Reader String := do
  let b ← ahead
  if b = ascii '"' then
    drop
    textAfterQuote
  else otherKind

def float : Reader Float := do
  let b ← ahead
  if startsNumber b then
    let (_, x) ← numeral
    return x
  else otherKind

def natural (limit : Nat) : Reader Nat := do
  let b ← ahead
  if startsNumber b then
    let (written, _) ← numeral
    match written.natural?.filter (· < limit) with
    | some n => return n
    | none => fail .unfit
  else otherKind

def uint32 : Reader UInt32 := do
  let n ← natural UInt32.size
  return UInt32.ofNat n

def uint64 : Reader UInt64 := do
  let n ← natural UInt64.size
  return UInt64.ofNat n

def null : Reader Unit := do
  let b ← ahead
  if b = ascii 'n' then literal ("null".toList.map ascii) else otherKind

/-- A value, or `null` in its place. -/
def optional (value : Reader α) : Reader (Option α) := do
  let b ← ahead
  if b = ascii 'n' then
    literal ("null".toList.map ascii)
    return none
  else
    let a ← value
    return some a

def list (value : Reader α) : Reader (List α) := do
  let b ← ahead
  if b = ascii '[' then
    drop
    let add (found : Array α) : Reader (Array α) := do
      let a ← value
      return found.push a
    let found ← items ']' add #[]
    return found.toList
  else otherKind

/-- Reads a whole input, which may end in white space. -/
def readAll (value : Reader α) (input : Bytes) : Except Fault α :=
  match value.run input with
  | .error fault => .error fault
  | .ok (a, rest) => if rest.all isSpace then .ok a else .error .malformed

end TraceTimeline.Json.Reader
