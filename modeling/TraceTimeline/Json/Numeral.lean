import TraceTimeline.Json.Reader

/-!
# Reading JSON numbers

The grammar of a number is one thing, its value another. The value of a number that is no small
integer is not the nearest float. Its digits are gathered into a significand of at most 64 bits, the
significand becomes a float, and that float is multiplied or divided by a float power of ten. Each of
these steps rounds, so the result may lie a little off the nearest float. Numbers too large for a
float are refused.
-/

namespace TraceTimeline.Json

structure Numeral where
  negative : Bool
  whole : List Nat
  fraction : Option (List Nat)
  exponent : Option Int
  deriving DecidableEq, Repr

def digitsValue (digits : List Nat) : Nat :=
  digits.foldl (fun value d => value * 10 + d) 0

namespace Numeral

open Reader

def digits : Reader (List Nat) := do
  let bytes ← takeWhile isDigit
  return bytes.map fun b => (b - 0x30).toNat

/-- A run of one or more digits. Where the input ends instead, that is reported as `atEnd`. -/
def someDigits (atEnd : Fault) : Reader (List Nat) := do
  let found ← digits
  if found.isEmpty then
    match ← peek with
    | none => fail atEnd
    | some _ => fail .malformed
  else return found

/-- The digits in front of the point. A zero stands there alone. -/
def wholePart (atEnd : Fault) : Reader (List Nat) := do
  if (← peek) = some (ascii '0') then
    drop
    if (← peek).any isDigit then fail .malformed else return [0]
  else someDigits atEnd

def fractionPart (atEnd : Fault) : Reader (Option (List Nat)) := do
  if (← peek) = some (ascii '.') then
    drop
    let found ← someDigits atEnd
    return some found
  else return none

def exponentPart (atEnd : Fault) : Reader (Option Int) := do
  let sign ← peek
  if sign = some (ascii 'e') ∨ sign = some (ascii 'E') then
    drop
    let sign ← peek
    if sign = some (ascii '+') ∨ sign = some (ascii '-') then drop
    let found ← someDigits atEnd
    let value : Int := digitsValue found
    return some (if sign = some (ascii '-') then -value else value)
  else return none

/-- A number. Where it breaks off at the end of the input, that is reported as `atEnd`. -/
def read (atEnd : Fault) : Reader Numeral := do
  let negative := (← peek) = some (ascii '-')
  if negative then drop
  let whole ← wholePart atEnd
  let fraction ← fractionPart atEnd
  let exponent ← exponentPart atEnd
  return { negative, whole, fraction, exponent }

/-- The first number that a significand cannot hold. -/
def significandLimit : Nat := UInt64.size

/-- Appends digits to a significand as long as it can hold them, and returns the digits left over. -/
def gather (significand : Nat) : List Nat → Nat × List Nat
  | [] => (significand, [])
  | d :: ds =>
    if significand * 10 + d < significandLimit then gather (significand * 10 + d) ds
    else (significand, d :: ds)

def greatestPower : Nat := 308

def powerOfTen (n : Nat) : Float :=
  Float.ofScientific 1 false n

/-- Multiplies a float by `10 ^ exponent`, in one step where the power is a float, and downwards in
several. There is no result where it would be infinite. -/
def scale (x : Float) (exponent : Int) : Option Float :=
  if exponent.natAbs ≤ greatestPower then
    if 0 ≤ exponent then
      let y := x * powerOfTen exponent.natAbs
      if y.isInf then none else some y
    else some (x / powerOfTen exponent.natAbs)
  -- The power is no float, so the exponent is worked off in steps. A zero stays one in every step.
  else if x == 0 then some x
  else if 0 ≤ exponent then none
  else scale (x / powerOfTen greatestPower) (exponent + greatestPower)
termination_by exponent.natAbs
decreasing_by
  simp only [greatestPower] at *
  omega

/-- The value as a float, unless it would be infinite. Digits of the whole part that the significand
cannot hold count as powers of ten, digits of the fraction not at all. -/
def float? (numeral : Numeral) : Option Float :=
  let (front, wholeLeft) := gather 0 numeral.whole
  let fraction := numeral.fraction.getD []
  let (significand, fractionLeft) := gather front fraction
  let places : Int := fraction.length - fractionLeft.length
  let exponent := numeral.exponent.getD 0 + wholeLeft.length - places
  (scale significand.toUInt64.toFloat exponent).map fun x => if numeral.negative then -x else x

/-- The value as a natural number: there is one if the number has no sign, no point and no power of
ten, and fits 64 bits. -/
def natural? (numeral : Numeral) : Option Nat :=
  match numeral with
  | ⟨false, whole, none, none⟩ =>
    match gather 0 whole with
    | (n, []) => some n
    | _ => none
  | _ => none

end Numeral
end TraceTimeline.Json
