import TraceTimeline.Number.Binary

/-!
# The fewest digits that read back

A float stands for every real number that rounds to it, an interval around its exact value. Of the
decimals in that interval the shortest is written, and of several shortest ones the nearest to the
exact value. Where two are equally near, a `Tie` decides.

The search descends from coarse decimal grids to fine ones and stops at the first grid with a point
in the interval. Only the two grid points next to the exact value have to be looked at: if a grid has
any point in the interval, one of these two is in it.
-/

namespace TraceTimeline.Number

/-- Which of two equally near decimals is taken. -/
inductive Tie where
  /-- The one with an even last digit. -/
  | toEven
  /-- The one further from zero. -/
  | away
  deriving DecidableEq, Repr

structure Decimal where
  digits : Nat
  exponent : Int
  deriving DecidableEq, Repr

/-- A whole quotient rounded to the nearest, ties decided by `tie`. -/
def roundDiv (numerator denominator : Nat) (tie : Tie) : Nat :=
  let low := numerator / denominator
  let twice := 2 * (numerator % denominator)
  if twice < denominator then low
  else if denominator < twice then low + 1
  else match tie with
    | .away => low + 1
    | .toEven => if low % 2 = 0 then low else low + 1

namespace Decimal

/-- The reals that round to `significand · 2 ^ exponent`, in quarters of its last binary place: from
`4 · significand - below` to `4 · significand + 2`. Below a power of two the floats lie closer. -/
def marginBelow (significand : Nat) (exponent : Int) : Nat :=
  if significand = Binary.implicitBit ∧ Binary.leastExponent < exponent then 1 else 2

/-- The point on the grid of multiples of `10 ^ place` that is written for
`significand · 2 ^ exponent`, or `none` where neither neighbour of the value lies in the interval of
reals that round to it. The ends belong to the interval when the significand is even. -/
def onGrid? (tie : Tie) (significand : Nat) (exponent place : Int) : Option Decimal :=
  -- All numbers below are whole: the value, the ends of the interval and the points of the grid are
  -- multiplied by the same powers of two and ten.
  let quarter := exponent - 2
  let scale := Nat.pow 2 quarter.toNat * Nat.pow 10 (-place).toNat
  let unit := Nat.pow 2 (-quarter).toNat * Nat.pow 10 place.toNat
  let value := 4 * significand * scale
  let least := (4 * significand - marginBelow significand exponent) * scale
  let greatest := (4 * significand + 2) * scale
  let inside (n : Nat) : Bool :=
    if significand % 2 = 0 then least ≤ n * unit && n * unit ≤ greatest
    else least < n * unit && n * unit < greatest
  let low := value / unit
  let nearest := roundDiv value unit tie
  if inside low && inside (low + 1) then some ⟨nearest, place⟩
  else if inside low then some ⟨low, place⟩
  else if inside (low + 1) then some ⟨low + 1, place⟩
  else none

/-- A decimal place no number around `significand · 2 ^ exponent` reaches: a little more than its
logarithm, with `30103 / 100000` just above the logarithm of two. -/
def placeAbove (significand : Nat) (exponent : Int) : Int :=
  ((Nat.log2 significand + exponent + 1) * 30103).fdiv 100000 + 2

/-- `significand · 2 ^ exponent` with all its digits. -/
def exact (significand : Nat) (exponent : Int) : Decimal :=
  if 0 ≤ exponent then ⟨significand * Nat.pow 2 exponent.toNat, 0⟩
  else ⟨significand * Nat.pow 5 (-exponent).toNat, exponent⟩

/-- Tries the grid at `place` and then the `grids - 1` finer ones. -/
def search (tie : Tie) (significand : Nat) (exponent : Int) : (grids : Nat) → (place : Int) → Decimal
  | 0, _ => exact significand exponent
  | grids + 1, place =>
    match onGrid? tie significand exponent place with
    | some decimal => decimal
    | none => search tie significand exponent grids (place - 1)

/-- How many grids are tried. Seventeen digits always suffice, and the first grid may lie up to four
places above the leading digit. -/
def grids : Nat := 22

/-- The shortest decimal that reads back as `significand · 2 ^ exponent`, for a positive
significand. -/
def shortest (tie : Tie) (significand : Nat) (exponent : Int) : Decimal :=
  search tie significand exponent grids (placeAbove significand exponent)

end Decimal
end TraceTimeline.Number
