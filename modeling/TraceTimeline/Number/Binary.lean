/-!
# The exact value of a float

A finite float stands for `± significand · 2 ^ exponent`. All decimal output is computed from that
exact value with whole numbers, so no rounding happens on the way that the output rule does not ask
for.
-/

namespace TraceTimeline.Number

/-- What a float stands for. Zero keeps its sign. -/
inductive Binary where
  | notANumber
  | infinite (negative : Bool)
  | finite (negative : Bool) (significand : Nat) (exponent : Int)
  deriving DecidableEq, Repr

namespace Binary

/-- The significand of a float of normal size has its highest bit here, just above the bits of the
fraction. -/
def implicitBit : Nat := Nat.pow 2 52

def leastExponent : Int := -1074

/-- Takes a float apart: a sign bit, eleven bits that choose the exponent, and the fraction. -/
def ofFloat (x : Float) : Binary :=
  let bits := x.toBits.toNat
  let negative := decide (Nat.pow 2 63 ≤ bits)
  let field : Nat := bits / implicitBit % 2048
  let fraction : Nat := bits % implicitBit
  if field = 2047 then
    if fraction = 0 then infinite negative else notANumber
  else if field = 0 then finite negative fraction leastExponent
  else finite negative (implicitBit + fraction) (leastExponent + (field : Int) - 1)

/-- The greatest whole number that is not above the value; infinities and "not a number" have
none. -/
def floor? : Binary → Option Int
  | finite negative significand exponent =>
    let whole : Int := if negative then -(significand : Int) else significand
    if 0 ≤ exponent then some (whole * Nat.pow 2 exponent.toNat)
    else some (whole.fdiv (Nat.pow 2 (-exponent).toNat))
  | _ => none

end Binary
end TraceTimeline.Number
