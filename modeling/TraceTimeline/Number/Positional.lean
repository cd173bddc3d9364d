import TraceTimeline.Number.Shortest

/-!
# Decimals as text

A decimal is written either in full (`positional`) or with one digit in front of the point and a
power of ten (`scientific`). Messages write a float in full, with the fewest digits that read back;
measured lengths are written with a fixed number of decimal places.
-/

namespace TraceTimeline.Number

def naturalText (n : Nat) : List Char :=
  Nat.toDigits 10 n

def signed (negative : Bool) (s : List Char) : List Char :=
  if negative then '-' :: s else s

namespace Decimal

/-- The digits in front of the decimal point and behind it. In front there is at least one. -/
def parts (d : Decimal) : List Char × List Char :=
  if 0 ≤ d.exponent then (naturalText d.digits ++ List.replicate d.exponent.toNat '0', [])
  else
    let places := (-d.exponent).toNat
    let padded := (naturalText d.digits).leftpad (places + 1) '0'
    padded.splitAt (padded.length - places)

/-- Written in full. A whole number gets `wholeEnd` behind it, in place of a fraction. -/
def positional (wholeEnd : List Char) (d : Decimal) : List Char :=
  let (whole, fraction) := d.parts
  if fraction.isEmpty then whole ++ wholeEnd else whole ++ '.' :: fraction

/-- The power of ten just above the number: it is `0.d₁d₂… · 10 ^ magnitude`. -/
def magnitude (d : Decimal) : Int :=
  (naturalText d.digits).length + d.exponent

/-- Written with one digit in front of the point and the sign of the power of ten always shown. -/
def scientific (d : Decimal) : List Char :=
  let power := d.magnitude - 1
  let mantissa := match naturalText d.digits with
    | first :: second :: rest => first :: '.' :: second :: rest
    | short => short
  mantissa ++ 'e' :: (if power < 0 then '-' else '+') :: naturalText power.natAbs

end Decimal

/-- A float in a message: the fewest digits that read back, in full, a tie away from zero. A whole
number is written without a point. -/
def plainText (x : Float) : String :=
  match Binary.ofFloat x with
  | .notANumber => "NaN"
  | .infinite negative => String.ofList (signed negative "inf".toList)
  | .finite negative significand exponent =>
    let decimal := if significand = 0 then ⟨0, 0⟩ else Decimal.shortest .away significand exponent
    String.ofList (signed negative (decimal.positional []))

/-- A float with a fixed number of decimal places. The exact value is rounded, a tie to the even
last digit, and a negative number that rounds to zero keeps its sign. -/
def fixedText (places : Nat) (x : Float) : String :=
  match Binary.ofFloat x with
  | .notANumber => "NaN"
  | .infinite negative => String.ofList (signed negative "inf".toList)
  | .finite negative significand exponent =>
    let units :=
      roundDiv (significand * Nat.pow 2 exponent.toNat * Nat.pow 10 places)
        (Nat.pow 2 (-exponent).toNat) .toEven
    String.ofList (signed negative (Decimal.positional [] ⟨units, -places⟩))

end TraceTimeline.Number
