import TraceTimeline.Number.Integer

/-!
# Reading a float

Times in a trace are decimal numbers: an optional sign, digits with at most one point among them and
at least one digit in all, and an optional power of ten. `inf`, `infinity` and `nan` are read too, in
any case. The result is the float nearest to the number as written; numbers too large for a float are
read as infinite.
-/

namespace TraceTimeline.Number

/-- An exponent counts no further once it has reached this bound, which lies far beyond every
float. -/
def exponentBound : Nat := 65536

def exponentDigits? (s : List Char) : Option Nat :=
  if s.isEmpty then none
  else
    s.foldlM (fun value c => (digit? c).map fun d =>
      if value < exponentBound then value * 10 + d else value) 0

/-- The power of ten behind a number, zero where none is written. -/
def exponent? : List Char → Option Int
  | [] => some 0
  | mark :: s =>
    if mark = 'e' ∨ mark = 'E' then
      match s with
      | '+' :: r => (exponentDigits? r).map Int.ofNat
      | '-' :: r => (exponentDigits? r).map fun n => -Int.ofNat n
      | r => (exponentDigits? r).map Int.ofNat
    else none

def nearestFloat (digits : Nat) (exponent : Int) : Float :=
  Float.ofScientific digits (exponent < 0) exponent.natAbs

def unsigned? (s : List Char) : Option Float :=
  let whole := s.takeWhile Char.isDigit
  let (fraction, rest) := match s.dropWhile Char.isDigit with
    | '.' :: r => (r.takeWhile Char.isDigit, r.dropWhile Char.isDigit)
    | r => ([], r)
  match digits? (whole ++ fraction), exponent? rest with
  | some digits, some exponent => some (nearestFloat digits (exponent - fraction.length))
  | _, _ => none

/-- The names of the floats that are no finite numbers. -/
def named? (s : List Char) : Option Float :=
  let name := s.map Char.toLower
  if name = "inf".toList ∨ name = "infinity".toList then some (1.0 / 0.0)
  else if name = "nan".toList then some (0.0 / 0.0)
  else none

def float? (s : String) : Option Float :=
  let read (r : List Char) := (named? r).or (unsigned? r)
  match s.toList with
  | '+' :: r => read r
  | '-' :: r => (read r).map fun x => -x
  | r => read r

end TraceTimeline.Number
