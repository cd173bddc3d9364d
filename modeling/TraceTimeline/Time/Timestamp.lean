import TraceTimeline.Time.Calendar
import TraceTimeline.Number.Positional

/-!
# Instants as text

An instant is written in UTC as date and time of day, with as few groups of three fractional digits
as it needs. A nanosecond count of a full second or more stands for a leap second: it is accepted in
the last second of a minute only, and is written as second sixty.
-/

namespace TraceTimeline.Time

open Number

def firstDate : Date := ⟨-262143, 1, 1⟩

def lastDate : Date := ⟨262142, 12, 31⟩

/-- A natural number with zeros in front up to `width` digits. -/
def padded (width n : Nat) : List Char :=
  (naturalText n).leftpad width '0'

/-- Years of four digits are written as they are, all others with a sign and at least four digits. -/
def yearText (year : Int) : List Char :=
  if 0 ≤ year ∧ year ≤ 9999 then padded 4 year.toNat
  else (if year < 0 then '-' else '+') :: padded 4 year.natAbs

/-- The fraction of a second: none, or three, six or nine digits, whichever is the first to be
exact. -/
def fractionText (nanoseconds : Nat) : List Char :=
  if nanoseconds = 0 then []
  else if nanoseconds % 1000000 = 0 then '.' :: padded 3 (nanoseconds / 1000000)
  else if nanoseconds % 1000 = 0 then '.' :: padded 6 (nanoseconds / 1000)
  else '.' :: padded 9 nanoseconds

def nanosecondsPerSecond : Nat := 1000000000

/-- The instant `seconds` and `nanoseconds` after the start of 1970, or `none` where the date is out
of range or the nanoseconds are no fraction of that second. -/
def timestamp? (seconds : Int) (nanoseconds : Nat) : Option String :=
  let days := seconds / 86400
  let secondOfDay := (seconds % 86400).toNat
  let second := secondOfDay % 60
  let leap := nanosecondsPerSecond ≤ nanoseconds
  if days < firstDate.toDays ∨ lastDate.toDays < days then none
  else if 2 * nanosecondsPerSecond ≤ nanoseconds ∨ (leap ∧ second ≠ 59) then none
  else
    let date := Date.ofDays days
    some <| String.ofList <|
      yearText date.year ++ '-' :: padded 2 date.month ++ '-' :: padded 2 date.day ++
      'T' :: padded 2 (secondOfDay / 3600) ++ ':' :: padded 2 (secondOfDay / 60 % 60) ++
      ':' :: padded 2 (second + nanoseconds / nanosecondsPerSecond) ++
      fractionText (nanoseconds % nanosecondsPerSecond) ++ "+00:00".toList

/-- The instant so many seconds after the start of 1970. The fraction is cut to whole nanoseconds in
float arithmetic, and "not a number" counts as the start of 1970. Instants that cannot be written are
given as the plain number. -/
def epochText (seconds : Float) : String :=
  match Binary.ofFloat seconds with
  | .notANumber => (timestamp? 0 0).getD (plainText seconds)
  | binary =>
    match binary.floor? with
    | none => plainText seconds
    | some whole =>
      let nanoseconds := ((seconds - Float.ofInt whole) * 1e9).toUInt32
      (timestamp? whole nanoseconds.toNat).getD (plainText seconds)

end TraceTimeline.Time
