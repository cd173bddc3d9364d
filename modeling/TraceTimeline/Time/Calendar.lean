/-!
# The calendar

Dates of the Gregorian calendar, carried back and forward without limit. `Date.ofDays` and
`Date.toDays` count days from 1 January 1970. Both count years from March, so that the leap day is
the last day of a year and the lengths of the months follow one formula.
-/

namespace TraceTimeline.Time

/-- A day of the calendar, months and days counted from one. -/
structure Date where
  year : Int
  month : Nat
  day : Nat
  deriving DecidableEq, Repr

namespace Date

/-- Days in four hundred years, after which the calendar repeats. -/
def cycleDays : Nat := 146097

/-- The first day of March of the year zero, counted back from 1 January 1970. -/
def marchOffset : Int := 719468

/-- Days before a month, counted from the first of March, for months counted from March as zero. -/
def daysBefore (month : Nat) : Nat :=
  (153 * month + 2) / 5

/-- The date so many days after 1 January 1970. -/
def ofDays (days : Int) : Date :=
  let shifted := days + marchOffset
  let cycle := shifted / cycleDays
  let dayOfCycle := (shifted % cycleDays).toNat
  -- Without its leap days every year has the same length.
  let yearOfCycle :=
    (dayOfCycle - dayOfCycle / 1460 + dayOfCycle / 36524 - dayOfCycle / 146096) / 365
  let dayOfYear := dayOfCycle - (365 * yearOfCycle + yearOfCycle / 4 - yearOfCycle / 100)
  let marchMonth := (5 * dayOfYear + 2) / 153
  let day := dayOfYear - daysBefore marchMonth + 1
  let marchYear : Int := cycle * 400 + yearOfCycle
  if marchMonth < 10 then ⟨marchYear, marchMonth + 3, day⟩
  else ⟨marchYear + 1, marchMonth - 9, day⟩

/-- How many days after 1 January 1970 a date lies. -/
def toDays (date : Date) : Int :=
  let marchMonth := if 3 ≤ date.month then date.month - 3 else date.month + 9
  let marchYear := if 3 ≤ date.month then date.year else date.year - 1
  let cycle := marchYear / 400
  let yearOfCycle := (marchYear % 400).toNat
  let dayOfYear := daysBefore marchMonth + date.day - 1
  let dayOfCycle := 365 * yearOfCycle + yearOfCycle / 4 - yearOfCycle / 100 + dayOfYear
  cycle * cycleDays + dayOfCycle - marchOffset

end Date
end TraceTimeline.Time
