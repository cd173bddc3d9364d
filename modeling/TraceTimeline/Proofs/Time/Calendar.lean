import TraceTimeline.Time.Calendar
import Mathlib.Order.Monotone.Basic
import Mathlib.Tactic.IntervalCases

/-!
# Counting days

The calendar said day by day: months have their lengths, every fourth year has a leap day apart from
three centuries in four, and a date is followed by the next day of its month or by the first day of
the next one. `Date.IsDay` counts from 1 January 1970 in this way, forward and back. Main statements:
`Date.ofDays` gives the date that is reached by counting, and `Date.toDays` its number.

Both functions work with years that begin in March, where the leap day is the last day. So the proofs
go by the year, the month and the day in it, all counted from March and from zero.
-/

namespace TraceTimeline.Time.Date

def IsLeapYear (year : ℤ) : Prop :=
  year % 4 = 0 ∧ (year % 100 ≠ 0 ∨ year % 400 = 0)

instance (year : ℤ) : Decidable (IsLeapYear year) :=
  inferInstanceAs (Decidable (_ ∧ _))

def monthDays (year : ℤ) (month : ℕ) : ℕ :=
  match month with
  | 2 => if IsLeapYear year then 29 else 28
  | 4 | 6 | 9 | 11 => 30
  | _ => 31

theorem monthDays_le (year : ℤ) (month : ℕ) : monthDays year month ≤ 31 := by
  unfold monthDays
  split
  · split <;> decide
  all_goals decide

structure IsValid (date : Date) : Prop where
  month_pos : 1 ≤ date.month
  month_le : date.month ≤ 12
  day_pos : 1 ≤ date.day
  day_le : date.day ≤ monthDays date.year date.month

def next (date : Date) : Date :=
  if date.day < monthDays date.year date.month then ⟨date.year, date.month, date.day + 1⟩
  else if date.month < 12 then ⟨date.year, date.month + 1, 1⟩
  else ⟨date.year + 1, 1, 1⟩

/-- The date that is reached so many days after 1 January 1970, counted day by day. -/
inductive IsDay : Date → ℤ → Prop
  | epoch : IsDay ⟨1970, 1, 1⟩ 0
  | next {date : Date} {n : ℤ} : IsDay date n → IsDay date.next (n + 1)
  | previous {date : Date} {n : ℤ} : date.IsValid → IsDay date.next (n + 1) → IsDay date n

/-! ## Years from March -/

/-- The day on which a year begins, if it begins in March. -/
def marchStart (year : ℤ) : ℤ :=
  365 * year + year / 4 - year / 100 + year / 400 - marchOffset

/-- The days of a year that begins in March and ends with the leap day of the next. -/
def marchDays (year : ℤ) : ℕ :=
  if IsLeapYear (year + 1) then 366 else 365

theorem marchStart_succ (year : ℤ) : marchStart (year + 1) = marchStart year + marchDays year := by
  unfold marchStart marchDays
  by_cases hleap : IsLeapYear (year + 1)
  · rw [if_pos hleap]
    unfold IsLeapYear at hleap
    omega
  · rw [if_neg hleap]
    unfold IsLeapYear at hleap
    omega

/-- The date of a day in a month, both counted from zero and the months from March. -/
def ofMarch (year : ℤ) (month day : ℕ) : Date :=
  if month < 10 then ⟨year, month + 3, day + 1⟩ else ⟨year + 1, month - 9, day + 1⟩

def marchEnd (year : ℤ) (month : ℕ) : ℕ :=
  if month < 11 then daysBefore (month + 1) else marchDays year

structure InYear (year : ℤ) (month day : ℕ) : Prop where
  month_le : month ≤ 11
  lt_end : daysBefore month + day < marchEnd year month

variable {year : ℤ} {month day : ℕ} {date : Date} {n : ℤ}

theorem marchDays_bounds (year : ℤ) : 365 ≤ marchDays year ∧ marchDays year ≤ 366 := by
  unfold marchDays
  split <;> decide

theorem InYear.lt (h : InYear year month day) : daysBefore month + day < marchDays year := by
  have hdays := (marchDays_bounds year).1
  refine h.lt_end.trans_le ?_
  have hmonth := h.month_le
  unfold marchEnd daysBefore
  split <;> omega

/-- The month is found again by one formula. -/
theorem InYear.month_eq (h : InYear year month day) :
    (5 * (daysBefore month + day) + 2) / 153 = month := by
  obtain ⟨hmonth, hend⟩ := h
  have hdays := (marchDays_bounds year).2
  unfold marchEnd at hend
  unfold daysBefore at *
  split at hend <;> omega

theorem exists_inYear {d : ℕ} (h : d < marchDays year) :
    ∃ month day, InYear year month day ∧ daysBefore month + day = d := by
  have hdays := (marchDays_bounds year).2
  have hbefore : daysBefore ((5 * d + 2) / 153) ≤ d := by
    unfold daysBefore
    omega
  have hsum := Nat.add_sub_of_le hbefore
  refine ⟨(5 * d + 2) / 153, d - daysBefore ((5 * d + 2) / 153), ⟨by omega, ?_⟩, hsum⟩
  rw [hsum]
  unfold marchEnd daysBefore
  split <;> omega

theorem daysBefore_add_monthDays (h : month ≤ 11) :
    daysBefore month + monthDays (ofMarch year month day).year (ofMarch year month day).month =
      marchEnd year month := by
  unfold marchEnd marchDays
  by_cases hleap : IsLeapYear (year + 1) <;> interval_cases month <;>
    simp [ofMarch, monthDays, daysBefore, hleap]

theorem day_ofMarch : (ofMarch year month day).day = day + 1 := by
  unfold ofMarch
  split <;> rfl

/-- The days of all years from March are the dates that there are. -/
theorem isValid_iff :
    date.IsValid ↔ ∃ year month day, InYear year month day ∧ date = ofMarch year month day := by
  constructor
  · rintro ⟨hpos, hle, hday, hlast⟩
    obtain ⟨year, month, hmonth, heq⟩ :
        ∃ year month, month ≤ 11 ∧ date = ofMarch year month (date.day - 1) := by
      obtain ⟨year, month, day⟩ := date
      dsimp only at hpos hle hday ⊢
      by_cases hmarch : 3 ≤ month
      · refine ⟨year, month - 3, by omega, ?_⟩
        rw [ofMarch, if_pos (by omega), Nat.sub_add_cancel hmarch, Nat.sub_add_cancel hday]
      · refine ⟨year - 1, month + 9, by omega, ?_⟩
        rw [ofMarch, if_neg (by omega), Int.sub_add_cancel, Nat.add_sub_cancel,
          Nat.sub_add_cancel hday]
    refine ⟨year, month, date.day - 1, ⟨hmonth, ?_⟩, heq⟩
    have hend := @daysBefore_add_monthDays year month (date.day - 1) hmonth
    rw [← heq] at hend
    omega
  · rintro ⟨year, month, day, ⟨hmonth, hend⟩, rfl⟩
    have hlast := @daysBefore_add_monthDays year month day hmonth
    have hday := @day_ofMarch year month day
    refine ⟨?_, ?_, by omega, by omega⟩
    all_goals
      unfold ofMarch
      split <;> dsimp only <;> omega

theorem toDays_ofMarch (h : month ≤ 11) :
    (ofMarch year month day).toDays = marchStart year + (daysBefore month + day : ℕ) := by
  unfold toDays ofMarch marchStart cycleDays daysBefore
  split <;> dsimp only <;> split <;> omega

/-- Behind a day that is not the last of its month comes the next one. -/
theorem next_ofMarch_of_lt (h : month ≤ 11) (hday : daysBefore month + day + 1 < marchEnd year month) :
    (ofMarch year month day).next = ofMarch year month (day + 1) := by
  have hlast := @daysBefore_add_monthDays year month day h
  rw [next, if_pos (by rw [day_ofMarch]; omega), day_ofMarch]
  unfold ofMarch
  split <;> rfl

/-- Behind the last day of a month comes the first of the next month, in the same year or, behind
February, in the next one. -/
theorem next_ofMarch_of_eq (h : month ≤ 11) (hday : daysBefore month + day + 1 = marchEnd year month) :
    (ofMarch year month day).next =
      if month < 11 then ofMarch year (month + 1) 0 else ofMarch (year + 1) 0 0 := by
  have hlast := @daysBefore_add_monthDays year month day h
  rw [next, if_neg (by rw [day_ofMarch]; omega)]
  clear hday hlast
  interval_cases month <;> rfl

/-- The day behind a day of a year is a day of this or the next year, with the next number. -/
theorem exists_next_ofMarch (h : InYear year month day) :
    ∃ year' month' day', InYear year' month' day' ∧
      (ofMarch year month day).next = ofMarch year' month' day' ∧
      marchStart year' + (daysBefore month' + day' : ℕ) =
        marchStart year + (daysBefore month + day : ℕ) + 1 := by
  obtain ⟨hmonth, hend⟩ := h
  have hdays := (marchDays_bounds year).1
  rcases Nat.lt_or_eq_of_le (Nat.succ_le_of_lt hend) with hlt | hlast
  · exact ⟨year, month, day + 1, ⟨hmonth, hlt⟩, next_ofMarch_of_lt hmonth hlt, by push_cast; omega⟩
  · have hnext := next_ofMarch_of_eq hmonth hlast
    unfold marchEnd at hlast
    -- Counted from March, the last month of a year is February.
    by_cases hfebruary : month < 11
    · rw [if_pos hfebruary] at hnext hlast
      refine ⟨year, month + 1, 0, ⟨hfebruary, ?_⟩, hnext, by omega⟩
      unfold marchEnd daysBefore
      split <;> omega
    · rw [if_neg hfebruary] at hnext hlast
      have hzero : daysBefore 0 = 0 := rfl
      have hfirst : daysBefore 0 + 0 < marchEnd (year + 1) 0 := by
        rw [marchEnd, if_pos (by decide)]
        decide
      refine ⟨year + 1, 0, 0, ⟨Nat.zero_le 11, hfirst⟩, hnext, ?_⟩
      rw [marchStart_succ, hzero]
      omega

theorem isValid_next (h : date.IsValid) : date.next.IsValid := by
  obtain ⟨year, month, day, hyear, rfl⟩ := isValid_iff.mp h
  obtain ⟨year', month', day', hyear', hnext, -⟩ := exists_next_ofMarch hyear
  exact isValid_iff.mpr ⟨year', month', day', hyear', hnext⟩

/-- **The number of the next date is the next number.** -/
theorem toDays_next (h : date.IsValid) : date.next.toDays = date.toDays + 1 := by
  obtain ⟨year, month, day, hyear, rfl⟩ := isValid_iff.mp h
  obtain ⟨year', month', day', hyear', hnext, hnumber⟩ := exists_next_ofMarch hyear
  rw [hnext, toDays_ofMarch hyear'.month_le, toDays_ofMarch hyear.month_le, hnumber]

/-! ## The date of a number -/

/-- The days of four hundred years that lie before a year. -/
def cycleStart (year : ℕ) : ℕ :=
  365 * year + year / 4 - year / 100 + year / 400

theorem marchStart_of_cycle (cycle : ℤ) (year : ℕ) :
    marchStart (cycle * 400 + year) = cycle * cycleDays + cycleStart year - marchOffset := by
  unfold marchStart cycleStart cycleDays
  omega

theorem cycleStart_succ (cycle : ℤ) (year : ℕ) :
    cycleStart (year + 1) = cycleStart year + marchDays (cycle * 400 + year) := by
  have hnext := marchStart_succ (cycle * 400 + year)
  have hcast : cycle * 400 + (year : ℤ) + 1 = cycle * 400 + (year + 1 : ℕ) := by
    rw [add_assoc, Nat.cast_succ]
  rw [hcast, marchStart_of_cycle, marchStart_of_cycle] at hnext
  omega

/-- A day of the cycle, counted as if there were no leap days. -/
def withoutLeapDays (day : ℕ) : ℕ :=
  day - day / 1460 + day / 36524 - day / 146096

theorem monotone_withoutLeapDays : Monotone withoutLeapDays := by
  refine monotone_nat_of_le_succ fun day => ?_
  unfold withoutLeapDays
  omega

/-- Without the leap days the years begin every 365 days. -/
theorem withoutLeapDays_cycleStart : ∀ year < 400,
    365 * year ≤ withoutLeapDays (cycleStart year) ∧
      withoutLeapDays (cycleStart (year + 1) - 1) < 365 * (year + 1) := by
  decide +kernel

/-- A day between the first and the last of a year is counted to that year. -/
theorem withoutLeapDays_div {year day : ℕ} (hyear : year < 400) (hfirst : cycleStart year ≤ day)
    (hlast : day < cycleStart (year + 1)) : withoutLeapDays day / 365 = year := by
  obtain ⟨hlow, hhigh⟩ := withoutLeapDays_cycleStart year hyear
  have hfirst := monotone_withoutLeapDays hfirst
  have hlast := monotone_withoutLeapDays (Nat.le_sub_one_of_lt hlast)
  omega

theorem exists_cycleStart_le {day : ℕ} : ∀ {years : ℕ}, day < cycleStart years →
    ∃ year < years, cycleStart year ≤ day ∧ day < cycleStart (year + 1)
  | 0, h => absurd h (Nat.not_lt_zero day)
  | years + 1, h => by
      by_cases hlt : day < cycleStart years
      · obtain ⟨year, hyear, hday⟩ := exists_cycleStart_le hlt
        exact ⟨year, hyear.trans (Nat.lt_succ_self years), hday⟩
      · exact ⟨years, Nat.lt_succ_self years, Nat.le_of_not_lt hlt, h⟩

/-- **The date of a number** is the day with that number in some year. -/
theorem ofDays_marchStart (h : InYear year month day) :
    ofDays (marchStart year + (daysBefore month + day : ℕ)) = ofMarch year month day := by
  obtain ⟨cycle, y, hy, rfl⟩ : ∃ (cycle : ℤ) (y : ℕ), y < 400 ∧ year = cycle * 400 + y :=
    ⟨year / 400, (year % 400).toNat, by omega, by omega⟩
  have hmonth := h.month_eq
  have hlast : cycleStart y + (daysBefore month + day) < cycleStart (y + 1) := by
    rw [cycleStart_succ cycle y]
    exact Nat.add_lt_add_left h.lt _
  generalize hd : daysBefore month + day = d at hmonth hlast
  have hshifted : marchStart (cycle * 400 + y) + d + marchOffset =
      cycle * cycleDays + (cycleStart y + d : ℕ) := by
    rw [marchStart_of_cycle, Nat.cast_add]
    omega
  have hcycle : (cycle * cycleDays + (cycleStart y + d : ℕ)) / cycleDays = cycle ∧
      ((cycle * cycleDays + (cycleStart y + d : ℕ)) % cycleDays).toNat = cycleStart y + d := by
    unfold cycleStart cycleDays at *
    omega
  have hyear := withoutLeapDays_div hy (Nat.le_add_right _ d) hlast
  have hrest : cycleStart y + d - (365 * y + y / 4 - y / 100) = d := by
    unfold cycleStart
    omega
  unfold withoutLeapDays at hyear
  unfold ofDays ofMarch
  dsimp only
  rw [hshifted, hcycle.1, hcycle.2, hyear, hrest, hmonth, ← hd, Nat.add_sub_cancel_left]

theorem exists_marchStart (n : ℤ) :
    ∃ year month day, InYear year month day ∧
      n = marchStart year + (daysBefore month + day : ℕ) := by
  obtain ⟨cycle, d, hd, hn⟩ : ∃ (cycle : ℤ) (d : ℕ), d < cycleStart 400 ∧
      n = cycle * cycleDays + d - marchOffset := by
    have hcycle : cycleStart 400 = cycleDays := by decide
    refine ⟨(n + marchOffset) / cycleDays, ((n + marchOffset) % cycleDays).toNat, ?_, ?_⟩
    all_goals
      rw [hcycle] at *
      unfold cycleDays
      omega
  obtain ⟨y, -, hfirst, hlast⟩ := exists_cycleStart_le hd
  rw [cycleStart_succ cycle y] at hlast
  obtain ⟨month, day, hyear, hday⟩ :=
    @exists_inYear (cycle * 400 + y) (d - cycleStart y) (by omega)
  refine ⟨cycle * 400 + y, month, day, hyear, ?_⟩
  rw [marchStart_of_cycle, hday, hn]
  omega

/-- The date of a number is a date that there is, and has that number. -/
theorem isValid_ofDays (n : ℤ) : (ofDays n).IsValid ∧ (ofDays n).toDays = n := by
  obtain ⟨year, month, day, hyear, rfl⟩ := exists_marchStart n
  rw [ofDays_marchStart hyear]
  exact ⟨isValid_iff.mpr ⟨year, month, day, hyear, rfl⟩, toDays_ofMarch hyear.month_le⟩

theorem ofDays_toDays (h : date.IsValid) : ofDays date.toDays = date := by
  obtain ⟨year, month, day, hyear, rfl⟩ := isValid_iff.mp h
  rw [toDays_ofMarch hyear.month_le, ofDays_marchStart hyear]

theorem next_ofDays (n : ℤ) : (ofDays n).next = ofDays (n + 1) := by
  obtain ⟨hvalid, hnumber⟩ := isValid_ofDays n
  rw [← ofDays_toDays (isValid_next hvalid), toDays_next hvalid, hnumber]

/-- **Counting day by day gives the date of a number.** -/
theorem isDay_ofDays (n : ℤ) : IsDay (ofDays n) n := by
  induction n using Int.induction_on with
  | zero => exact .epoch
  | succ n ih =>
      rw [← next_ofDays]
      exact ih.next
  | pred n ih =>
      refine .previous (isValid_ofDays _).1 ?_
      rw [next_ofDays, Int.sub_add_cancel]
      exact ih

/-- **The dates that there are, and no others, are reached by counting**, each at its number. -/
theorem isDay_iff : IsDay date n ↔ date.IsValid ∧ date.toDays = n := by
  constructor
  · intro h
    induction h with
    | epoch => exact ⟨⟨by decide, by decide, by decide, by decide⟩, by decide⟩
    | next _ ih =>
        obtain ⟨hvalid, rfl⟩ := ih
        exact ⟨isValid_next hvalid, toDays_next hvalid⟩
    | previous hvalid _ ih =>
        refine ⟨hvalid, ?_⟩
        have hnumber := toDays_next hvalid
        omega
  · rintro ⟨hvalid, rfl⟩
    have hday := isDay_ofDays date.toDays
    rwa [ofDays_toDays hvalid] at hday

end TraceTimeline.Time.Date
