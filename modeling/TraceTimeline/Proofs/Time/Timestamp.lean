import TraceTimeline.Proofs.Number.Grammar
import TraceTimeline.Proofs.Number.WholePart
import TraceTimeline.Proofs.Time.Calendar
import TraceTimeline.Trace.Summary

/-!
# Timestamps

The grammar of timestamps in UTC, and the instants that they denote, by a calendar that is counted
day by day. Main statements: an instant in range is written as a timestamp that denotes it; and the
start of a run is, within the rounding of the float arithmetic that splits it. The second of such a
timestamp is below sixty unless the run starts just before 1970, by less than a float can tell from
the whole second: there the fraction is rounded up to a second that is not carried.
-/

namespace TraceTimeline.Time

open Number

structure Moment where
  date : Date
  hour : ℕ
  minute : ℕ
  second : ℕ
  fraction : ℚ

/-- The parts of a moment are within their bounds. Second sixty is a leap second. -/
structure Moment.IsValid (moment : Moment) : Prop where
  date : moment.date.IsValid
  hour : moment.hour < 24
  minute : moment.minute < 60
  second : moment.second ≤ 60
  fraction_nonneg : 0 ≤ moment.fraction
  fraction_lt : moment.fraction < 1

/-- The moment lies so many seconds after the start of 1970. -/
def Moment.Denotes (moment : Moment) (instant : ℚ) : Prop :=
  ∃ days : ℤ, moment.date.IsDay days ∧
    instant = days * 86400 + moment.hour * 3600 + moment.minute * 60 + moment.second +
      moment.fraction

structure FieldText (width : ℕ) (s : List Char) (n : ℕ) : Prop where
  digits : DigitsText s n
  length : s.length = width

/-- A year of four digits stands as it is. Any other, which the usual four digits cannot hold, has a
sign and all its digits. -/
inductive YearText : List Char → ℤ → Prop
  | common {s : List Char} {n : ℕ} : FieldText 4 s n → YearText s n
  | late {s : List Char} {n : ℕ} : DigitsText s n → 9999 < n → YearText ('+' :: s) n
  | early {s : List Char} {n : ℕ} : DigitsText s n → 4 ≤ s.length → 0 < n → YearText ('-' :: s) (-n)

inductive FractionText : List Char → ℚ → Prop
  | none : FractionText [] 0
  | some {s : List Char} {n : ℕ} : DigitsText s n → FractionText ('.' :: s) (n / 10 ^ s.length)

inductive TimestampText : List Char → Moment → Prop
  | utc {year month day hour minute second fraction : List Char} {moment : Moment} :
      YearText year moment.date.year → FieldText 2 month moment.date.month →
      FieldText 2 day moment.date.day → FieldText 2 hour moment.hour →
      FieldText 2 minute moment.minute → FieldText 2 second moment.second →
      FractionText fraction moment.fraction →
      TimestampText (year ++ '-' :: month ++ '-' :: day ++ 'T' :: hour ++ ':' :: minute ++
        ':' :: second ++ fraction ++ "+00:00".toList) moment

/-! ## A timestamp says one thing -/

theorem YearText.unique {s s' t t' : List Char} {year year' : ℤ} (h : YearText s year)
    (h' : YearText s' year') (heq : s ++ '-' :: t = s' ++ '-' :: t') : year = year' ∧ t = t' := by
  cases h with
  | common h =>
      cases h' with
      | common h' =>
          obtain ⟨rfl, hrest⟩ := h.digits.unique h'.digits rfl rfl heq
          exact ⟨rfl, (List.cons.inj hrest).2⟩
      | late h' => exact absurd heq (h.digits.append_ne_cons rfl _ _)
      | early h' => exact absurd heq (h.digits.append_ne_cons rfl _ _)
  | late h =>
      cases h' with
      | common h' => exact absurd heq.symm (h'.digits.append_ne_cons rfl _ _)
      | late h' =>
          obtain ⟨rfl, hrest⟩ := h.unique h' rfl rfl (List.cons.inj heq).2
          exact ⟨rfl, (List.cons.inj hrest).2⟩
      | early h' => exact absurd (List.cons.inj heq).1 (by decide)
  | early h =>
      cases h' with
      | common h' => exact absurd heq.symm (h'.digits.append_ne_cons rfl _ _)
      | late h' => exact absurd (List.cons.inj heq).1 (by decide)
      | early h' =>
          obtain ⟨rfl, hrest⟩ := h.unique h' rfl rfl (List.cons.inj heq).2
          exact ⟨rfl, (List.cons.inj hrest).2⟩

theorem FractionText.unique {s : List Char} {q q' : ℚ} (h : FractionText s q)
    (h' : FractionText s q') : q = q' := by
  cases h with
  | none =>
      cases h'
      rfl
  | some h =>
      cases h' with
      | some h' => rw [h.value.symm.trans h'.value]

theorem FractionText.exists_cons {s : List Char} {q : ℚ} (h : FractionText s q) :
    ∃ c r, s ++ "+00:00".toList = c :: r ∧ c.isDigit = false := by
  cases h with
  | none => exact ⟨_, _, rfl, rfl⟩
  | some => exact ⟨_, _, rfl, rfl⟩

/-- No two moments share a timestamp. -/
theorem TimestampText.unique {s s' : List Char} {moment moment' : Moment}
    (h : TimestampText s moment) (h' : TimestampText s' moment') (heq : s = s') :
    moment = moment' := by
  obtain ⟨⟨year, month, day⟩, hour, minute, second, fraction⟩ := moment
  obtain ⟨⟨year', month', day'⟩, hour', minute', second', fraction'⟩ := moment'
  obtain ⟨hyear, hmonth, hday, hhour, hminute, hsecond, hfraction⟩ := h
  obtain ⟨hyear', hmonth', hday', hhour', hminute', hsecond', hfraction'⟩ := h'
  obtain ⟨c, r, hcons, hc⟩ := hfraction.exists_cons
  obtain ⟨c', r', hcons', hc'⟩ := hfraction'.exists_cons
  simp only [List.append_assoc, List.cons_append] at heq
  rw [hcons, hcons'] at heq
  -- Every field ends with a character that is no digit.
  obtain ⟨rfl, heq⟩ := hyear.unique hyear' heq
  obtain ⟨rfl, heq⟩ := hmonth.digits.unique hmonth'.digits rfl rfl heq
  obtain ⟨rfl, heq⟩ := hday.digits.unique hday'.digits rfl rfl (List.cons.inj heq).2
  obtain ⟨rfl, heq⟩ := hhour.digits.unique hhour'.digits rfl rfl (List.cons.inj heq).2
  obtain ⟨rfl, heq⟩ :=
    hminute.digits.unique hminute'.digits rfl rfl (List.cons.inj heq).2
  obtain ⟨rfl, heq⟩ := hsecond.digits.unique hsecond'.digits hc hc' (List.cons.inj heq).2
  rw [← hcons, ← hcons'] at heq
  obtain rfl := List.append_cancel_right heq
  obtain rfl := hfraction.unique hfraction'
  rfl

theorem Moment.Denotes.unique {moment : Moment} {instant instant' : ℚ}
    (h : moment.Denotes instant) (h' : moment.Denotes instant') : instant = instant' := by
  obtain ⟨days, hdays, rfl⟩ := h
  obtain ⟨days', hdays', rfl⟩ := h'
  rw [← (Date.isDay_iff.mp hdays).2, ← (Date.isDay_iff.mp hdays').2]

/-! ## Fields -/

theorem digitsText_padded (width n : ℕ) : DigitsText (padded width n) n := by
  have hdigits := digitsText_naturalText n
  have hzeros : ∀ k : ℕ, (List.replicate k '0').foldl
      (fun value c => value * 10 + (c.toNat - '0'.toNat)) 0 = 0 := fun k => by
    induction k with
    | zero => rfl
    | succ k ih => exact ih
  unfold padded List.leftpad
  refine ⟨List.append_ne_nil_of_right_ne_nil _ hdigits.ne_nil, fun c hc => ?_, ?_⟩
  · rcases List.mem_append.mp hc with hc | hc
    · rw [List.eq_of_mem_replicate hc]
      rfl
    · exact hdigits.isDigit c hc
  · rw [List.foldl_append, hzeros]
    exact hdigits.value

theorem fieldText_padded {width n : ℕ} (hpos : 0 < width) (h : n < 10 ^ width) :
    FieldText width (padded width n) n where
  digits := digitsText_padded width n
  length := by
    have hlength : (naturalText n).length ≤ width :=
      (Nat.length_toDigits_le_iff (by decide) hpos).mpr h
    rw [padded, List.length_leftpad, Nat.max_eq_left hlength]

theorem yearText_yearText (year : ℤ) : YearText (yearText year) year := by
  unfold yearText
  split
  · rename_i hyear
    have hfield : FieldText 4 (padded 4 year.toNat) year.toNat :=
      fieldText_padded (by decide) (by omega)
    have := YearText.common hfield
    rwa [Int.toNat_of_nonneg hyear.1] at this
  · have hdigits := digitsText_padded 4 year.natAbs
    split
    · have hlength : 4 ≤ (padded 4 year.natAbs).length := by
        rw [padded, List.length_leftpad]
        exact Nat.le_max_left _ _
      have := YearText.early hdigits hlength (by omega)
      rwa [show -(year.natAbs : ℤ) = year by omega] at this
    · have := YearText.late hdigits (by omega)
      rwa [show (year.natAbs : ℤ) = year by omega] at this

/-- The fraction that is written has as many digits as it needs. -/
theorem fractionText_fractionText {n : ℕ} (h : n < 10 ^ 9) :
    FractionText (fractionText n) (n / 10 ^ 9) := by
  have hfraction : ∀ {width m : ℕ} (scale : ℕ), 0 < width → 10 ^ width * scale = 10 ^ 9 →
      n = m * scale → FractionText ('.' :: padded width m) (n / 10 ^ 9) := by
    intro width m scale hpos hscale hn
    have hscale' : 0 < scale := Nat.pos_of_mul_pos_left (hscale ▸ (by decide : 0 < 10 ^ 9))
    have hm : m < 10 ^ width := Nat.lt_of_mul_lt_mul_right (a := scale) (by omega)
    have hvalue : (n : ℚ) / 10 ^ 9 = m / 10 ^ width := by
      rw [div_eq_div_iff (by positivity) (by positivity), hn]
      exact_mod_cast (by rw [← hscale]; ring : m * scale * 10 ^ width = m * 10 ^ 9)
    have hfield := fieldText_padded hpos hm
    have htext := FractionText.some hfield.digits
    rwa [hfield.length, ← hvalue] at htext
  unfold fractionText
  split
  · rename_i hzero
    rw [hzero, Nat.cast_zero, zero_div]
    exact FractionText.none
  split
  · exact hfraction 1000000 (by decide) (by decide) (by omega)
  split
  · exact hfraction 1000 (by decide) (by decide) (by omega)
  · exact hfraction 1 (by decide) (by decide) (by omega)

/-! ## Instants -/

structure InRange (seconds : ℤ) : Prop where
  first : firstDate.toDays * 86400 ≤ seconds
  last : seconds < (lastDate.toDays + 1) * 86400

def momentOf (seconds : ℤ) (nanoseconds : ℕ) : Moment where
  date := Date.ofDays (seconds / 86400)
  hour := (seconds % 86400).toNat / 3600
  minute := (seconds % 86400).toNat / 60 % 60
  second := (seconds % 86400).toNat % 60 + nanoseconds / nanosecondsPerSecond
  fraction := (nanoseconds % nanosecondsPerSecond : ℕ) / 10 ^ 9

variable {seconds : ℤ} {nanoseconds : ℕ}

theorem denotes_momentOf (seconds : ℤ) (nanoseconds : ℕ) :
    (momentOf seconds nanoseconds).Denotes (seconds + nanoseconds / 10 ^ 9) := by
  refine ⟨seconds / 86400, Date.isDay_ofDays _, ?_⟩
  have hseconds : seconds = seconds / 86400 * 86400 +
      ((seconds % 86400).toNat / 3600 : ℕ) * 3600 + ((seconds % 86400).toNat / 60 % 60 : ℕ) * 60 +
        ((seconds % 86400).toNat % 60 : ℕ) := by
    omega
  have hnanoseconds := Nat.div_add_mod' nanoseconds nanosecondsPerSecond
  unfold momentOf
  dsimp only
  generalize seconds / 86400 = days at *
  generalize (seconds % 86400).toNat / 3600 = hour at *
  generalize (seconds % 86400).toNat / 60 % 60 = minute at *
  generalize (seconds % 86400).toNat % 60 = second at *
  generalize nanoseconds / nanosecondsPerSecond = carry at *
  generalize nanoseconds % nanosecondsPerSecond = rest at *
  rw [← hnanoseconds, hseconds]
  unfold nanosecondsPerSecond
  push_cast
  ring

theorem isValid_momentOf (seconds : ℤ) (h : nanoseconds / nanosecondsPerSecond ≤ 1) :
    (momentOf seconds nanoseconds).IsValid where
  date := (Date.isValid_ofDays _).1
  hour := by
    unfold momentOf
    dsimp only
    omega
  minute := Nat.mod_lt _ (by decide)
  second := by
    unfold momentOf
    dsimp only
    omega
  fraction_nonneg := by
    unfold momentOf
    positivity
  fraction_lt := by
    have hlt : ((nanoseconds % nanosecondsPerSecond : ℕ) : ℚ) < ((10 ^ 9 : ℕ) : ℚ) :=
      Nat.cast_lt.mpr (Nat.mod_lt _ (by decide))
    unfold momentOf
    rw [div_lt_one (by positivity)]
    exact_mod_cast hlt

/-- **An instant in range is written as a timestamp.** A leap second is written as second sixty, in
the last second of a minute. -/
theorem exists_timestamp?_eq (h : InRange seconds)
    (hnanoseconds : nanoseconds < 10 ^ 9 ∨ nanoseconds < 2 * 10 ^ 9 ∧ seconds % 60 = 59) :
    ∃ s, timestamp? seconds nanoseconds = some (String.ofList s) ∧
      TimestampText s (momentOf seconds nanoseconds) := by
  have hrange : ¬(seconds / 86400 < firstDate.toDays ∨ lastDate.toDays < seconds / 86400) := by
    have := h.first
    have := h.last
    omega
  have hleap : ¬(2 * nanosecondsPerSecond ≤ nanoseconds ∨
      nanosecondsPerSecond ≤ nanoseconds ∧ (seconds % 86400).toNat % 60 ≠ 59) := by
    unfold nanosecondsPerSecond
    omega
  have hdate := (Date.isValid_ofDays (seconds / 86400)).1
  have hday := hdate.day_le.trans (Date.monthDays_le _ _)
  have hcarry : nanoseconds / nanosecondsPerSecond ≤ 1 := by
    unfold nanosecondsPerSecond
    omega
  have hfields := isValid_momentOf seconds hcarry
  exact ⟨_, (if_neg hrange).trans (if_neg hleap), TimestampText.utc (yearText_yearText _)
    (fieldText_padded (by decide) (hdate.month_le.trans_lt (by decide)))
    (fieldText_padded (by decide) (hday.trans_lt (by decide)))
    (fieldText_padded (by decide) (hfields.hour.trans (by decide)))
    (fieldText_padded (by decide) (hfields.minute.trans (by decide)))
    (fieldText_padded (by decide) (hfields.second.trans_lt (by decide)))
    (fractionText_fractionText (Nat.mod_lt _ (by decide)))⟩

/-! ## Times as floats -/

/-- A time just below zero, so near that its fraction is rounded up to one. -/
def RoundsUp (time : ℚ) : Prop :=
  -(1 / 2 ^ 54) ≤ time ∧ time < 0

variable {x : Float}

theorem epochText_eq (hx : x.isFinite = true) :
    epochText x = (timestamp? ⌊exactValue x⌋
      ((x - Float.ofInt ⌊exactValue x⌋) * 1e9).toUInt32.toNat).getD (plainText x) := by
  obtain ⟨negative, m, e, hparts⟩ := (isFinite_iff_ofFloat x).mp hx
  have hfloor := floor?_ofFloat hx
  rw [hparts] at hfloor
  unfold epochText
  rw [hparts]
  dsimp only
  rw [hfloor]

theorem InRange.natAbs_lt (h : InRange seconds) : seconds.natAbs < 2 ^ 53 := by
  have hfirst : firstDate.toDays = -96465292 := by decide
  have hlast : lastDate.toDays = 95026236 := by decide
  have hlow := h.first
  have hhigh := h.last
  omega

theorem floor_of_roundsUp {time : ℚ} (h : RoundsUp time) : ⌊time⌋ = -1 := by
  rw [Int.floor_eq_iff]
  have hlow := h.1
  norm_num at hlow ⊢
  exact ⟨by linarith, h.2⟩

/-- **A time in range is written as a timestamp** of an instant within two nanoseconds of it. The
timestamp has second sixty exactly if the time is rounded up. -/
theorem exists_epochText_eq (hx : x.isFinite = true) (h : InRange ⌊exactValue x⌋) :
    ∃ s moment instant, epochText x = String.ofList s ∧ TimestampText s moment ∧ moment.IsValid ∧
      moment.Denotes instant ∧ |instant - exactValue x| ≤ 2 / 10 ^ 9 ∧
      (moment.second = 60 ↔ RoundsUp (exactValue x)) := by
  have hcount := isNanoseconds hx h.natAbs_lt
  have htext := epochText_eq hx
  generalize ((x - Float.ofInt ⌊exactValue x⌋) * 1e9).toUInt32.toNat = n at hcount htext
  have hup : n = 10 ^ 9 ↔ RoundsUp (exactValue x) := hcount.eq_iff
  have hle := hcount.le
  have hlast : n = 10 ^ 9 → ⌊exactValue x⌋ % 60 = 59 := fun heq => by
    rw [floor_of_roundsUp (hup.mp heq)]
    rfl
  have hfits : n < 10 ^ 9 ∨ n < 2 * 10 ^ 9 ∧ ⌊exactValue x⌋ % 60 = 59 := by omega
  have hcarry : n / nanosecondsPerSecond ≤ 1 := by
    unfold nanosecondsPerSecond
    omega
  obtain ⟨s, hs, hgrammar⟩ := exists_timestamp?_eq h hfits
  refine ⟨s, _, _, by rw [htext, hs, Option.getD_some], hgrammar, isValid_momentOf _ hcarry,
    denotes_momentOf _ _, ?_, ?_⟩
  · have hnear := hcount.near
    rw [Int.fract] at hnear
    rwa [show (⌊exactValue x⌋ : ℚ) + n / 10 ^ 9 - exactValue x =
      n / 10 ^ 9 - (exactValue x - ⌊exactValue x⌋) by ring]
  · rw [← hup]
    unfold momentOf nanosecondsPerSecond
    dsimp only
    omega

example : epochText (-1e-20) = "1969-12-31T23:59:60+00:00" := by decide +kernel

end TraceTimeline.Time

namespace TraceTimeline.Trace.Summary

open Number Time

theorem exists_text_eq (summary : Summary) :
    ∃ rest, summary.text = "Run start:   " ++ epochText summary.startTime ++ "\n" ++ rest := by
  unfold text overview
  simp only [String.append_assoc, String.append_right_inj, exists_eq']

/-- **The start of a run is told as a timestamp**, if its date is one that can be written. The text
says one moment only, and that denotes an instant within a microsecond of the start. Its second is
below sixty, except for a start just before 1970 that is rounded up. -/
theorem runStart_isTimestamp (summary : Summary) (hfinite : summary.startTime.isFinite = true)
    (hrange : InRange ⌊exactValue summary.startTime⌋) :
    ∃ s rest moment instant,
      summary.text = "Run start:   " ++ String.ofList s ++ "\n" ++ rest ∧
      (∀ other, TimestampText s other ↔ other = moment) ∧ moment.IsValid ∧
      (∀ other, moment.Denotes other ↔ other = instant) ∧
      |instant - exactValue summary.startTime| ≤ 1 / 10 ^ 6 ∧
      (moment.second = 60 ↔ RoundsUp (exactValue summary.startTime)) := by
  obtain ⟨s, moment, instant, htext, hgrammar, hvalid, hdenotes, hnear, hsecond⟩ :=
    exists_epochText_eq hfinite hrange
  obtain ⟨rest, hrest⟩ := summary.exists_text_eq
  refine ⟨s, rest, moment, instant, htext ▸ hrest, fun other => ?_, hvalid, fun other => ?_, ?_,
    hsecond⟩
  · constructor
    · intro hother
      exact hother.unique hgrammar rfl
    · rintro rfl
      exact hgrammar
  · constructor
    · intro hother
      exact hother.unique hdenotes
    · rintro rfl
      exact hdenotes
  · exact hnear.trans (by norm_num)

theorem runStart_just_before_1970 :
    RoundsUp (exactValue (-1e-20)) ∧ ∃ s rest moment,
      ({ startTime := -1e-20, endTime := 0, skippedLines := 0 } : Summary).text =
        "Run start:   " ++ String.ofList s ++ "\n" ++ rest ∧
      (∀ other, TimestampText s other ↔ other = moment) ∧ moment.second = 60 := by
  have hunpack : (-1e-20 : Float).toModel.unpack =
      .finite .negative 6646139978924579 (-119) (by decide) := rfl
  have hstands : Stands (-1e-20 : Float).toModel.unpack .negative
      ((6646139978924579 : ℕ) * 2 ^ (-119 : ℤ)) := by
    rw [hunpack]
    exact Stands.finite .negative (by decide) ⟨by decide, by decide, by decide, Or.inr (by decide)⟩
  have hup : RoundsUp (exactValue (-1e-20)) := by
    rw [exactValue_of_stands hstands, factor, RoundsUp]
    norm_num
  have hrange : InRange ⌊exactValue (-1e-20)⌋ := by
    rw [floor_of_roundsUp hup]
    exact ⟨by decide, by decide⟩
  obtain ⟨s, rest, moment, _, htext, hgrammar, -, -, -, hsecond⟩ :=
    runStart_isTimestamp { startTime := -1e-20, endTime := 0, skippedLines := 0 } rfl hrange
  exact ⟨hup, s, rest, moment, htext, hgrammar, hsecond.mpr hup⟩

end TraceTimeline.Trace.Summary
