import TraceTimeline.Proofs.Json.CutOff
import TraceTimeline.Proofs.Json.FloatRoundTrip

/-!
# Numbers that are cut off

Where a number is cut, its beginning may be a number too. It stands for less, or it is a fraction
with fewer digits, or its power of ten lost a digit. Main statement: a reader of numbers takes all
that is left of a number, and where that is no number yet, the input ends too early.
-/

namespace TraceTimeline.Json

open Reader Numeral

theorem IsDigits.of_isPrefix {s front : List Char} (hs : IsDigits s) (h : front <+: s)
    (hne : front ≠ []) : IsDigits front where
  ne_nil := hne
  isDigit c hc := hs.isDigit c (h.subset hc)

/-- A beginning of a whole part still has no leading zero that could be left out. -/
theorem IsWhole.of_isPrefix {s front : List Char} (hs : IsWhole s) (h : front <+: s)
    (hne : front ≠ []) : IsWhole front where
  toIsDigits := hs.toIsDigits.of_isPrefix h hne
  zero_alone hzero := by
    obtain ⟨c, front, rfl⟩ := List.exists_cons_of_ne_nil hne
    obtain ⟨back, rfl⟩ := h
    have hs := hs.zero_alone hzero
    rw [List.cons_append, List.cons.injEq, List.append_eq_nil_iff] at hs
    rw [hs.1, hs.2.1]

theorem digitsValue_le_of_isPrefix {ds front : List Nat} (h : front <+: ds) :
    digitsValue front ≤ digitsValue ds := by
  obtain ⟨back, rfl⟩ := h
  rw [digitsValue, digitsValue, List.foldl_append]
  exact le_foldl_digits back _

/-- Digits behind a number multiply it by ten at least. -/
theorem ten_mul_digitsValue_le {front back : List Nat} (h : back ≠ []) :
    10 * digitsValue front ≤ digitsValue (front ++ back) := by
  obtain ⟨d, back, rfl⟩ := List.exists_cons_of_ne_nil h
  have hle := le_foldl_digits back (digitsValue front * 10 + d)
  have happend : digitsValue (front ++ d :: back) =
      back.foldl (fun value d => value * 10 + d) (digitsValue front * 10 + d) :=
    List.foldl_append
  omega

/-- A point alone is no fraction yet. -/
theorem FractionText.cut {s front : List Char} {places : Option (List Nat)}
    (hs : FractionText s places) (h : front <+: s) :
    front = ['.'] ∨ ∃ part, FractionText front part ∧ part.getD [] <+: places.getD [] := by
  cases hs with
  | none =>
      obtain rfl := List.prefix_nil.mp h
      exact .inr ⟨_, .none, List.prefix_rfl⟩
  | @some s hs =>
      rcases List.prefix_cons_iff.mp h with rfl | ⟨front, rfl, hfront⟩
      · exact .inr ⟨_, .none, List.nil_prefix⟩
      · rcases eq_or_ne front [] with rfl | hne
        · exact .inl rfl
        · exact .inr ⟨_, .some (hs.of_isPrefix hfront hne), hfront.map _⟩

def PowerBreaksOff (s : List Char) : Prop :=
  ∃ mark, (mark = 'e' ∨ mark = 'E') ∧ (s = [mark] ∨ s = [mark, '+'] ∨ s = [mark, '-'])

/-- Digits that are cut lost one at least. -/
theorem IsDigits.cut {s front back : List Char} (hs : IsDigits s) (h : front ++ back = s)
    (hback : back ≠ []) :
    front = [] ∨
      IsDigits front ∧ 10 * digitsValue (digitValues front) ≤ digitsValue (digitValues s) := by
  rcases eq_or_ne front [] with rfl | hne
  · exact .inl rfl
  · refine .inr ⟨hs.of_isPrefix ⟨back, h⟩ hne, ?_⟩
    rw [← h, digitValues, digitValues, List.map_append]
    exact ten_mul_digitsValue_le fun hnil => hback (List.map_eq_nil_iff.mp hnil)

/-- A power of ten that is cut lost a digit, if anything is left of it. -/
theorem PowerText.cut {s front back : List Char} {exponent : Option Int}
    (hs : PowerText s exponent) (h : front ++ back = s) (hback : back ≠ []) :
    PowerBreaksOff front ∨ ∃ part, PowerText front part ∧
      (part.getD 0 ≤ 0 ∨ 10 * part.getD 0 ≤ exponent.getD 0) := by
  rcases front with _ | ⟨mark, front⟩
  · exact .inr ⟨_, .none, .inl le_rfl⟩
  cases hs with
  | none => cases h
  | unsigned hmark hs =>
      obtain ⟨rfl, hdigits⟩ := List.cons.inj h
      rcases hs.cut hdigits hback with rfl | ⟨hfront, hless⟩
      · exact .inl ⟨_, hmark, .inl rfl⟩
      · exact .inr ⟨_, .unsigned hmark hfront, .inr (Int.ofNat_le.mpr hless)⟩
  | positive hmark hs =>
      obtain ⟨rfl, hrest⟩ := List.cons.inj h
      rcases front with _ | ⟨sign, front⟩
      · exact .inl ⟨_, hmark, .inl rfl⟩
      obtain ⟨rfl, hdigits⟩ := List.cons.inj hrest
      rcases hs.cut hdigits hback with rfl | ⟨hfront, hless⟩
      · exact .inl ⟨_, hmark, .inr (.inl rfl)⟩
      · exact .inr ⟨_, .positive hmark hfront, .inr (Int.ofNat_le.mpr hless)⟩
  | negative hmark hs =>
      obtain ⟨rfl, hrest⟩ := List.cons.inj h
      rcases front with _ | ⟨sign, front⟩
      · exact .inl ⟨_, hmark, .inl rfl⟩
      obtain ⟨rfl, hdigits⟩ := List.cons.inj hrest
      rcases hs.cut hdigits hback with rfl | ⟨hfront, -⟩
      · exact .inl ⟨_, hmark, .inr (.inr rfl)⟩
      · refine .inr ⟨_, .negative hmark hfront, .inl ?_⟩
        exact Int.neg_nonpos_of_nonneg (Int.natCast_nonneg _)

/-! ## Numbers that break off -/

theorem truncated_read_signed_nil (negative : Bool) :
    Truncated ((Numeral.read .truncated).run ((Number.signed negative []).map ascii)) := by
  cases negative <;> rfl

theorem truncated_fractionPart_point :
    Truncated ((fractionPart .truncated).run (['.'].map ascii)) :=
  rfl

theorem PowerBreaksOff.truncated {s : List Char} (h : PowerBreaksOff s) :
    Truncated ((exponentPart .truncated).run (s.map ascii)) := by
  obtain ⟨mark, rfl | rfl, rfl | rfl | rfl⟩ := h <;> rfl

theorem PowerBreaksOff.ends {s : List Char} (h : PowerBreaksOff s) :
    EndsDigits (s.map ascii) ∧ (s.map ascii).head? ≠ some (ascii '.') := by
  obtain ⟨mark, hmark, rfl | rfl | rfl⟩ := h
  · exact endsDigits_exponentMark hmark _
  · exact endsDigits_exponentMark hmark _
  · exact endsDigits_exponentMark hmark _

/-- A number whose fraction breaks off. -/
theorem truncated_read_point {whole : List Char} (hwhole : IsWhole whole) (negative : Bool) :
    Truncated ((Numeral.read .truncated).run
      ((Number.signed negative (whole ++ ['.'])).map ascii)) := by
  have hends : EndsDigits (['.'].map ascii) := fun b hb => by cases hb; decide
  rw [signed_append, List.map_append, run_read_whole hwhole negative hends]
  exact truncated_fractionPart_point.bind _

/-- A number whose power of ten breaks off. -/
theorem PowerBreaksOff.truncated_read {power : List Char} (h : PowerBreaksOff power)
    {whole fraction : List Char} {places : Option (List Nat)} (hwhole : IsWhole whole)
    (hfraction : FractionText fraction places) (negative : Bool) :
    Truncated ((Numeral.read .truncated).run
      ((Number.signed negative (whole ++ (fraction ++ power))).map ascii)) := by
  obtain ⟨hdigits, hpoint⟩ := h.ends
  have hcut := h.truncated
  rw [Truncated] at hcut
  rw [Truncated, signed_append, List.map_append, List.map_append,
    run_read_whole hwhole negative (hfraction.ends hdigits)]
  simp only [run_bind, run_fractionPart hfraction hdigits hpoint, hcut]

def Numeral.decimal (numeral : Numeral) : Number.Decimal :=
  ⟨digitsValue (numeral.whole ++ numeral.fraction.getD []),
    numeral.exponent.getD 0 - (numeral.fraction.getD []).length⟩

theorem Numeral.shows_decimal (numeral : Numeral) : numeral.Shows numeral.decimal :=
  ⟨rfl, rfl⟩

theorem Numeral.Shows.decimal_eq {numeral : Numeral} {decimal : Number.Decimal}
    (h : numeral.Shows decimal) : numeral.decimal = decimal := by
  obtain ⟨digits, place⟩ := decimal
  obtain ⟨rfl, rfl⟩ := h
  rfl

/-- No more digits, and their power of ten lost a digit unless it is none. -/
structure LeftOf (part decimal : Number.Decimal) : Prop where
  digits_le : part.digits ≤ decimal.digits
  exponent_le : part.exponent ≤ 0 ∨ 10 * part.exponent ≤ decimal.exponent

theorem cut_signed {negative : Bool} {s front back : List Char}
    (h : front ++ back = Number.signed negative s) :
    front = [] ∨ ∃ part, front = Number.signed negative part ∧ part ++ back = s := by
  cases negative with
  | false => exact .inr ⟨front, rfl, h⟩
  | true =>
      cases front with
      | nil => exact .inl rfl
      | cons sign front =>
          obtain ⟨rfl, hrest⟩ := List.cons.inj h
          exact .inr ⟨front, rfl, hrest⟩

/-- **A number that is cut** breaks off, or is a number with less to it. -/
theorem NumeralText.cut {s front back : List Char} {numeral : Numeral}
    (hs : NumeralText s numeral) (h : front ++ back = s) (hback : back ≠ []) :
    Truncated ((Numeral.read .truncated).run (front.map ascii)) ∨
      ∃ part, NumeralText front part ∧ LeftOf part.decimal numeral.decimal := by
  obtain ⟨negative, hwhole, hfraction, hpower⟩ := hs
  rename_i whole fraction power places exponent
  rcases cut_signed h with rfl | ⟨front, rfl, hparts⟩
  · exact .inl rfl
  rcases List.append_eq_append_iff.mp hparts with ⟨between, rfl, -⟩ | ⟨front, rfl, hrest⟩
  -- In the whole part.
  · rcases eq_or_ne front [] with rfl | hne
    · exact .inl (truncated_read_signed_nil negative)
    · have hfront := hwhole.of_isPrefix (List.prefix_append _ _) hne
      have hpart := NumeralText.mk negative hfront .none .none
      rw [List.append_nil, List.append_nil] at hpart
      refine .inr ⟨_, hpart, ⟨digitsValue_le_of_isPrefix ?_, .inl le_rfl⟩⟩
      show digitValues front ++ [] <+: digitValues (front ++ between) ++ _
      rw [List.append_nil, digitValues, digitValues, List.map_append, List.append_assoc]
      exact List.prefix_append _ _
  rcases List.append_eq_append_iff.mp hrest.symm with ⟨between, rfl, -⟩ | ⟨front, rfl, hpowers⟩
  -- In the fraction.
  · rcases hfraction.cut (List.prefix_append _ _) with rfl | ⟨part, hpart, hplaces⟩
    · exact .inl (truncated_read_point hwhole negative)
    · have hnumeral := NumeralText.mk negative hwhole hpart .none
      rw [List.append_nil] at hnumeral
      refine .inr ⟨_, hnumeral, ⟨digitsValue_le_of_isPrefix ?_, .inl ?_⟩⟩
      · exact (List.prefix_append_right_inj _).mpr hplaces
      · show (0 : Int) - (part.getD []).length ≤ 0
        omega
  -- In the power of ten.
  · rcases hpower.cut hpowers.symm hback with hbreaks | ⟨part, hpart, hless⟩
    · exact .inl (hbreaks.truncated_read hwhole hfraction negative)
    · refine .inr ⟨_, .mk negative hwhole hfraction hpart, ⟨le_rfl, ?_⟩⟩
      show part.getD 0 - (places.getD []).length ≤ 0 ∨
        10 * (part.getD 0 - ((places.getD []).length : Int)) ≤
          exponent.getD 0 - (places.getD []).length
      omega

/-! ## Readers of numbers -/

theorem LeftOf.exists_float? {part : Numeral} {decimal : Number.Decimal}
    (h : LeftOf part.decimal decimal) (hdigits : decimal.digits < 2 ^ 64)
    (hplace : decimal.exponent ≤ 308) : ∃ x, part.float? = some x := by
  have hexponent : part.decimal.exponent ≤ 30 := by
    have := h.exponent_le
    omega
  obtain ⟨x, hx⟩ := Number.exists_scale_toFloat part.decimal.digits.toUInt64 hexponent
  rw [float?_eq_readBack part.shows_decimal (h.digits_le.trans_lt hdigits), readBack, hx]
  exact ⟨_, rfl⟩

theorem onCuts_numeral {s : List Char} {numeral : Numeral} (hs : NumeralText s numeral)
    (hdigits : numeral.decimal.digits < 2 ^ 64) (hplace : numeral.decimal.exponent ≤ 308) :
    OnCuts Exhausted Reader.numeral.run (s.map ascii) := by
  intro front back h hback
  obtain ⟨front, back, rfl, rfl, rfl⟩ := List.map_eq_append_iff.mp h.symm
  have hback : back ≠ [] := fun hnil => hback (List.map_eq_nil_iff.mpr hnil)
  rcases hs.cut rfl hback with hcut | ⟨part, hpart, hleft⟩
  · exact .inl (hcut.bind _)
  · obtain ⟨x, hx⟩ := hleft.exists_float? hdigits hplace
    have hrun := run_numeral hpart ends_nil
    rw [List.append_nil, hx] at hrun
    exact .inr ⟨_, hrun⟩

theorem stopsCut_natural {limit n : Nat} (hn : n < limit)
    (hlimit : limit ≤ Numeral.significandLimit) :
    (Reader.natural limit).StopsCut (Token.natural n).form := by
  rintro spaces _ hs rfl
  have hempty : ∀ {front}, IsSpaces front → Exhausted ((Reader.natural limit).run front) :=
    fun hfront => .inl ((run_ahead_spaces hfront).bind _)
  rw [bytes_natural]
  refine .append (onCuts_of_forall fun front hfront => hempty (hs.of_isPrefix hfront)) ?_
  intro front back h hback
  obtain ⟨front, back, htext, rfl, rfl⟩ := List.map_eq_append_iff.mp h.symm
  have hinitial : front <+: Number.naturalText n := ⟨back, htext.symm⟩
  rcases eq_or_ne front [] with rfl | hne
  · show Exhausted ((Reader.natural limit).run (spaces ++ []))
    rw [List.append_nil]
    exact hempty hs
  · have hfront := (isWhole_naturalText n).of_isPrefix hinitial hne
    have hle : digitsValue (digitValues front) ≤ n := by
      conv_rhs => rw [← digitsValue_naturalText n]
      exact digitsValue_le_of_isPrefix (hinitial.map _)
    have hrun := run_natural hfront (hle.trans_lt hn) hlimit hs ends_nil
    rw [List.append_nil] at hrun
    exact .inr ⟨_, hrun⟩

theorem stopsCut_uint32 (n : UInt32) : Reader.uint32.StopsCut (Token.natural n.toNat).form :=
  (stopsCut_natural n.toNat_lt (by decide)).map UInt32.ofNat

theorem stopsCut_uint64 (n : UInt64) : Reader.uint64.StopsCut (Token.natural n.toNat).form :=
  (stopsCut_natural n.toNat_lt (by decide)).map UInt64.ofNat

/-- The last digit that is written of a float stands at no place above the floats. -/
theorem exponent_written_le {m : ℕ} {e : ℤ} (h : m = 0 ∨ Number.Canonical m e)
    (hfits : (m : ℚ) * 2 ^ e < Number.overflow) : (written m e).exponent ≤ 308 := by
  unfold written
  by_cases hzero : m = 0
  · rw [if_pos hzero]
    decide
  rw [if_neg hzero]
  have hcanonical := h.resolve_left hzero
  have hshortest : (Number.Decimal.shortest .toEven m e).exponent ≤ 308 := by
    obtain ⟨haround, -, -⟩ := Number.Decimal.shortest_spec hcanonical hfits .toEven
    have hdigits : (1 : ℚ) ≤ (Number.Decimal.shortest .toEven m e).digits := by
      exact_mod_cast Number.Decimal.digits_shortest_pos hcanonical.pos
    have hplace : (m.log2 : ℤ) + e + 1 ≤ 1024 := by
      have hlog : m.log2 < 53 := (Nat.log2_lt hzero).mpr hcanonical.lt
      have := hcanonical.lt_overflow_iff.mp hfits
      omega
    have hpower : (0 : ℚ) < 10 ^ (Number.Decimal.shortest .toEven m e).exponent := by positivity
    have hlt : (10 : ℚ) ^ (Number.Decimal.shortest .toEven m e).exponent < 10 ^ (309 : ℤ) := by
      calc (10 : ℚ) ^ (Number.Decimal.shortest .toEven m e).exponent
          ≤ (Number.Decimal.shortest .toEven m e).value := le_mul_of_one_le_left hpower.le hdigits
        _ ≤ (m + 1 / 2) * 2 ^ e := haround.bounds.2
        _ < 2 ^ ((m.log2 : ℤ) + e + 1) := Number.Decimal.lt_two_zpow m e
        _ ≤ 2 ^ (1024 : ℤ) := zpow_le_zpow_right₀ (by norm_num) hplace
        _ ≤ 10 ^ (309 : ℤ) := (Number.Decimal.ten_zpow_le_two_zpow (by decide) (by decide)).2
    have := (zpow_lt_zpow_iff_right₀ (by norm_num : (1 : ℚ) < 10)).mp hlt
    omega
  dsimp only
  split
  · unfold inFull
    split
    · exact (by decide : (-1 : ℤ) ≤ 308)
    · exact hshortest
  · exact hshortest

/-- **A finite float that is cut** still is a float, or the input ends too early. -/
theorem stopsCut_float {x : Float} (hx : x.isFinite = true) :
    Reader.float.StopsCut (Token.float x).form := by
  obtain ⟨negative, m, e, hparts⟩ := (Number.isFinite_iff_ofFloat x).mp hx
  obtain ⟨-, hfits, hshape⟩ := Number.stands_of_ofFloat hparts
  have hshape := hshape.imp_left And.left
  obtain ⟨numeral, htext, -, hshows⟩ := numeralText_floatText hparts
  have hcut := onCuts_numeral htext (hshows.decimal_eq ▸ digits_written_lt hshape hfits)
    (hshows.decimal_eq ▸ exponent_written_le hshape hfits)
  have hbytes : (Token.float x).bytes = (floatText x).map ascii :=
    flatMap_utf8EncodeChar_of_lt htext.lt
  rintro spaces _ hs rfl
  obtain ⟨b, r, hfirst, hb⟩ := htext.exists_cons
  rw [hfirst] at hcut
  rw [hbytes, hfirst]
  refine onCuts_ahead (p := Exhausted) (.inl rfl) hs (isSpace_of_startsNumber hb) ?_
  simp only [hb, if_true]
  exact (onCuts_map hcut Prod.snd).tail

end TraceTimeline.Json
