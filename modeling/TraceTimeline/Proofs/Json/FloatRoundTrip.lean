import TraceTimeline.Proofs.Json.Reading
import TraceTimeline.Proofs.Number.Scaling
import TraceTimeline.Proofs.Number.ShortestDecimal

/-!
# Floats that are written and read again

A float is written with the digits of its shortest decimal. The reader makes a float of the whole
number of these digits and multiplies or divides it by a float power of ten, so it rounds up to
three times. Main statements: this is what is read where a float has been written; and a float
survives if neither its digits nor their power of ten have to be rounded.
-/

namespace TraceTimeline.Json

open Numeral Number

variable {x y : Float} {negative : Bool} {m : ℕ} {e : ℤ}

theorem lt_pow_length (n : ℕ) : n < 10 ^ (naturalText n).length :=
  (Nat.length_toDigits_le_iff (by decide) Nat.length_toDigits_pos).mp le_rfl

theorem digits_inFull_lt {decimal : Decimal} (hlt : decimal.digits < 2 ^ 64)
    (h : writtenInFull decimal.magnitude = true) : (inFull decimal).digits < 2 ^ 64 := by
  unfold inFull
  split
  · rename_i hnonneg
    have hplaces : (naturalText decimal.digits).length + decimal.exponent.toNat ≤ 16 := by
      have := of_decide_eq_true (Bool.and_eq_true_iff.mp h).2
      unfold Decimal.magnitude at this
      omega
    calc decimal.digits * 10 ^ (decimal.exponent.toNat + 1)
        ≤ 10 ^ (naturalText decimal.digits).length * 10 ^ (decimal.exponent.toNat + 1) :=
          Nat.mul_le_mul_right _ (lt_pow_length _).le
      _ = 10 ^ ((naturalText decimal.digits).length + decimal.exponent.toNat + 1) := by
          rw [← pow_add, add_assoc]
      _ ≤ 10 ^ 17 := Nat.pow_le_pow_right (by decide) (by omega)
      _ < 2 ^ 64 := by decide
  · exact hlt

/-- **The digits that are written for a float fit the significand** of the reader. -/
theorem digits_written_lt (h : m = 0 ∨ Canonical m e) (hfits : (m : ℚ) * 2 ^ e < overflow) :
    (written m e).digits < 2 ^ 64 := by
  unfold written
  by_cases hzero : m = 0
  · rw [if_pos hzero]
    decide
  · rw [if_neg hzero]
    obtain ⟨-, hlt, -⟩ := Decimal.shortest_spec (h.resolve_left hzero) hfits .toEven
    dsimp only
    split
    · rename_i hfull
      exact digits_inFull_lt hlt hfull
    · exact hlt

/-- What the reader makes of a decimal: its digits become a float, and that is multiplied or divided
by a float power of ten. -/
def readBack (negative : Bool) (decimal : Decimal) : Option Float :=
  (scale decimal.digits.toUInt64.toFloat decimal.exponent).map fun x => if negative then -x else x

theorem float?_eq_readBack {numeral : Numeral} {decimal : Decimal} (hshows : numeral.Shows decimal)
    (hlt : decimal.digits < 2 ^ 64) : numeral.float? = readBack numeral.negative decimal := by
  obtain ⟨hdigits, hplace⟩ := hshows
  rw [digitsValue, List.foldl_append] at hdigits
  have hfront : numeral.whole.foldl (fun value d => value * 10 + d) 0 < significandLimit :=
    Nat.lt_of_le_of_lt ((le_foldl_digits _ _).trans hdigits.le) hlt
  have hall : (numeral.fraction.getD []).foldl (fun value d => value * 10 + d)
      (numeral.whole.foldl (fun value d => value * 10 + d) 0) < significandLimit := by
    rw [hdigits]
    exact hlt
  unfold Numeral.float? readBack
  simp only [gather_eq_foldl hfront, gather_eq_foldl hall, hdigits, List.length_nil]
  rw [← hplace]
  simp

theorem reread_eq_ok_iff (h : Binary.ofFloat x = .finite negative m e) :
    reread x = .ok y ↔ readBack negative (written m e) = some y := by
  obtain ⟨-, hfits, hshape⟩ := stands_of_ofFloat h
  have hlt := digits_written_lt (hshape.imp_left And.left) hfits
  obtain ⟨numeral, htext, rfl, hshows⟩ := numeralText_floatText h
  have hread := reread_eq_of_yields (yields_float_of_numeral htext)
  rw [hread, float?_eq_readBack hshows hlt]
  cases readBack numeral.negative (written m e) with
  | none => exact iff_of_false nofun nofun
  | some z =>
      constructor
      · rintro h
        rw [Except.ok.inj h]
      · rintro h
        rw [Option.some.inj h]

/-! ## Floats that are read as themselves -/

theorem value_inFull (decimal : Decimal) : (inFull decimal).value = decimal.value := by
  unfold inFull
  split
  · rename_i h
    obtain ⟨k, hk⟩ := Int.eq_ofNat_of_zero_le h
    have hdigits : ((decimal.digits * Nat.pow 10 (k + 1) : ℕ) : ℚ) =
        decimal.digits * 10 ^ (k + 1) := by
      exact_mod_cast rfl
    unfold Decimal.value
    dsimp only
    rw [hk, Int.toNat_natCast, hdigits, zpow_neg_one, zpow_natCast, pow_succ]
    ring
  · rfl

theorem value_written (hm : m ≠ 0) :
    (written m e).value = (Decimal.shortest .toEven m e).value := by
  unfold written
  rw [if_neg hm]
  dsimp only
  split
  · exact value_inFull _
  · rfl

theorem around_written (h : Canonical m e) (hfits : (m : ℚ) * 2 ^ e < overflow) :
    Around m e (written m e).value := by
  rw [value_written h.pos.ne']
  exact (Decimal.shortest_spec h hfits .toEven).1

/-- **The decimal that is written for a float rounds to the float.** -/
theorem exists_rounds_written (h : m = 0 ∨ Canonical m e) (hfits : (m : ℚ) * 2 ^ e < overflow) :
    ∃ n k, Rounds (written m e).value n k ∧ (n : ℚ) * 2 ^ k = m * 2 ^ e := by
  rcases Nat.eq_zero_or_pos m with rfl | hm
  · have hzero : (written 0 e).value = 0 := zero_mul _
    rw [hzero]
    exact ⟨0, -1074, rounds_zero, by rw [Nat.cast_zero, zero_mul, zero_mul]⟩
  · have hcanonical := h.resolve_left hm.ne'
    exact (around_written hcanonical hfits).exists_rounds hcanonical

/-- A size that is read gets its sign back. -/
theorem signed_eq {v : ℚ} (hx : Stands x.toModel.unpack (signOf negative) v)
    (hy : Stands y.toModel.unpack .positive v) (hv : v < overflow) :
    (if negative then -y else y) = x := by
  cases negative with
  | true => exact eq_of_stands (stands_neg hy hv) hx
  | false => exact eq_of_stands hy hx

theorem stands_scale_zero :
    ∃ y, scale (0 : ℕ).toUInt64.toFloat (-1) = some y ∧ Stands y.toModel.unpack .positive 0 := by
  refine ⟨(0 : ℕ).toUInt64.toFloat / powerOfTen 1, ?_, ?_⟩
  · rw [scale.eq_def, if_pos (by decide), if_neg (by decide)]
    rfl
  · have hzero : ((0 : ℕ).toUInt64.toFloat / powerOfTen 1).toModel.unpack = .zero .positive := rfl
    rw [hzero]
    exact Stands.zero .positive

/-- The float needs few digits: the whole number of the digits that are written is a float, and so
is their power of ten. -/
def IsShort (x : Float) : Prop :=
  ∃ negative m e, Binary.ofFloat x = .finite negative m e ∧ HasFewDigits (written m e).digits ∧
    (written m e).exponent.natAbs ≤ 22

def Survives (x : Float) : Prop :=
  ∃ negative m e, Binary.ofFloat x = .finite negative m e ∧
    readBack negative (written m e) = some x

/-- **A float that needs few digits survives**: its digits and their power of ten are floats without
rounding, so the reader rounds once, to the nearest float. -/
theorem IsShort.survives (h : IsShort x) : Survives x := by
  obtain ⟨negative, m, e, hparts, hfew, hplace⟩ := h
  obtain ⟨hstands, hfits, hshape⟩ := stands_of_ofFloat hparts
  have hlt := digits_written_lt (hshape.imp_left And.left) hfits
  refine ⟨negative, m, e, hparts, ?_⟩
  suffices h : ∃ y, scale (written m e).digits.toUInt64.toFloat (written m e).exponent = some y ∧
      Stands y.toModel.unpack .positive (m * 2 ^ e) by
    obtain ⟨y, hscale, hy⟩ := h
    rw [readBack, hscale, Option.map_some, signed_eq hstands hy hfits]
  rcases Nat.eq_zero_or_pos m with rfl | hm
  · rw [Nat.cast_zero, zero_mul]
    exact stands_scale_zero
  · have hcanonical := hshape.resolve_left fun h => hm.ne' h.1
    have haround := around_written hcanonical hfits
    obtain ⟨n, k, hrounds, hvalue⟩ := haround.exists_rounds hcanonical
    have hdigits : 0 < (written m e).digits := by
      refine Nat.pos_of_ne_zero fun hzero => ?_
      have hpos := haround.pos hm
      rw [Decimal.value, hzero, Nat.cast_zero, zero_mul] at hpos
      exact lt_irrefl 0 hpos
    rw [← hvalue] at hfits ⊢
    exact exists_scale_eq hdigits hlt hfew hplace hrounds hfits

theorem reread_self_iff : reread x = .ok x ↔ Survives x := by
  constructor
  · intro h
    obtain ⟨negative, m, e, hparts⟩ := (isFinite_iff_ofFloat x).mp (isFinite_of_reread_eq_ok h)
    exact ⟨negative, m, e, hparts, (reread_eq_ok_iff hparts).mp h⟩
  · rintro ⟨negative, m, e, hparts, h⟩
    exact (reread_eq_ok_iff hparts).mpr h

/-! ## Whole numbers -/

theorem writtenInFull_of_whole {decimal : Decimal} {n : ℕ} (hvalue : decimal.value = n)
    (hexponent : 0 ≤ decimal.exponent) (hpos : 0 < n) (hlt : n < 10 ^ 16) :
    writtenInFull decimal.magnitude = true ∧ inFull decimal = ⟨n * 10, -1⟩ := by
  obtain ⟨k, hk⟩ := Int.eq_ofNat_of_zero_le hexponent
  have hn : decimal.digits * 10 ^ k = n := by
    rw [Decimal.value, hk, zpow_natCast] at hvalue
    exact_mod_cast hvalue
  have hone : 0 < (naturalText decimal.digits).length := Nat.length_toDigits_pos
  have hplaces : (naturalText decimal.digits).length + k ≤ 16 := by
    have hdigits : 0 < decimal.digits := Nat.pos_of_mul_pos_right (hn ▸ hpos)
    have hk' : k < 16 := by
      by_contra hge
      have := Nat.mul_le_mul hdigits (Nat.pow_le_pow_right (by decide : 0 < 10) (not_lt.mp hge))
      omega
    have hshort : decimal.digits < 10 ^ (16 - k) := by
      rw [← hn, ← Nat.sub_add_cancel hk'.le, pow_add] at hlt
      exact Nat.lt_of_mul_lt_mul_right hlt
    have := (Nat.length_toDigits_le_iff (by decide) (by omega)).mpr hshort
    unfold naturalText
    omega
  constructor
  · unfold writtenInFull Decimal.magnitude
    rw [Bool.and_eq_true, decide_eq_true_eq, decide_eq_true_eq]
    omega
  · unfold inFull
    rw [if_pos hexponent, hk, Int.toNat_natCast, ← hn, mul_assoc]
    rfl

/-- **A whole number needs few digits** if five times the number still is below `2 ^ 53`: it is
written with a zero behind its point, and ten times the number is the same float digits. -/
theorem isShort_of_whole {sign : Float.Model.UnpackedFloat.Sign} {n : ℕ}
    (hx : Stands x.toModel.unpack sign n) (hn : 5 * n < 2 ^ 53) : IsShort x := by
  obtain ⟨negative, m, e, hparts⟩ := (isFinite_iff_ofFloat x).mp hx.isFinite
  obtain ⟨hstands, hfits, hshape⟩ := stands_of_ofFloat hparts
  have hvalue : (m : ℚ) * 2 ^ e = n := (hstands.eq_of_eq hx rfl).2
  refine ⟨negative, m, e, hparts, ?_⟩
  unfold written
  rcases Nat.eq_zero_or_pos m with rfl | hm
  · rw [if_pos rfl]
    exact ⟨⟨0, 0, by decide, rfl⟩, by decide⟩
  · have hcanonical := hshape.resolve_left fun h => hm.ne' h.1
    have hpos : 0 < n := by
      have := hcanonical.value_pos
      rw [hvalue] at this
      exact_mod_cast this
    obtain ⟨hshortest, hplace⟩ :=
      Decimal.value_shortest_of_whole hcanonical hvalue (by omega) .toEven
    obtain ⟨hfull, hdecimal⟩ := writtenInFull_of_whole hshortest hplace hpos (by omega)
    rw [if_neg hm.ne']
    dsimp only
    rw [if_pos hfull, hdecimal]
    exact ⟨⟨5 * n, 1, hn, by ring⟩, (by decide : (-1 : ℤ).natAbs ≤ 22)⟩

end TraceTimeline.Json
