import TraceTimeline.Proofs.Number.Scaling
import Mathlib.Algebra.Order.Floor.Semifield
import Mathlib.Data.Rat.Floor
import Mathlib.Tactic.NormNum.Pow

/-!
# The whole part of a float and its fraction

A time is split in float arithmetic: the greatest whole number that is not above it is subtracted,
and the rest is multiplied by a thousand million and cut. The difference is rounded, and so is the
product. Main statement: the count is within a few of the exact fraction, and below a whole second,
unless the time lies just below zero. There the difference is rounded up to one.
-/

namespace TraceTimeline.Number

open Float.Model Float.Model.UnpackedFloat

def exactValue (x : Float) : ℚ :=
  position x.toModel.unpack

variable {x y : Float} {sign : Sign} {v : ℚ}

theorem exactValue_of_stands (h : Stands x.toModel.unpack sign v) : exactValue x = factor sign * v :=
  h.position_eq

theorem floor?_finite (negative : Bool) (m : ℕ) (e : ℤ) :
    (Binary.finite negative m e).floor? = some ⌊factor (signOf negative) * (m * 2 ^ e)⌋ := by
  have hwhole : ((if negative then -(m : ℤ) else m : ℤ) : ℚ) = factor (signOf negative) * m := by
    cases negative <;> simp [signOf, factor]
  rw [Binary.floor?, ← mul_assoc, ← hwhole]
  generalize (if negative then -(m : ℤ) else m : ℤ) = whole
  split
  · rename_i he
    have hpower : (2 : ℚ) ^ e = ((Nat.pow 2 e.toNat : ℕ) : ℤ) := by
      rw [Nat.pow_eq, Int.cast_natCast, Nat.cast_pow, ← zpow_natCast, Int.toNat_of_nonneg he]
      rfl
    rw [hpower, ← Int.cast_mul, Int.floor_intCast]
  · rename_i he
    have hpower : (2 : ℚ) ^ e = ((Nat.pow 2 (-e).toNat : ℕ) : ℚ)⁻¹ := by
      have hexponent : ((-e).toNat : ℤ) = -e := by omega
      rw [Nat.pow_eq, Nat.cast_pow, ← zpow_natCast, hexponent, zpow_neg, inv_inv]
      rfl
    rw [hpower, ← div_eq_mul_inv, Rat.floor_intCast_div_natCast,
      Int.fdiv_eq_ediv_of_nonneg _ (Int.natCast_nonneg _)]

/-- The whole part is computed exactly. -/
theorem floor?_ofFloat (hx : x.isFinite = true) :
    (Binary.ofFloat x).floor? = some ⌊exactValue x⌋ := by
  obtain ⟨negative, m, e, hparts⟩ := (isFinite_iff_ofFloat x).mp hx
  rw [hparts, floor?_finite, exactValue_of_stands (stands_of_ofFloat hparts).1]

theorem stands_ofNat {n : ℕ} (h : n < 2 ^ 53) :
    Stands (Float.ofNat n).toModel.unpack .positive n := by
  rcases Nat.eq_zero_or_pos n with rfl | hpos
  · have hzero : (Float.ofNat 0).toModel.unpack = .zero .positive := rfl
    rw [hzero, Nat.cast_zero]
    exact Stands.zero .positive
  · have hfew : HasFewDigits n := ⟨n, 0, h, (Nat.mul_one n).symm⟩
    have hproduct : Float.ofNat n = n.toUInt64.toFloat * Json.Numeral.powerOfTen 0 := by
      show Float.ofScientific n false 0 = _
      rw [Float.ofScientific, dif_pos ⟨h, by decide⟩]
      rfl
    obtain ⟨m, e, hcanonical, hvalue⟩ := hfew.exists_canonical hpos
    have hnearest := isNearest_mul (stands_toFloat hpos (h.trans (by decide)) hfew)
      (stands_powerOfTen (Nat.zero_le 22))
    rw [factor, one_mul, one_mul, pow_zero, mul_one, hvalue] at hnearest
    rw [hproduct, hvalue]
    exact stands_of_isNearest rfl hnearest hcanonical.value_pos hcanonical.rounds
      (hvalue ▸ lt_overflow_of_lt (h.trans (by decide)))

theorem exists_stands_ofInt {n : ℤ} (h : n.natAbs < 2 ^ 53) :
    ∃ sign, Stands (Float.ofInt n).toModel.unpack sign n.natAbs ∧ factor sign * n.natAbs = n := by
  cases n with
  | ofNat n => exact ⟨.positive, stands_ofNat h, one_mul _⟩
  | negSucc n =>
      refine ⟨.negative, stands_neg (stands_ofNat h) (lt_overflow_of_lt (h.trans (by decide))), ?_⟩
      rw [factor, Int.natAbs_negSucc, Int.cast_negSucc, neg_one_mul]

namespace Rounds

variable {r : ℚ} {n : ℕ} {e k : ℤ}

/-- The last digit of a float is at most 53 places below the first power of two above it. -/
theorem exponent_le (h : Rounds r n e) (hk : -1074 ≤ k) (hlt : r < 2 ^ 53 * 2 ^ k) : e ≤ k := by
  rcases h.normal with he | hlow
  · exact he.trans_le hk
  · by_contra hgt
    have hstep : 2 * (2 : ℚ) ^ k ≤ 2 ^ e := two_mul_zpow_le (lt_of_not_ge hgt)
    linarith

/-- Rounding goes half a unit of the last digit at most. -/
theorem abs_sub_le (h : Rounds r n e) (hk : -1074 ≤ k) (hlt : r < 2 ^ 53 * 2 ^ k) :
    |n * 2 ^ e - r| ≤ 2 ^ k / 2 := by
  have hpos : (0 : ℚ) < 2 ^ e := by positivity
  have hle : (2 : ℚ) ^ e ≤ 2 ^ k := zpow_le_zpow_two (h.exponent_le hk hlt)
  have hr : r / 2 ^ e * 2 ^ e = r := div_mul_cancel₀ r hpos.ne'
  have hhigh := mul_le_mul_of_nonneg_right h.nearest.le hpos.le
  have hlow := mul_le_mul_of_nonneg_right h.nearest.ge hpos.le
  rw [abs_le]
  constructor <;> linarith

theorem nonneg (_ : Rounds r n e) : (0 : ℚ) ≤ n * 2 ^ e := by
  positivity

end Rounds

/-- The result of an operation, unless it is so large that it may be infinite. -/
theorem IsNearest.exists_rounds {a : ℚ} {f : UnpackedFloat} (h : IsNearest a f)
    (hmodel : x.toModel = Float.Model.pack f) (hlow : 0 ≤ a) (hhigh : a ≤ 2 ^ 53) :
    x.isFinite = true ∧ ∃ n e, Rounds a n e ∧ exactValue x = n * 2 ^ e := by
  obtain ⟨sign, r, n, e, rfl, hr, hrounds, hstands⟩ := h
  have hcanonical : Canonical (2 ^ 52) 1 := ⟨by decide, by decide, by decide, Or.inr le_rfl⟩
  have hfits : (n : ℚ) * 2 ^ e < overflow := by
    have hr' : r ≤ ((2 ^ 52 : ℕ) : ℚ) * 2 ^ (1 : ℤ) := by
      cases sign <;> rw [factor] at hlow hhigh <;> norm_num at hlow hhigh ⊢ <;> linarith
    exact (hrounds.mono hcanonical.rounds hr').trans_lt (hcanonical.lt_overflow_iff.mpr (by decide))
  have hunpack : Stands x.toModel.unpack sign (n * 2 ^ e) := by
    rw [hmodel, hstands.unpack_pack, if_pos hfits]
    exact hstands
  refine ⟨hunpack.isFinite, n, e, ?_, ?_⟩
  · cases sign with
    | negative =>
        obtain rfl : r = 0 := by rw [factor] at hlow; linarith
        rwa [mul_zero]
    | positive => rwa [factor, one_mul]
  · rw [exactValue_of_stands hunpack]
    cases sign with
    | negative =>
        obtain rfl : r = 0 := by rw [factor] at hlow; linarith
        rw [rounds_eq_zero hrounds, mul_zero]
    | positive => rw [factor, one_mul]

/-! ## Just below one -/

/-- Half way between one and the greatest float below it. The tie goes to one. -/
def tieBelowOne : ℚ := 1 - 1 / 2 ^ 54

def floatBelowOne : ℚ := 1 - 1 / 2 ^ 53

theorem rounds_tieBelowOne : Rounds tieBelowOne (2 ^ 53) (-53) := by
  refine ⟨by decide, ?_, Or.inr ?_, ?_, ?_, fun _ => by decide⟩ <;> norm_num [tieBelowOne]

theorem rounds_one : Rounds 1 (2 ^ 52) (-52) := by
  refine ⟨by decide, ?_, Or.inr ?_, ?_, ?_, fun _ => by decide⟩ <;> norm_num

theorem rounds_floatBelowOne : Rounds floatBelowOne (2 ^ 53 - 1) (-53) := by
  refine ⟨by decide, ?_, Or.inr ?_, ?_, ?_, ?_⟩ <;> norm_num [floatBelowOne]

namespace Rounds

variable {r : ℚ} {n : ℕ} {e : ℤ}

theorem le_one (h : Rounds r n e) (hr : r ≤ 1) : (n : ℚ) * 2 ^ e ≤ 1 := by
  have hle := h.mono rounds_one hr
  norm_num at hle
  linarith

theorem eq_one (h : Rounds r n e) (hlow : tieBelowOne ≤ r) (hhigh : r ≤ 1) :
    (n : ℚ) * 2 ^ e = 1 := by
  have hge := rounds_tieBelowOne.mono h hlow
  norm_num at hge
  exact le_antisymm (h.le_one hhigh) (by linarith)

theorem le_floatBelowOne (h : Rounds r n e) (hr : r < tieBelowOne) :
    (n : ℚ) * 2 ^ e ≤ floatBelowOne := by
  have hvalue : ((2 ^ 53 - 1 : ℕ) : ℚ) * 2 ^ (-53 : ℤ) = floatBelowOne := by
    norm_num [floatBelowOne]
  rw [← hvalue]
  rcases le_total r floatBelowOne with hle | hge
  · exact h.mono rounds_floatBelowOne hle
  · -- Between the float and the tie the float is the nearest one.
    have hplace : r / 2 ^ (-53 : ℤ) = r * 2 ^ 53 := by
      rw [zpow_neg, div_inv_eq_mul]
      rfl
    have hdigits : ((2 ^ 53 - 1 : ℕ) : ℚ) = 2 ^ 53 - 1 := by norm_num
    unfold floatBelowOne at hge
    unfold tieBelowOne at hr
    refine (h.eq_of_eq ⟨by decide, ?_, Or.inr ?_, ?_⟩).le
    · norm_num at hr ⊢
      linarith
    · norm_num at hge ⊢
      linarith
    · rw [hplace]
      refine ⟨?_, ?_, ?_⟩ <;> rw [hdigits]
      · linarith
      · linarith
      · rintro (htie | htie) <;> linarith

end Rounds

/-- A float of at least one has no digits beyond the 52nd behind the point. -/
theorem Stands.exists_int_mul {f : UnpackedFloat} (h : Stands f sign v) (hv : 1 ≤ v) :
    ∃ z : ℤ, v * 2 ^ 52 = z := by
  cases h with
  | zero => linarith
  | finite _ hm h =>
      rename_i m e
      have he : -52 ≤ e := by
        by_contra hlt
        have hm' : (m : ℚ) < 2 ^ 53 := by exact_mod_cast h.lt
        have hpower : (2 : ℚ) ^ e ≤ 2 ^ (-53 : ℤ) := zpow_le_zpow_two (by omega)
        have hpos : (0 : ℚ) < 2 ^ e := by positivity
        have hbelow : (m : ℚ) * 2 ^ e < 1 :=
          calc (m : ℚ) * 2 ^ e < 2 ^ 53 * 2 ^ e := by gcongr
            _ ≤ 2 ^ 53 * 2 ^ (-53 : ℤ) := by gcongr
            _ = 1 := by norm_num
        linarith
      refine ⟨m * 2 ^ (e + 52).toNat, ?_⟩
      have hexponent : ((e + 52).toNat : ℤ) = e + 52 := by omega
      push_cast
      rw [← zpow_natCast (2 : ℚ) (e + 52).toNat, hexponent, zpow_add₀ (by norm_num), mul_assoc]
      rfl

theorem fract_le_of_mul_eq {a : ℚ} {z : ℤ} (h : a * 2 ^ 52 = z) :
    Int.fract a ≤ 1 - 1 / 2 ^ 52 := by
  have hz : Int.fract a * 2 ^ 52 = ((z - ⌊a⌋ * 2 ^ 52 : ℤ) : ℚ) := by
    rw [Int.fract, sub_mul, h]
    norm_cast
  have hlt : Int.fract a * 2 ^ 52 < ((2 ^ 52 : ℤ) : ℚ) := by
    push_cast
    linarith [Int.fract_lt_one a]
  rw [hz, Int.cast_lt] at hlt
  have hle : ((z - ⌊a⌋ * 2 ^ 52 : ℤ) : ℚ) ≤ ((2 ^ 52 - 1 : ℤ) : ℚ) :=
    Int.cast_le.mpr (Int.le_sub_one_of_lt hlt)
  rw [← hz] at hle
  push_cast at hle
  linarith

/-- No float lies between the greatest one below one and one itself. -/
theorem Stands.le_floatBelowOne {f : UnpackedFloat} (h : Stands f sign v) (hv : v < 1) :
    v ≤ floatBelowOne := by
  cases h with
  | zero => norm_num [floatBelowOne]
  | finite _ hm h =>
      rename_i m e
      have hone : Canonical (2 ^ 52) (-52) := ⟨by decide, by decide, by decide, Or.inr le_rfl⟩
      have hbelow : Canonical (2 ^ 53 - 1) (-53) :=
        ⟨by decide, by decide, by decide, Or.inr (by decide)⟩
      have hvalue : ((2 ^ 53 - 1 : ℕ) : ℚ) * 2 ^ (-53 : ℤ) = floatBelowOne := by
        norm_num [floatBelowOne]
      have hvalue' : ((2 ^ 52 : ℕ) : ℚ) * 2 ^ (-52 : ℤ) = 1 := by norm_num
      rw [← hvalue', h.lt_iff hone] at hv
      rw [← hvalue, ← not_lt, hbelow.lt_iff h]
      have := h.lt
      have := h.normal
      omega

/-- **A fraction is nearest to one** only just below zero. -/
theorem tieBelowOne_le_fract_iff (hx : x.isFinite = true) :
    tieBelowOne ≤ Int.fract (exactValue x) ↔ -(1 / 2 ^ 54) ≤ exactValue x ∧ exactValue x < 0 := by
  obtain ⟨sign, v, hstands, -⟩ := exists_stands hx
  have hnonneg := hstands.nonneg
  rw [exactValue_of_stands hstands]
  -- From one on a float is a multiple of `2 ^ -52`, too coarse for a fraction so near to one.
  rcases le_or_gt 1 v with hge | hlt
  · obtain ⟨z, hz⟩ := hstands.exists_int_mul hge
    have hfract : Int.fract (factor sign * v) ≤ 1 - 1 / 2 ^ 52 := by
      cases sign with
      | negative => exact @fract_le_of_mul_eq _ (-z) (by rw [factor, Int.cast_neg, ← hz]; ring)
      | positive => exact @fract_le_of_mul_eq _ z (by rw [factor, one_mul, hz])
    refine iff_of_false (fun h => ?_) (fun h => ?_)
    · have := h.trans hfract
      norm_num [tieBelowOne] at this
    · cases sign <;> rw [factor] at h <;> norm_num at h <;> linarith
  · cases sign with
    | positive =>
        rw [factor, one_mul, Int.fract_eq_self.mpr ⟨hnonneg, hlt⟩]
        refine iff_of_false (fun h => ?_) (fun h => absurd h.2 hnonneg.not_gt)
        have := h.trans (hstands.le_floatBelowOne hlt)
        norm_num [tieBelowOne, floatBelowOne] at this
    | negative =>
        rw [factor, neg_one_mul]
        rcases hnonneg.eq_or_lt with rfl | hpos
        · norm_num [tieBelowOne]
        · have hself : Int.fract v = v := Int.fract_eq_self.mpr ⟨hnonneg, hlt⟩
          rw [Int.fract_neg (by rw [hself]; exact hpos.ne'), hself, tieBelowOne]
          constructor
          · exact fun h => ⟨by linarith, by linarith⟩
          · exact fun h => by linarith [h.1]

/-! ## Cutting a float to a whole number -/

theorem roundToInt_eq (m : ℕ) (e : ℤ) :
    roundToInt .positive m e = (⌊(m : ℚ) * 2 ^ e⌋₊ : ℤ) := by
  have hcut : roundToInt .positive m e =
      ((m <<< (e - 0).toNat) / Nat.pow 2 (0 - (e - (e - 0).toNat)).toNat : ℕ) :=
    congrArg Nat.cast (mantissa_shiftRight _ _)
  rw [hcut, Nat.cast_inj]
  rcases le_total 0 e with he | he
  · have hnone : (0 - (e - ((e - 0).toNat : ℤ))).toNat = 0 := by omega
    have hpower : (m : ℚ) * 2 ^ e = ((m * 2 ^ e.toNat : ℕ) : ℚ) := by
      rw [Nat.cast_mul, Nat.cast_pow, ← zpow_natCast, Int.toNat_of_nonneg he]
      rfl
    rw [hnone, sub_zero, Nat.shiftLeft_eq, hpower, Nat.floor_natCast]
    exact Nat.div_one _
  · have hnone : (e - 0).toNat = 0 := by omega
    have hpower : (m : ℚ) * 2 ^ e = (m : ℚ) / ((2 ^ (-e).toNat : ℕ) : ℚ) := by
      have hexponent : ((-e).toNat : ℤ) = -e := by omega
      rw [Nat.cast_pow, ← zpow_natCast, hexponent, zpow_neg, div_inv_eq_mul]
      rfl
    rw [hnone, hpower, Nat.floor_div_eq_div, Nat.shiftLeft_zero, Nat.cast_zero, sub_zero, zero_sub]
    rfl

/-- A float that fits is cut to its whole part. -/
theorem toNat_toUInt32 (hx : x.isFinite = true) (hlow : 0 ≤ exactValue x)
    (hhigh : exactValue x < 2 ^ 32) : x.toUInt32.toNat = ⌊exactValue x⌋₊ := by
  obtain ⟨sign, v, hstands, -⟩ := exists_stands hx
  have hclamp : x.toUInt32 =
      UInt32.ofNatClamp (x.toModel.unpack.toInt 0 (UInt32.size - 1)).toNat := rfl
  have hcut : (x.toModel.unpack.toInt 0 (UInt32.size - 1)).toNat = ⌊exactValue x⌋₊ := by
    unfold exactValue at *
    generalize x.toModel.unpack = f at *
    cases hstands with
    | zero => exact Nat.floor_zero.symm
    | @finite _ m e hm h =>
        have hposition := (Stands.finite sign hm h).position_eq
        cases sign with
        | negative =>
            have hpos := h.value_pos
            rw [hposition, factor] at hlow
            exfalso
            linarith only [hlow, hpos]
        | positive =>
            rw [hposition, factor, one_mul]
            exact (congrArg Int.toNat (roundToInt_eq m e)).trans (Int.toNat_natCast _)
  have hsize : ⌊exactValue x⌋₊ < UInt32.size := (Nat.floor_lt hlow).mpr (by exact_mod_cast hhigh)
  rw [hclamp, hcut, UInt32.ofNatClamp, dif_pos hsize, UInt32.toNat_ofNatLT]

/-! ## The fraction of a second -/

/-- So many nanoseconds are the fraction of a time in seconds, but for rounding. -/
structure IsNanoseconds (time : ℚ) (n : ℕ) : Prop where
  le : n ≤ 10 ^ 9
  eq_iff : n = 10 ^ 9 ↔ -(1 / 2 ^ 54) ≤ time ∧ time < 0
  near : |n / 10 ^ 9 - Int.fract time| ≤ 2 / 10 ^ 9

theorem stands_billion : Stands (1e9 : Float).toModel.unpack .positive (10 ^ 9) :=
  stands_powerOfTen (n := 9) (by decide)

/-- The greatest product that a fraction below one can have. -/
theorem rounds_belowBillion : Rounds (floatBelowOne * 10 ^ 9) (10 ^ 9 * 2 ^ 23 - 1) (-23) := by
  refine ⟨by decide, ?_, Or.inr ?_, ?_, ?_, ?_⟩ <;> norm_num [floatBelowOne]

theorem rounds_billion : Rounds (1 * 10 ^ 9) (10 ^ 9 * 2 ^ 23) (-23) := by
  refine ⟨by decide, ?_, Or.inr ?_, ?_, ?_, ?_⟩ <;> norm_num

/-- The difference of a time and its whole part. -/
theorem exists_rounds_fract (hx : x.isFinite = true) (hsize : ⌊exactValue x⌋.natAbs < 2 ^ 53) :
    (x - Float.ofInt ⌊exactValue x⌋).isFinite = true ∧ ∃ n e, Rounds (Int.fract (exactValue x)) n e ∧
      exactValue (x - Float.ofInt ⌊exactValue x⌋) = n * 2 ^ e := by
  obtain ⟨sign, v, hstands, -⟩ := exists_stands hx
  obtain ⟨sign', hwhole, hvalue⟩ := exists_stands_ofInt hsize
  have hnearest := isNearest_sub hstands hwhole
  rw [hvalue, ← exactValue_of_stands hstands] at hnearest
  have hlt : Int.fract (exactValue x) ≤ 2 ^ 53 := by
    have := Int.fract_lt_one (exactValue x)
    linarith
  exact hnearest.exists_rounds rfl (Int.fract_nonneg _) hlt

/-- The fraction in nanoseconds, before it is cut. -/
theorem exists_rounds_mul_billion {d : Float} (hd : d.isFinite = true) (hlow : 0 ≤ exactValue d)
    (hhigh : exactValue d ≤ 1) :
    (d * 1e9).isFinite = true ∧ exactValue (d * 1e9) ≤ 10 ^ 9 ∧
      ∃ n e, Rounds (exactValue d * 10 ^ 9) n e ∧ exactValue (d * 1e9) = n * 2 ^ e := by
  obtain ⟨sign, v, hstands, -⟩ := exists_stands hd
  have hnearest := isNearest_mul hstands stands_billion
  rw [factor, one_mul, ← exactValue_of_stands hstands] at hnearest
  obtain ⟨hfinite, n, e, hrounds, hvalue⟩ :=
    hnearest.exists_rounds (x := d * 1e9) rfl (by positivity) (by linarith)
  refine ⟨hfinite, ?_, n, e, hrounds, hvalue⟩
  have hle := hrounds.mono rounds_billion (by linarith)
  rw [hvalue]
  norm_num at hle ⊢
  linarith

/-- **The count of nanoseconds** is right but for rounding, and is that of a whole second exactly
for a time just below zero. -/
theorem isNanoseconds (hx : x.isFinite = true) (hsize : ⌊exactValue x⌋.natAbs < 2 ^ 53) :
    IsNanoseconds (exactValue x)
      ((x - Float.ofInt ⌊exactValue x⌋) * 1e9).toUInt32.toNat := by
  obtain ⟨hdifference, n, e, hrounds, hvalue⟩ := exists_rounds_fract hx hsize
  generalize x - Float.ofInt ⌊exactValue x⌋ = d at hdifference hvalue
  have hfract := Int.fract_lt_one (exactValue x)
  obtain ⟨hproduct, hle, l, k, hrounds', hvalue'⟩ := exists_rounds_mul_billion hdifference
    (hvalue ▸ hrounds.nonneg) (hvalue ▸ hrounds.le_one hfract.le)
  generalize d * 1e9 = p at hproduct hle hvalue'
  have hp : 0 ≤ exactValue p := hvalue' ▸ hrounds'.nonneg
  rw [toNat_toUInt32 hproduct hp (by linarith)]
  refine ⟨Nat.floor_le_of_le (by exact_mod_cast hle), ?_, ?_⟩
  -- Below the tie the fraction is rounded to less than one, and its product to less than a billion.
  · rw [← tieBelowOne_le_fract_iff hx]
    constructor
    · intro heq
      by_contra hlt
      have hbelow : exactValue d ≤ floatBelowOne :=
        hvalue ▸ hrounds.le_floatBelowOne (not_le.mp hlt)
      have hmono := hrounds'.mono rounds_belowBillion (by linarith)
      rw [← hvalue'] at hmono
      have hless : exactValue p < ((10 ^ 9 : ℕ) : ℚ) := by
        norm_num at hmono ⊢
        linarith
      exact ((Nat.floor_lt hp).mpr hless).ne heq
    · intro htie
      have hone : exactValue d = 1 := hvalue ▸ hrounds.eq_one htie hfract.le
      have heq : exactValue p = ((10 ^ 9 : ℕ) : ℚ) := by
        rw [hone] at hrounds'
        rw [hvalue', hrounds'.eq_of_eq rounds_billion]
        norm_num
      rw [heq, Nat.floor_natCast]
  · -- Less than one for the cut, and half a unit of the last digit for either rounding.
    have hcount := Nat.floor_le hp
    have hcount' := Nat.lt_floor_add_one (exactValue p)
    have hd : exactValue d ≤ 1 := hvalue ▸ hrounds.le_one hfract.le
    have hfirst := abs_le.mp (hrounds.abs_sub_le (k := -53) (by decide) (by norm_num; linarith))
    have hsecond := abs_le.mp (hrounds'.abs_sub_le (k := -23) (by decide) (by norm_num; linarith))
    rw [← hvalue] at hfirst
    rw [← hvalue'] at hsecond
    norm_num at hfirst hsecond
    rw [abs_le]
    constructor <;> linarith

end TraceTimeline.Number
