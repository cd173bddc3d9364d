import TraceTimeline.Proofs.Number.FloatArithmetic
import TraceTimeline.Proofs.Number.FloatBits

/-!
# Scaling by a power of ten

A quotient of two numbers is the nearest float to the exact one, as a product is. So what is read is
the nearest float to the number as written wherever the significand and the power of ten are floats
themselves: a significand with few enough binary digits, and a power up to the twenty-second.
-/

namespace TraceTimeline.Number

open Float.Model Float.Model.UnpackedFloat

/-- The rest of a division tells where the quotient lies behind its digits. -/
theorem keeps_accuracyOfFraction {q r d : ℕ} (h : r < d) :
    Keeps (ExtendedMantissa.ofMantissaAndAccuracy q (accuracyOfFraction r d)) (q + r / d) := by
  have hd : (0 : ℚ) < d := by exact_mod_cast (Nat.zero_le r).trans_lt h
  have hlt : (r : ℚ) / d < 1 := (div_lt_one hd).mpr (by exact_mod_cast h)
  unfold accuracyOfFraction
  by_cases hzero : r = 0
  · rw [if_pos hzero, hzero]
    show (q : ℚ) + (0 : ℕ) / d = q
    rw [Nat.cast_zero, zero_div, add_zero]
  · have hpos : 0 < (r : ℚ) / d := div_pos (by exact_mod_cast Nat.pos_of_ne_zero hzero) hd
    rw [if_neg hzero]
    rcases Nat.lt_trichotomy (2 * r) d with hlow | heq | hhigh
    · have hhalf : (r : ℚ) / d < 1 / 2 := by
        rw [div_lt_div_iff₀ hd two_pos]
        exact_mod_cast (by omega : r * 2 < 1 * d)
      rw [Nat.compare_eq_lt.mpr hlow]
      exact ⟨by linarith, by linarith⟩
    · have hhalf : (r : ℚ) / d = 1 / 2 := by
        rw [div_eq_div_iff hd.ne' two_ne_zero]
        exact_mod_cast (by omega : r * 2 = 1 * d)
      rw [Nat.compare_eq_eq.mpr heq, hhalf]
      rfl
    · have hhalf : 1 / 2 < (r : ℚ) / d := by
        rw [div_lt_div_iff₀ two_pos hd]
        exact_mod_cast (by omega : 1 * d < r * 2)
      rw [Nat.compare_eq_gt.mpr hhigh]
      exact ⟨by linarith, by linarith⟩

theorem factor_div (s t : Sign) : factor (s / t) = factor s / factor t := by
  cases s <;> cases t
  · exact (by norm_num : (1 : ℚ) = -1 / -1)
  · exact (by norm_num : (-1 : ℚ) = -1 / 1)
  · exact (by norm_num : (-1 : ℚ) = 1 / -1)
  · exact (by norm_num : (1 : ℚ) = 1 / 1)

/-- The digits of the first number are shifted until enough of the quotient is whole. -/
theorem divCore_eq (m : ℕ) (e : ℤ) (n : ℕ) (k : ℤ) :
    ∃ l : ℕ, (l : ℤ) = max 0 (e - k - max (totalExponent m e - totalExponent n k - 53) (-1074)) ∧
      divCore Format.binary64 m e n k =
        ((m <<< l) / n, e - k - l, accuracyOfFraction ((m <<< l) % n) n) := by
  obtain ⟨j, hj, hcore⟩ : ∃ j : ℤ,
      j = min (e - k) (max (totalExponent m e - totalExponent n k - 53) (-1074)) ∧
      divCore Format.binary64 m e n k =
        ((m <<< (e - k - j).toNat) / n, j, accuracyOfFraction ((m <<< (e - k - j).toNat) % n) n) :=
    ⟨_, rfl, rfl⟩
  refine ⟨(e - k - j).toNat, by omega, ?_⟩
  have hplace : e - k - ((e - k - j).toNat : ℤ) = j := by omega
  rw [hcore, hplace]

/-- A quotient of numbers has all digits that it needs. -/
theorem digits_suffice_div {m n l : ℕ} {e k : ℤ} (hm : 0 < m) (hn : 0 < n)
    (hl : (l : ℤ) = max 0 (e - k - max (totalExponent m e - totalExponent n k - 53) (-1074))) :
    e - k - l ≤ max (totalExponent ((m <<< l) / n) (e - k - l) - 53) (-1074) := by
  by_cases hleast : e - k - l ≤ -1074
  · exact hleast.trans (le_max_right _ _)
  · -- The shifted number has 53 digits more than the other one, so the quotient has as many.
    simp only [totalExponent] at hl ⊢
    have hdigits : n.log2 + 53 ≤ m.log2 + l := by omega
    have hlow : 2 ^ 52 * n ≤ m <<< l := by
      rw [Nat.shiftLeft_eq]
      calc 2 ^ 52 * n ≤ 2 ^ 52 * 2 ^ (n.log2 + 1) := Nat.mul_le_mul_left _ Nat.lt_log2_self.le
        _ = 2 ^ (n.log2 + 53) := by rw [← pow_add]; congr 1; omega
        _ ≤ 2 ^ (m.log2 + l) := Nat.pow_le_pow_right two_pos hdigits
        _ = 2 ^ m.log2 * 2 ^ l := pow_add 2 _ _
        _ ≤ m * 2 ^ l := Nat.mul_le_mul_right _ (Nat.log2_self_le hm.ne')
    have hquotient : 2 ^ 52 ≤ (m <<< l) / n := (Nat.le_div_iff_mul_le hn).mpr hlow
    have hlog : 52 ≤ ((m <<< l) / n).log2 :=
      (Nat.le_log2 (by omega)).mpr hquotient
    omega

/-- A quotient of numbers is the nearest float to the exact one. -/
theorem isNearest_div {f g : UnpackedFloat} {s t : Sign} {v w : ℚ} (hf : Stands f s v)
    (hg : Stands g t w) (hw : 0 < w) :
    IsNearest (factor s * v / (factor t * w)) (UnpackedFloat.div Format.binary64 f g) := by
  cases hg with
  | zero => exact absurd hw (lt_irrefl 0)
  | finite _ hn h' =>
      cases hf with
      | zero =>
          rw [mul_zero, zero_div]
          exact isNearest_zero (s / t)
      | finite _ hm h =>
          rename_i n k m e
          obtain ⟨l, hl, hcore⟩ := divCore_eq m e n k
          have hkeeps := @keeps_accuracyOfFraction ((m <<< l) / n) _ _ (Nat.mod_lt (m <<< l) hn)
          obtain ⟨c, j, hrounds, hstands⟩ :=
            stands_roundWithAccuracy hkeeps (digits_suffice_div hm hn hl) (s / t)
          have hn' : (0 : ℚ) < n := by exact_mod_cast hn
          have hwhole : (((m <<< l) / n : ℕ) : ℚ) + ((m <<< l) % n : ℕ) / n = m * 2 ^ l / n := by
            rw [eq_div_iff hn'.ne', add_mul, div_mul_cancel₀ _ hn'.ne']
            exact_mod_cast (Nat.div_add_mod' (m <<< l) n).trans (Nat.shiftLeft_eq m l)
          have hdiv : UnpackedFloat.div Format.binary64 (.finite s m e hm) (.finite t n k hn) =
              roundWithAccuracy Format.binary64 (s / t) ((m <<< l) / n) (e - k - l)
                (accuracyOfFraction ((m <<< l) % n) n) := by
            have hunfold : UnpackedFloat.div Format.binary64 (.finite s m e hm) (.finite t n k hn) =
                roundWithAccuracy Format.binary64 (s / t) (divCore Format.binary64 m e n k).1
                  (divCore Format.binary64 m e n k).2.1 (divCore Format.binary64 m e n k).2.2 := rfl
            rw [hunfold, hcore]
          rw [hdiv]
          refine ⟨s / t, _, c, j, ?_, by positivity, hrounds, hstands⟩
          rw [hwhole, factor_div, zpow_sub₀ (by norm_num), zpow_sub₀ (by norm_num), zpow_natCast]
          have ht : factor t ≠ 0 := by
            cases t
            · exact (by norm_num : (-1 : ℚ) ≠ 0)
            · exact one_ne_zero
          field_simp

/-- The nearest float to a positive value has a plus sign. -/
theorem IsNearest.stands {a : ℚ} {f : UnpackedFloat} (h : IsNearest a f) (hpos : 0 < a) {n : ℕ}
    {e : ℤ} (hrounds : Rounds a n e) : Stands f .positive (n * 2 ^ e) := by
  obtain ⟨sign, r, m, k, ha, hr, hrounds', hstands⟩ := h
  cases sign with
  | negative =>
      unfold factor at ha
      linarith
  | positive =>
      rw [factor, one_mul] at ha
      subst ha
      rwa [hrounds.eq_of_eq hrounds']

theorem stands_of_isNearest {x : Float} {f : UnpackedFloat}
    (hmodel : x.toModel = Float.Model.pack f) {a : ℚ} (h : IsNearest a f) (hpos : 0 < a) {n : ℕ}
    {e : ℤ} (hrounds : Rounds a n e) (hfits : (n : ℚ) * 2 ^ e < overflow) :
    Stands x.toModel.unpack .positive (n * 2 ^ e) := by
  have hstands := h.stands hpos hrounds
  rw [hmodel, hstands.unpack_pack, if_pos hfits]
  exact hstands

/-! ## Whole numbers and powers of ten -/

/-- The whole number has at most 53 binary digits, apart from zeros at its end. -/
def HasFewDigits (n : ℕ) : Prop :=
  ∃ m k, m < 2 ^ 53 ∧ n = m * 2 ^ k

theorem HasFewDigits.exists_canonical {n : ℕ} (h : HasFewDigits n) (hpos : 0 < n) :
    ∃ m e, Canonical m e ∧ (n : ℚ) = m * 2 ^ e := by
  obtain ⟨m, k, hlt, rfl⟩ := h
  have hm : 0 < m := Nat.pos_of_mul_pos_right hpos
  have hlog : m.log2 ≤ 52 := Nat.le_of_lt_succ ((Nat.log2_lt hm.ne').mpr hlt)
  have hfull : (m <<< (52 - m.log2)).log2 = 52 := by
    rw [log2_shiftLeft hm]
    omega
  have hne : m <<< (52 - m.log2) ≠ 0 := fun hzero => by
    rw [hzero] at hfull
    exact absurd hfull (by decide)
  refine ⟨m <<< (52 - m.log2), k - (52 - m.log2 : ℕ), ⟨Nat.pos_of_ne_zero hne, ?_, by omega,
    Or.inr ?_⟩, ?_⟩
  · exact (Nat.log2_lt hne).mp (by omega)
  · exact (Nat.le_log2 hne).mp hfull.ge
  · rw [Nat.shiftLeft_eq, zpow_sub₀ (by norm_num), zpow_natCast, zpow_natCast]
    push_cast
    field_simp

theorem lt_overflow_of_lt {n : ℕ} (h : n < 2 ^ 64) : (n : ℚ) < overflow := by
  have hn : (n : ℚ) < 2 ^ 64 := by exact_mod_cast h
  calc (n : ℚ) < 2 ^ 64 := hn
    _ = 2 ^ (64 : ℤ) := by norm_num
    _ ≤ overflow := zpow_le_zpow_two (by norm_num)

theorem stands_toFloat {n : ℕ} (hpos : 0 < n) (hlt : n < 2 ^ 64) (h : HasFewDigits n) :
    Stands n.toUInt64.toFloat.toModel.unpack .positive n := by
  obtain ⟨m, e, hcanonical, hvalue⟩ := h.exists_canonical hpos
  have hn : n.toUInt64.toNat = n := UInt64.toNat_ofNat_of_lt' hlt
  have hmodel : n.toUInt64.toFloat.toModel = Float.Model.pack
      (UnpackedFloat.normalize Format.binary64 (n.toUInt64.toNat : ℤ) 0 .positive) := rfl
  have hnearest := isNearest_normalize n.toUInt64.toNat 0 .positive
  have hsize : ((n.toUInt64.toNat : ℤ) : ℚ) * 2 ^ (0 : ℤ) = m * 2 ^ e := by
    rw [zpow_zero, mul_one, hn, Int.cast_natCast, hvalue]
  rw [hsize] at hnearest
  have hfits : (m : ℚ) * 2 ^ e < overflow := hvalue ▸ lt_overflow_of_lt hlt
  rw [hvalue]
  exact stands_of_isNearest hmodel hnearest hcanonical.value_pos hcanonical.rounds hfits

/-- The powers of ten that a float holds, taken apart: their digits are shifted until there are
53. -/
theorem ofFloat_powerOfTen : ∀ n < 23,
    Binary.ofFloat (Json.Numeral.powerOfTen n) =
        .finite false (10 ^ n * 2 ^ 52 / 2 ^ (10 ^ n).log2) ((10 ^ n).log2 - 52) ∧
      2 ^ (10 ^ n).log2 ∣ 10 ^ n * 2 ^ 52 := by
  decide +kernel

theorem stands_powerOfTen {n : ℕ} (h : n ≤ 22) :
    Stands (Json.Numeral.powerOfTen n).toModel.unpack .positive (10 ^ n) := by
  obtain ⟨hparts, hdvd⟩ := ofFloat_powerOfTen n (by omega)
  have hstands := (stands_of_ofFloat hparts).1
  have hvalue : ((10 ^ n * 2 ^ 52 / 2 ^ (10 ^ n).log2 : ℕ) : ℚ) *
      2 ^ (((10 ^ n).log2 : ℤ) - 52) = 10 ^ n := by
    have hwhole : ((10 ^ n * 2 ^ 52 / 2 ^ (10 ^ n).log2 : ℕ) : ℚ) * 2 ^ (10 ^ n).log2 =
        10 ^ n * 2 ^ 52 := by
      exact_mod_cast Nat.div_mul_cancel hdvd
    have hplace : (2 : ℚ) ^ (52 : ℤ) = 2 ^ 52 := zpow_natCast 2 52
    rw [zpow_sub₀ (by norm_num), zpow_natCast, hplace, ← mul_div_assoc, hwhole]
    field_simp
  rwa [hvalue] at hstands

/-! ## Scaling -/

open Json.Numeral

theorem isInf_eq_false_of_stands {x : Float} {sign : Sign} {v : ℚ}
    (h : Stands x.toModel.unpack sign v) : x.isInf = false := by
  show x.toModel.unpack.isInf = false
  generalize x.toModel.unpack = f at h
  cases h <;> rfl

/-- **Scaling rounds once** where neither the digits nor the power of ten have to be rounded: the
result is the nearest float to the number as written. -/
theorem exists_scale_eq {n m : ℕ} {place e : ℤ} (hpos : 0 < n) (hlt : n < 2 ^ 64)
    (hdigits : HasFewDigits n) (hplace : place.natAbs ≤ 22) (hrounds : Rounds (n * 10 ^ place) m e)
    (hfits : (m : ℚ) * 2 ^ e < overflow) :
    ∃ y, scale n.toUInt64.toFloat place = some y ∧
      Stands y.toModel.unpack .positive (m * 2 ^ e) := by
  have hn := stands_toFloat hpos hlt hdigits
  have hpower := stands_powerOfTen hplace
  have hvalue : (0 : ℚ) < n * 10 ^ place := by
    have : (0 : ℚ) < n := by exact_mod_cast hpos
    positivity
  rw [scale.eq_def, if_pos (hplace.trans (by decide))]
  by_cases hsign : 0 ≤ place
  · have hplace' : (10 : ℚ) ^ place = 10 ^ place.natAbs := by
      rw [← zpow_natCast, Int.natAbs_of_nonneg hsign]
    have hnearest := isNearest_mul hn hpower
    rw [factor, one_mul, one_mul, ← hplace'] at hnearest
    have hstands : Stands (n.toUInt64.toFloat * powerOfTen place.natAbs).toModel.unpack .positive
        (m * 2 ^ e) := stands_of_isNearest rfl hnearest hvalue hrounds hfits
    refine ⟨_, ?_, hstands⟩
    rw [if_pos hsign]
    simp only [isInf_eq_false_of_stands hstands, Bool.false_eq_true, if_false]
  · have hplace' : (10 : ℚ) ^ place = (10 ^ place.natAbs)⁻¹ := by
      rw [← zpow_natCast, ← zpow_neg]
      congr 1
      omega
    have hnearest := isNearest_div hn hpower (by positivity)
    rw [factor, one_mul, one_mul, div_eq_mul_inv, ← hplace'] at hnearest
    have hstands : Stands (n.toUInt64.toFloat / powerOfTen place.natAbs).toModel.unpack .positive
        (m * 2 ^ e) := stands_of_isNearest rfl hnearest hvalue hrounds hfits
    exact ⟨_, if_neg hsign, hstands⟩

end TraceTimeline.Number
