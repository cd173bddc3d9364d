import TraceTimeline.Proofs.Number.Magnitude
import Mathlib.Algebra.Order.Field.Power
import Mathlib.Tactic.FieldSimp
import Mathlib.Tactic.Linarith
import Mathlib.Tactic.Positivity
import Mathlib.Tactic.Ring

/-!
# Rounding to a float

Float arithmetic computes with the leading digits of an exact value and two bits that tell what was
dropped behind them. `Keeps` says what these mean. `Rounds r n e` says that the nearest float to a
value `r` is `n · 2 ^ e`, a tie going to the even `n`, where the exponent has no upper bound yet.
Main statements: rounding never reverses the order of two values, and the arithmetic rounds in this
sense.
-/

namespace TraceTimeline.Number

open Float.Model Float.Model.UnpackedFloat

/-- The whole number is the nearest one, and even if there are two. -/
structure Nearest (u : ℚ) (n : ℕ) : Prop where
  le : (n : ℚ) ≤ u + 1 / 2
  ge : u ≤ n + 1 / 2
  tie : (n : ℚ) = u + 1 / 2 ∨ u = n + 1 / 2 → n % 2 = 0

theorem Nearest.mono {u v : ℚ} {m n : ℕ} (hu : Nearest u m) (hv : Nearest v n) (h : u ≤ v) :
    m ≤ n := by
  by_contra hlt
  have hstep : (n : ℚ) + 1 ≤ m := by exact_mod_cast Nat.lt_of_not_le hlt
  -- Both values lie half way between two neighbours, which cannot both be even.
  have hm : (m : ℚ) = u + 1 / 2 := by linarith [hu.le, hv.ge]
  have hn : v = n + 1 / 2 := by linarith [hu.le, hv.ge]
  have hnext : m = n + 1 := by
    have : (m : ℚ) = n + 1 := by linarith [hu.le, hv.ge]
    exact_mod_cast this
  have heven := hu.tie (Or.inl hm)
  have heven' := hv.tie (Or.inr hn)
  omega

/-- The digits are those of `u`, the round bit is the next one, and the sticky bit tells whether
anything lies behind it. -/
def Keeps : ExtendedMantissa → ℚ → Prop
  | ⟨m, false, false⟩, u => u = m
  | ⟨m, false, true⟩, u => m < u ∧ u < m + 1 / 2
  | ⟨m, true, false⟩, u => u = m + 1 / 2
  | ⟨m, true, true⟩, u => m + 1 / 2 < u ∧ u < m + 1

theorem shiftRightOne_mk (k : ℕ) (bit roundBit stickyBit : Bool) :
    ExtendedMantissa.shiftRightOne ⟨2 * k + bit.toNat, roundBit, stickyBit⟩ =
      ⟨k, bit, roundBit || stickyBit⟩ := by
  have hhalf : (2 * k + 1) / 2 = k := by omega
  cases bit <;> simp [ExtendedMantissa.shiftRightOne, hhalf]

theorem exists_last_bit (m : ℕ) : ∃ (k : ℕ) (bit : Bool), m = 2 * k + bit.toNat := by
  rcases Nat.even_or_odd' m with ⟨k, rfl | rfl⟩
  · exact ⟨k, false, rfl⟩
  · exact ⟨k, true, rfl⟩

namespace Keeps

variable {em : ExtendedMantissa} {u : ℚ}

theorem mantissa_le (h : Keeps em u) : (em.mantissa : ℚ) ≤ u := by
  obtain ⟨m, _ | _, _ | _⟩ := em
  · exact h.ge
  · exact h.1.le
  · exact h.symm ▸ by linarith
  · linarith [h.1]

theorem lt_mantissa (h : Keeps em u) : u < em.mantissa + 1 := by
  obtain ⟨m, _ | _, _ | _⟩ := em
  · exact h.symm ▸ by linarith
  · linarith [h.2]
  · exact h.symm ▸ by linarith
  · exact h.2

/-- Rounding by the two bits gives the nearest whole number. -/
theorem nearest (h : Keeps em u) : Nearest u em.roundedMantissa := by
  obtain ⟨m, _ | _, _ | _⟩ := em
  · show Nearest u m
    obtain rfl : u = m := h
    exact ⟨by linarith, by linarith, by rintro (h | h) <;> linarith⟩
  · show Nearest u m
    obtain ⟨hlow, hhigh⟩ : (m : ℚ) < u ∧ u < m + 1 / 2 := h
    exact ⟨by linarith, by linarith, by rintro (h | h) <;> linarith⟩
  · show Nearest u (m + m % 2)
    obtain rfl : u = m + 1 / 2 := h
    have hbit : ((m % 2 : ℕ) : ℚ) ≤ 1 := by
      exact_mod_cast Nat.le_of_lt_succ (Nat.mod_lt m (by decide))
    have hnonneg : (0 : ℚ) ≤ (m % 2 : ℕ) := Nat.cast_nonneg _
    exact ⟨by rw [Nat.cast_add]; linarith, by rw [Nat.cast_add]; linarith, fun _ => by omega⟩
  · show Nearest u (m + 1)
    obtain ⟨hlow, hhigh⟩ : (m : ℚ) + 1 / 2 < u ∧ u < m + 1 := h
    refine ⟨?_, ?_, ?_⟩ <;> rw [Nat.cast_add, Nat.cast_one]
    · linarith
    · linarith
    · rintro (h | h) <;> linarith

/-- One digit less moves the digits to the bits behind them. -/
theorem shiftRightOne (h : Keeps em u) : Keeps em.shiftRightOne (u / 2) := by
  obtain ⟨m, roundBit, stickyBit⟩ := em
  obtain ⟨k, bit, rfl⟩ := exists_last_bit m
  rw [shiftRightOne_mk]
  cases bit <;> cases roundBit <;> cases stickyBit <;>
    simp only [Keeps, Bool.or_false, Bool.or_true, Bool.toNat_true, Bool.toNat_false] at h ⊢ <;>
    push_cast at h
  all_goals first
    | linarith
    | exact ⟨by linarith, by linarith⟩

theorem shiftRight (h : Keeps em u) (k : ℕ) : Keeps (em >>> k) (u / 2 ^ k) := by
  induction k with
  | zero =>
      rw [pow_zero, div_one]
      exact h
  | succ k ih =>
      have hstep : em >>> (k + 1) = (em >>> k).shiftRightOne := rfl
      rw [hstep, pow_succ, ← div_div]
      exact ih.shiftRightOne

end Keeps

/-! ## The nearest float -/

/-- The nearest float to `r` is `n · 2 ^ e`. Its last digit is at `2 ^ e`: the leading digit of `r`
stands 52 places above, or the exponent is the least. -/
structure Rounds (r : ℚ) (n : ℕ) (e : ℤ) : Prop where
  least : -1074 ≤ e
  lt : r < 2 ^ 53 * 2 ^ e
  normal : e = -1074 ∨ 2 ^ 52 * 2 ^ e ≤ r
  nearest : Nearest (r / 2 ^ e) n

theorem zpow_le_zpow_two {e f : ℤ} (h : e ≤ f) : (2 : ℚ) ^ e ≤ 2 ^ f :=
  zpow_le_zpow_right₀ (by norm_num) h

theorem pow_mul_zpow_two (k : ℕ) (e : ℤ) : (2 : ℚ) ^ k * 2 ^ e = 2 ^ (k + e) := by
  rw [zpow_add₀ (by norm_num), zpow_natCast]

theorem two_mul_zpow_le {e f : ℤ} (h : e < f) : 2 * (2 : ℚ) ^ e ≤ 2 ^ f := by
  have hle := zpow_le_zpow_two (Int.add_one_le_of_lt h)
  rw [zpow_add_one₀ (by norm_num)] at hle
  linarith

namespace Rounds

variable {r s : ℚ} {m n : ℕ} {e f : ℤ}

theorem le_two_pow (h : Rounds r n e) : n ≤ 2 ^ 53 := by
  have hpos : (0 : ℚ) < 2 ^ e := by positivity
  have hlt : r / 2 ^ e < 2 ^ 53 := (div_lt_iff₀ hpos).mpr h.lt
  have hn : (n : ℚ) < 2 ^ 53 + 1 := by linarith [h.nearest.le]
  have : n < 2 ^ 53 + 1 := by exact_mod_cast hn
  omega

theorem two_pow_le (h : Rounds r n e) (he : e ≠ -1074) : 2 ^ 52 ≤ n := by
  have hpos : (0 : ℚ) < 2 ^ e := by positivity
  have hle : 2 ^ 52 ≤ r / 2 ^ e := (le_div_iff₀ hpos).mpr (h.normal.resolve_left he)
  have hn : (2 : ℚ) ^ 52 < n + 1 := by linarith [h.nearest.ge]
  have : 2 ^ 52 < n + 1 := by exact_mod_cast hn
  omega

/-- **Rounding never reverses the order of two values.** -/
theorem mono (hr : Rounds r m e) (hs : Rounds s n f) (h : r ≤ s) :
    (m : ℚ) * 2 ^ e ≤ n * 2 ^ f := by
  have hpos : (0 : ℚ) < 2 ^ e := by positivity
  have hpos' : (0 : ℚ) < 2 ^ f := by positivity
  rcases lt_trichotomy e f with hlt | rfl | hgt
  · -- The greater value has a digit 52 places above its last one, and the other has none there.
    have hm : (m : ℚ) ≤ 2 ^ 53 := by exact_mod_cast hr.le_two_pow
    have hn : (2 : ℚ) ^ 52 ≤ n := by
      exact_mod_cast hs.two_pow_le (by have := hr.least; omega)
    calc (m : ℚ) * 2 ^ e ≤ 2 ^ 53 * 2 ^ e := by gcongr
      _ = 2 ^ 52 * (2 * 2 ^ e) := by ring
      _ ≤ 2 ^ 52 * 2 ^ f := by gcongr; exact two_mul_zpow_le hlt
      _ ≤ n * 2 ^ f := by gcongr
  · have hle : m ≤ n := hr.nearest.mono hs.nearest (by gcongr)
    gcongr
  · -- The exponents go with the size of the values, so they cannot be the other way round.
    have hlow := hr.normal.resolve_left (by have := hs.least; omega)
    have hstep := two_mul_zpow_le hgt
    have := hs.lt
    linarith

theorem eq_of_eq (hr : Rounds r m e) (hs : Rounds r n f) : (m : ℚ) * 2 ^ e = n * 2 ^ f :=
  le_antisymm (hr.mono hs le_rfl) (hs.mono hr le_rfl)

end Rounds

theorem rounds_zero : Rounds 0 0 (-1074) := by
  refine ⟨le_rfl, by positivity, Or.inl rfl, ?_⟩
  rw [zero_div]
  exact ⟨by norm_num, by norm_num, fun _ => rfl⟩

/-! ## Digits are rounded to floats -/

/-- The digits of a float: 53 of them, or fewer where the last one is at the least place. -/
structure Canonical (m : ℕ) (e : ℤ) : Prop where
  pos : 0 < m
  lt : m < 2 ^ 53
  least : -1074 ≤ e
  normal : e = -1074 ∨ 2 ^ 52 ≤ m

/-- A float is the nearest one to its own value. -/
theorem Canonical.rounds {m : ℕ} {e : ℤ} (h : Canonical m e) : Rounds (m * 2 ^ e) m e := by
  have hpos : (0 : ℚ) < 2 ^ e := by positivity
  refine ⟨h.least, ?_, ?_, ?_⟩
  · have hm : (m : ℚ) < 2 ^ 53 := by exact_mod_cast h.lt
    gcongr
  · refine h.normal.imp_right fun hnormal => ?_
    have hm : (2 : ℚ) ^ 52 ≤ m := by exact_mod_cast hnormal
    gcongr
  · rw [mul_div_cancel_right₀ _ hpos.ne']
    exact ⟨by linarith, by linarith, by rintro (h | h) <;> linarith⟩

/-- A finite float by its sign and its size. -/
inductive Stands : UnpackedFloat → Sign → ℚ → Prop
  | zero (sign : Sign) : Stands (.zero sign) sign 0
  | finite (sign : Sign) {m : ℕ} {e : ℤ} (hm : 0 < m) (h : Canonical m e) :
      Stands (.finite sign m e hm) sign (m * 2 ^ e)

theorem Rounds.canonical {r : ℚ} {n : ℕ} {e : ℤ} (h : Rounds r n e) (hpos : 0 < n)
    (hlt : n < 2 ^ 53) : Canonical n e where
  pos := hpos
  lt := hlt
  least := h.least
  normal := by
    by_cases he : e = -1074
    · exact Or.inl he
    · exact Or.inr (h.two_pow_le he)

/-- The float that is made of the digits that are left. -/
theorem stands_digits (sign : Sign) {m n : ℕ} {e f : ℤ} (hm : m = n) (he : e = f)
    (h : n ≠ 0 → Canonical n f) :
    Stands (if hzero : m = 0 then .zero sign else .finite sign m e (Nat.pos_of_ne_zero hzero)) sign
      (n * 2 ^ f) := by
  subst hm he
  by_cases hzero : m = 0
  · rw [dif_pos hzero, hzero, Nat.cast_zero, zero_mul]
    exact Stands.zero sign
  · rw [dif_neg hzero]
    exact Stands.finite sign _ (h hzero)

/-- The first shift keeps as many digits as a float has, and the bits behind them round to the
nearest float. -/
theorem rounds_shiftToTargetExponent {m : ℕ} {e : ℤ} {accuracy : Accuracy} {u : ℚ}
    (hkeeps : Keeps (ExtendedMantissa.ofMantissaAndAccuracy m accuracy) u)
    (he : e ≤ max (totalExponent m e - 53) (-1074)) :
    Rounds (u * 2 ^ e) (shiftToTargetExponent Format.binary64 m e accuracy).1.roundedMantissa
      (shiftToTargetExponent Format.binary64 m e accuracy).2 := by
  obtain ⟨k, hk, hshift⟩ := shiftToTargetExponent_eq m e accuracy
  rw [hshift]
  have hlow := hkeeps.mantissa_le
  have hhigh := hkeeps.lt_mantissa
  rw [mantissa_ofMantissaAndAccuracy] at hlow hhigh
  simp only [totalExponent] at hk he
  have hpos : (0 : ℚ) < 2 ^ e := by positivity
  refine ⟨by omega, ?_, ?_, ?_⟩
  · have hdigits : (m : ℚ) + 1 ≤ 2 ^ (m.log2 + 1) := by exact_mod_cast Nat.lt_log2_self
    calc u * 2 ^ e < (m + 1) * 2 ^ e := by gcongr
      _ ≤ 2 ^ (m.log2 + 1) * 2 ^ e := by gcongr
      _ = 2 ^ (((m.log2 + 1 : ℕ) : ℤ) + e) := pow_mul_zpow_two _ _
      _ ≤ 2 ^ (((53 : ℕ) : ℤ) + (e + k)) := zpow_le_zpow_two (by push_cast; omega)
      _ = 2 ^ 53 * 2 ^ (e + k) := (pow_mul_zpow_two _ _).symm
  · rcases Nat.eq_zero_or_pos m with rfl | hm
    · rw [Nat.log2_zero] at hk he
      exact Or.inl (by omega)
    · by_cases hleast : e + k = -1074
      · exact Or.inl hleast
      · right
        have hdigits : (2 : ℚ) ^ m.log2 ≤ m := by exact_mod_cast Nat.log2_self_le (by omega)
        calc 2 ^ 52 * 2 ^ (e + k) = 2 ^ (((52 : ℕ) : ℤ) + (e + k)) := pow_mul_zpow_two _ _
          _ ≤ 2 ^ ((m.log2 : ℤ) + e) := zpow_le_zpow_two (by push_cast; omega)
          _ = 2 ^ m.log2 * 2 ^ e := (pow_mul_zpow_two _ _).symm
          _ ≤ u * 2 ^ e := by gcongr; exact hdigits.trans hlow
  · have hscale : u * 2 ^ e / 2 ^ (e + k) = u / 2 ^ k := by
      rw [zpow_add₀ (by norm_num), zpow_natCast]
      field_simp
    rw [hscale]
    exact (hkeeps.shiftRight k).nearest

/-- **Digits that say enough of a value** are rounded to the nearest float. They say enough if none
of the 53 that a float can have is missing. -/
theorem stands_roundWithAccuracy {m : ℕ} {e : ℤ} {accuracy : Accuracy} {u : ℚ}
    (hkeeps : Keeps (ExtendedMantissa.ofMantissaAndAccuracy m accuracy) u)
    (he : e ≤ max (totalExponent m e - 53) (-1074)) (sign : Sign) :
    ∃ n f, Rounds (u * 2 ^ e) n f ∧
      Stands (roundWithAccuracy Format.binary64 sign m e accuracy) sign (n * 2 ^ f) := by
  have hrounds := rounds_shiftToTargetExponent hkeeps he
  rw [roundWithAccuracy]
  generalize shiftToTargetExponent Format.binary64 m e accuracy = first at hrounds
  obtain ⟨em, f⟩ := first
  dsimp only at hrounds ⊢
  refine ⟨em.roundedMantissa, f, hrounds, ?_⟩
  generalize em.roundedMantissa = n at hrounds
  have hleast := hrounds.least
  obtain ⟨j, hj, hshift⟩ := shiftToTargetExponent_eq n f .exact
  have hdigits : (ExtendedMantissa.ofMantissaAndAccuracy n .exact >>> j).mantissa =
      n / Nat.pow 2 j := mantissa_shiftRight _ _
  rw [hshift]
  simp only [totalExponent] at hj
  -- A carry can make one digit too many, but only in `2 ^ 53`, which is shifted once more.
  rcases Nat.lt_or_ge n (2 ^ 53) with hlt | hge
  · have hnone : j = 0 := by
      have hlog : n.log2 ≤ 52 := by
        rcases Nat.eq_zero_or_pos n with rfl | hn
        · decide
        · exact Nat.le_of_lt_succ ((Nat.log2_lt (Nat.ne_of_gt hn)).mpr hlt)
      omega
    subst hnone
    exact stands_digits sign (hdigits.trans (Nat.div_one n)) (add_zero f) fun hn =>
      hrounds.canonical (Nat.pos_of_ne_zero hn) hlt
  · have hn : n = 2 ^ 53 := le_antisymm hrounds.le_two_pow hge
    subst hn
    have hone : j = 1 := by
      rw [Nat.log2_two_pow] at hj
      omega
    subst hone
    have hvalue : ((2 ^ 53 : ℕ) : ℚ) * 2 ^ f = ((2 ^ 52 : ℕ) : ℚ) * 2 ^ (f + 1) := by
      rw [zpow_add_one₀ (by norm_num)]
      push_cast
      ring
    rw [hvalue]
    exact stands_digits sign (hdigits.trans rfl) rfl fun _ =>
      ⟨by decide, by decide, by omega, Or.inr (by decide)⟩

end TraceTimeline.Number
