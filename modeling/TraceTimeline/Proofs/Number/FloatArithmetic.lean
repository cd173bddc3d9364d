import TraceTimeline.Proofs.Number.FloatOrder

/-!
# Float arithmetic

A sum or a product of two numbers is the nearest float to the exact result. So neither reverses the
order of two floats: not below stays not below when both are multiplied by one positive number, or
when one float is added to both. Infinities and the lack of a number are no exceptions, since no
comparison with "not a number" holds.
-/

namespace TraceTimeline.Number

open Float.Model Float.Model.UnpackedFloat

def IsNearest (a : ℚ) (f : UnpackedFloat) : Prop :=
  ∃ sign r n e, factor sign * r = a ∧ 0 ≤ r ∧ Rounds r n e ∧ Stands f sign (n * 2 ^ e)

theorem isNearest_zero (sign : Sign) : IsNearest 0 (.zero sign) :=
  ⟨sign, 0, 0, -1074, mul_zero _, le_rfl, rounds_zero, by
    rw [Nat.cast_zero, zero_mul]; exact Stands.zero sign⟩

theorem Stands.isNearest {f : UnpackedFloat} {sign : Sign} {v : ℚ} (h : Stands f sign v) :
    IsNearest (factor sign * v) f := by
  cases h with
  | zero =>
      rw [mul_zero]
      exact isNearest_zero sign
  | finite _ hm h => exact ⟨sign, _, _, _, rfl, h.value_pos.le, h.rounds, Stands.finite sign hm h⟩

theorem rounds_eq_zero {n : ℕ} {e : ℤ} (h : Rounds 0 n e) : (n : ℚ) * 2 ^ e = 0 := by
  rw [h.eq_of_eq rounds_zero, Nat.cast_zero, zero_mul]

theorem position_unpack_pack {f : UnpackedFloat} {sign : Sign} {v : ℚ} (h : Stands f sign v) :
    position (Float.Model.pack f).unpack = max (-overflow) (min (factor sign * v) overflow) := by
  have hpos := overflow_pos
  have hnonneg := h.nonneg
  rw [h.unpack_pack]
  split
  · rename_i hlt
    obtain ⟨hlow, hhigh⟩ := h.between hlt
    rw [h.position_eq, min_eq_left hhigh.le, max_eq_right hlow.le]
  · rename_i hge
    cases sign with
    | negative =>
        rw [position_negativeInfinity, factor, min_eq_left (by linarith), max_eq_left (by linarith)]
    | positive =>
        rw [position_positiveInfinity, factor, min_eq_right (by linarith),
          max_eq_right (by linarith)]

/-- Rounding never reverses the order of two values, whatever their signs. -/
theorem IsNearest.position_mono {a b : ℚ} {f g : UnpackedFloat} (hf : IsNearest a f)
    (hg : IsNearest b g) (h : a ≤ b) :
    position (Float.Model.pack f).unpack ≤ position (Float.Model.pack g).unpack := by
  obtain ⟨s, r, m, e, ha, hr, hrounds, hstands⟩ := hf
  obtain ⟨t, q, n, k, hb, hq, hrounds', hstands'⟩ := hg
  rw [position_unpack_pack hstands, position_unpack_pack hstands']
  refine max_le_max le_rfl (min_le_min ?_ le_rfl)
  have hnonneg := hstands.nonneg
  have hnonneg' := hstands'.nonneg
  subst ha hb
  cases s <;> cases t <;> unfold factor at h ⊢
  · have := hrounds'.mono hrounds (by linarith)
    linarith
  · linarith
  · -- A value that is not negative can only be below one that is not positive if both are zero.
    obtain rfl : r = 0 := by linarith
    obtain rfl : q = 0 := by linarith
    rw [rounds_eq_zero hrounds, rounds_eq_zero hrounds']
    norm_num
  · have := hrounds.mono hrounds' (by linarith)
    linarith

/-! ## Products and sums -/

theorem factor_mul (s t : Sign) : factor (s * t) = factor s * factor t := by
  cases s <;> cases t
  · exact (by norm_num : (1 : ℚ) = -1 * -1)
  · exact (by norm_num : (-1 : ℚ) = -1 * 1)
  · exact (by norm_num : (-1 : ℚ) = 1 * -1)
  · exact (by norm_num : (1 : ℚ) = 1 * 1)

theorem keeps_exact (m : ℕ) : Keeps (ExtendedMantissa.ofMantissaAndAccuracy m .exact) m :=
  rfl

/-- A product of canonical numbers has all digits that it needs. -/
theorem digits_suffice_mul {m n : ℕ} {e k : ℤ} (h : Canonical m e) (h' : Canonical n k) :
    e + k ≤ max (totalExponent (m * n) (e + k) - 53) (-1074) := by
  have hm := h.pos
  have hn := h'.pos
  by_cases hlow : 2 ^ 52 ≤ m * n
  · have hlog : 52 ≤ (m * n).log2 := (Nat.le_log2 (Nat.mul_pos hm hn).ne').mpr hlow
    rw [totalExponent]
    omega
  · -- Neither number is of normal size, so both have the least exponent.
    have he : e = -1074 := h.normal.resolve_right fun hge =>
      hlow (hge.trans (Nat.le_mul_of_pos_right m hn))
    have hk : k = -1074 := h'.normal.resolve_right fun hge =>
      hlow (hge.trans (Nat.le_mul_of_pos_left n hm))
    omega

/-- A product of numbers is the nearest float to the exact one. -/
theorem isNearest_mul {f g : UnpackedFloat} {s t : Sign} {v w : ℚ} (hf : Stands f s v)
    (hg : Stands g t w) :
    IsNearest (factor s * v * (factor t * w)) (UnpackedFloat.mul Format.binary64 f g) := by
  cases hf with
  | zero =>
      rw [mul_zero, zero_mul]
      cases hg with
      | zero => exact isNearest_zero (s * t)
      | finite => exact isNearest_zero (s * t)
  | finite _ hm h =>
      cases hg with
      | zero =>
          rw [mul_zero, mul_zero]
          exact isNearest_zero (s * t)
      | finite _ hn h' =>
          rename_i m e n k
          have hdigits : e + k ≤ max (totalExponent (m * n) (e + k) - 53) (-1074) :=
            digits_suffice_mul h h'
          obtain ⟨l, j, hrounds, hstands⟩ :=
            stands_roundWithAccuracy (keeps_exact (m * n)) hdigits (s * t)
          refine ⟨s * t, _, l, j, ?_, ?_, hrounds, hstands⟩
          · rw [factor_mul, zpow_add₀ (by norm_num), Nat.cast_mul]
            ring
          · positivity

/-- A number that may have too many digits or too few is rounded. -/
theorem stands_round {m : ℕ} (hm : 0 < m) (e : ℤ) (sign : Sign) :
    ∃ n k, Rounds (m * 2 ^ e) n k ∧
      Stands (UnpackedFloat.round Format.binary64 sign m e) sign (n * 2 ^ k) := by
  obtain ⟨l, hl, hround⟩ : ∃ l : ℕ, (l : ℤ) = max 0 (e - max (totalExponent m e - 53) (-1074)) ∧
      UnpackedFloat.round Format.binary64 sign m e =
        roundWithAccuracy Format.binary64 sign (m <<< l) (e - l) .exact :=
    ⟨(e - max (totalExponent m e - 53) (-1074)).toNat, by omega, rfl⟩
  have hdigits : e - l ≤ max (totalExponent (m <<< l) (e - l) - 53) (-1074) := by
    rw [totalExponent, log2_shiftLeft hm]
    rw [totalExponent] at hl
    omega
  have hvalue : ((m <<< l : ℕ) : ℚ) * 2 ^ (e - l) = m * 2 ^ e := by
    rw [Nat.shiftLeft_eq, zpow_sub₀ (by norm_num), zpow_natCast]
    push_cast
    field_simp
  rw [hround, ← hvalue]
  exact stands_roundWithAccuracy (keeps_exact (m <<< l)) hdigits sign

theorem isNearest_normalize (m e : ℤ) (sign : Sign) :
    IsNearest (m * 2 ^ e) (UnpackedFloat.normalize Format.binary64 m e sign) := by
  unfold UnpackedFloat.normalize
  rcases lt_trichotomy m 0 with hneg | rfl | hpos
  · rw [Int.compare_eq_lt.mpr hneg]
    obtain ⟨n, k, hrounds, hstands⟩ := stands_round (m := (-m).toNat) (by omega) e .negative
    have hsize : ((-m).toNat : ℚ) = -m := by
      exact_mod_cast congrArg (Int.cast : ℤ → ℚ) (Int.toNat_of_nonneg (by omega : 0 ≤ -m))
    refine ⟨.negative, _, n, k, ?_, by positivity, hrounds, hstands⟩
    rw [hsize, factor]
    ring
  · rw [Int.cast_zero, zero_mul]
    exact isNearest_zero sign
  · rw [Int.compare_eq_gt.mpr hpos]
    obtain ⟨n, k, hrounds, hstands⟩ := stands_round (m := m.toNat) (by omega) e .positive
    have hsize : (m.toNat : ℚ) = m := by
      exact_mod_cast congrArg (Int.cast : ℤ → ℚ) (Int.toNat_of_nonneg hpos.le)
    refine ⟨.positive, _, n, k, ?_, by positivity, hrounds, hstands⟩
    rw [hsize, factor, one_mul]

theorem cast_apply (s : Sign) (n : ℕ) : ((s.apply n : ℤ) : ℚ) = factor s * n := by
  cases s <;> simp [Sign.apply, factor]

theorem shift_value {e k : ℤ} (h : k ≤ e) (m : ℕ) :
    ((m <<< (e - k).toNat : ℕ) : ℚ) * 2 ^ k = m * 2 ^ e := by
  have hsplit : e = ((e - k).toNat : ℤ) + k := by omega
  conv_rhs => rw [hsplit, ← pow_mul_zpow_two]
  rw [Nat.shiftLeft_eq]
  push_cast
  ring

/-- A sum of numbers is the nearest float to the exact one. -/
theorem isNearest_add {f g : UnpackedFloat} {s t : Sign} {v w : ℚ} (hf : Stands f s v)
    (hg : Stands g t w) :
    IsNearest (factor s * v + factor t * w) (UnpackedFloat.add Format.binary64 f g) := by
  cases hf with
  | zero =>
      rw [mul_zero, zero_add]
      cases hg with
      | zero =>
          rw [mul_zero]
          cases s <;> cases t
          all_goals exact isNearest_zero _
      | finite _ hn h' => exact (Stands.finite t hn h').isNearest
  | finite _ hm h =>
      cases hg with
      | zero =>
          rw [mul_zero, add_zero]
          exact (Stands.finite s hm h).isNearest
      | finite _ hn h' =>
          rename_i m e n k
          have hsum : (((s.apply (m <<< (e - min e k).toNat : ℕ) +
              t.apply (n <<< (k - min e k).toNat : ℕ) : ℤ)) : ℚ) * 2 ^ min e k =
                factor s * (m * 2 ^ e) + factor t * (n * 2 ^ k) := by
            rw [← shift_value (min_le_left e k) m, ← shift_value (min_le_right e k) n, Int.cast_add,
              cast_apply, cast_apply]
            ring
          rw [← hsum]
          exact isNearest_normalize _ _ .positive

/-! ## Negation and differences -/

theorem Stands.neg {f : UnpackedFloat} {sign : Sign} {v : ℚ} (h : Stands f sign v) :
    Stands f.neg (-sign) v := by
  cases h with
  | zero => exact Stands.zero (-sign)
  | finite _ hm h => exact Stands.finite (-sign) hm h

theorem stands_neg {y : Float} {sign : Sign} {v : ℚ} (h : Stands y.toModel.unpack sign v)
    (hv : v < overflow) : Stands (-y).toModel.unpack (-sign) v := by
  have hmodel : (-y).toModel = Float.Model.pack y.toModel.unpack.neg := rfl
  rw [hmodel, h.neg.unpack_pack, if_pos hv]
  exact h.neg

theorem factor_neg (s : Sign) : factor (-s) = -factor s := by
  cases s
  · exact (by norm_num : (1 : ℚ) = - -1)
  · rfl

theorem Stands.sub_eq_add_neg {f g : UnpackedFloat} {s t : Sign} {v w : ℚ} (hf : Stands f s v)
    (hg : Stands g t w) :
    UnpackedFloat.sub Format.binary64 f g = UnpackedFloat.add Format.binary64 f g.neg := by
  have hsign : ∀ n : ℤ, (-t).apply n = -t.apply n := fun n => by
    cases t
    · exact (neg_neg n).symm
    · rfl
  cases hf with
  | zero => cases hg <;> rfl
  | @finite _ m e =>
      cases hg with
      | zero => rfl
      | @finite _ n k =>
          have hmantissa : s.apply (m <<< (e - min e k).toNat : ℕ) -
              t.apply (n <<< (k - min e k).toNat : ℕ) =
                s.apply (m <<< (e - min e k).toNat : ℕ) +
                  (-t).apply (n <<< (k - min e k).toNat : ℕ) := by
            rw [hsign, Int.sub_eq_add_neg]
          exact congrArg
            (fun mantissa => UnpackedFloat.normalize Format.binary64 mantissa (min e k) .positive)
            hmantissa

/-- A difference of numbers is the nearest float to the exact one. -/
theorem isNearest_sub {f g : UnpackedFloat} {s t : Sign} {v w : ℚ} (hf : Stands f s v)
    (hg : Stands g t w) :
    IsNearest (factor s * v - factor t * w) (UnpackedFloat.sub Format.binary64 f g) := by
  have hvalue : factor s * v - factor t * w = factor s * v + factor (-t) * w := by
    rw [factor_neg]
    ring
  rw [hf.sub_eq_add_neg hg, hvalue]
  exact isNearest_add hf hg.neg

/-! ## Arithmetic keeps the order -/

variable {x y c : Float}

theorem exists_stands (hx : x.isFinite = true) :
    ∃ sign v, Stands x.toModel.unpack sign v ∧ v < overflow := by
  have hfinite : x.toModel.unpack.isFinite = true := hx
  have hunpacked := unpacked_unpack x.toModel
  generalize x.toModel.unpack = f at hfinite hunpacked
  cases hunpacked with
  | notANumber => cases hfinite
  | infinity sign => cases hfinite
  | number h hv => exact ⟨_, _, h, hv⟩

theorem isNaN_iff : x.isNaN = true ↔ x.toModel.unpack = .notANumber := by
  show x.toModel.unpack.isNaN = true ↔ _
  cases x.toModel.unpack with
  | notANumber => exact iff_of_true rfl rfl
  | infinity sign => exact iff_of_false Bool.false_ne_true nofun
  | zero sign => exact iff_of_false Bool.false_ne_true nofun
  | finite sign m e hm => exact iff_of_false Bool.false_ne_true nofun

theorem unpack_ne_notANumber (hx : x.isNaN = false) : x.toModel.unpack ≠ .notANumber := fun h => by
  rw [isNaN_iff.mpr h] at hx
  cases hx

theorem lt_iff_unpack : x < y ↔ x.toModel.unpack.lt y.toModel.unpack = true := by
  show decide (x.toModel < y.toModel) = true ↔ _
  rw [decide_eq_true_iff]
  rfl

theorem not_lt_iff (hx : x.isNaN = false) (hy : y.isNaN = false) :
    ¬ y < x ↔ position x.toModel.unpack ≤ position y.toModel.unpack := by
  rw [← not_lt, ← lt_iff_position (unpacked_unpack _) (unpacked_unpack _) (unpack_ne_notANumber hy)
    (unpack_ne_notANumber hx), lt_iff_unpack]

theorem not_lt_of_le (h : x ≤ y) : ¬ y < x := by
  have hle : decide (x.toModel ≤ y.toModel) = true := h
  rw [decide_eq_true_iff] at hle
  rw [lt_iff_unpack, lt_eq_false_of_le hle]
  exact Bool.false_ne_true

theorem not_lt_of_isNaN (h : x.isNaN = true ∨ y.isNaN = true) : ¬ x < y := by
  rw [lt_iff_unpack]
  rcases h with h | h
  · rw [isNaN_iff.mp h]
    exact Bool.false_ne_true
  · rw [isNaN_iff.mp h]
    cases x.toModel.unpack <;> exact Bool.false_ne_true

theorem Stands.ne_notANumber {f : UnpackedFloat} {sign : Sign} {v : ℚ} (h : Stands f sign v) :
    f ≠ .notANumber := by
  cases h <;> exact nofun

theorem isNaN_of_isFinite (hx : x.isFinite = true) : x.isNaN = false := by
  obtain ⟨sign, v, h, -⟩ := exists_stands hx
  rw [← Bool.not_eq_true, isNaN_iff]
  exact h.ne_notANumber

/-- Rounding gives a number or an infinity. -/
theorem IsNearest.isNaN {a : ℚ} {f : UnpackedFloat} (h : IsNearest a f)
    (hx : x.toModel = Float.Model.pack f) : x.isNaN = false := by
  obtain ⟨sign, r, n, e, -, -, -, hstands⟩ := h
  rw [← Bool.not_eq_true, isNaN_iff, hx, hstands.unpack_pack]
  by_cases hlt : (n : ℚ) * 2 ^ e < overflow
  · rw [if_pos hlt]
    exact hstands.ne_notANumber
  · rw [if_neg hlt]
    exact nofun

/-- **Multiplying by one positive number** never reverses an order. -/
theorem not_lt_mul (hx : x.isFinite = true) (hy : y.isFinite = true) {w : ℚ}
    (hc : Stands c.toModel.unpack .positive w) (h : ¬ y < x) :
    (x * c).isNaN = false ∧ (y * c).isNaN = false ∧ ¬ y * c < x * c := by
  rw [not_lt_iff (isNaN_of_isFinite hx) (isNaN_of_isFinite hy)] at h
  obtain ⟨s, v, hstands, -⟩ := exists_stands hx
  obtain ⟨t, u, hstands', -⟩ := exists_stands hy
  rw [hstands.position_eq, hstands'.position_eq] at h
  have hnearest := isNearest_mul hstands hc
  have hnearest' := isNearest_mul hstands' hc
  have hnumber : (x * c).isNaN = false := hnearest.isNaN rfl
  have hnumber' : (y * c).isNaN = false := hnearest'.isNaN rfl
  refine ⟨hnumber, hnumber', (not_lt_iff hnumber hnumber').mpr ?_⟩
  refine hnearest.position_mono hnearest' (mul_le_mul_of_nonneg_right h ?_)
  rw [factor, one_mul]
  exact hc.nonneg

theorem position_le {f : UnpackedFloat} (h : Unpacked f) :
    -overflow ≤ position f ∧ position f ≤ overflow := by
  have hpos := overflow_pos
  cases h with
  | notANumber => exact ⟨(neg_neg_of_pos hpos).le, hpos.le⟩
  | infinity sign =>
      cases sign with
      | negative =>
          rw [position_negativeInfinity]
          exact ⟨le_rfl, by linarith⟩
      | positive =>
          rw [position_positiveInfinity]
          exact ⟨by linarith, le_rfl⟩
  | number h hv =>
      obtain ⟨hlow, hhigh⟩ := h.between hv
      rw [h.position_eq]
      exact ⟨hlow.le, hhigh.le⟩

section Sums

variable {f g k : UnpackedFloat}

theorem add_infinity (hf : f ≠ .notANumber) (t : Sign)
    (h : UnpackedFloat.add Format.binary64 f (.infinity t) ≠ .notANumber) :
    UnpackedFloat.add Format.binary64 f (.infinity t) = .infinity t := by
  cases f with
  | notANumber => exact absurd rfl hf
  | zero => rfl
  | finite => rfl
  | infinity s =>
      cases s <;> cases t
      · rfl
      · exact absurd rfl h
      · exact absurd rfl h
      · rfl

theorem infinity_add {t : Sign} {w : ℚ} (hk : Stands k t w) (s : Sign) :
    UnpackedFloat.add Format.binary64 (.infinity s) k = .infinity s := by
  cases hk <;> rfl

/-- Only the positive infinity has the highest position. -/
theorem eq_infinity_of_le (hg : Unpacked g) (h : overflow ≤ position g) :
    g = .infinity .positive := by
  have hpos := overflow_pos
  cases hg with
  | notANumber => exact absurd h (not_le.mpr hpos)
  | number hg hw =>
      rw [hg.position_eq] at h
      linarith [(hg.between hw).2]
  | infinity t =>
      cases t with
      | positive => rfl
      | negative =>
          rw [position_negativeInfinity] at h
          linarith

theorem position_add_mono (hf : Unpacked f) (hg : Unpacked g) (hk : Unpacked k)
    (hf' : f ≠ .notANumber) (hg' : g ≠ .notANumber) (h : position f ≤ position g)
    (hsum : UnpackedFloat.add Format.binary64 f k ≠ .notANumber)
    (hsum' : UnpackedFloat.add Format.binary64 g k ≠ .notANumber) :
    position (Float.Model.pack (UnpackedFloat.add Format.binary64 f k)).unpack ≤
      position (Float.Model.pack (UnpackedFloat.add Format.binary64 g k)).unpack := by
  cases hk with
  | notANumber => exact absurd (by cases f <;> rfl) hsum
  | infinity t => rw [add_infinity hf' t hsum, add_infinity hg' t hsum']
  -- A sum with an infinity is at an end of the line; only that of two numbers is rounded.
  | number hk hw =>
      cases hf with
      | notANumber => exact absurd rfl hf'
      | infinity s =>
          cases s with
          | negative =>
              have hlowest : position (Float.Model.pack (.infinity .negative)).unpack = -overflow :=
                (congrArg position (unpack_infinity .negative)).trans position_negativeInfinity
              rw [infinity_add hk, hlowest]
              exact (position_le (unpacked_unpack _)).1
          | positive =>
              rw [position_positiveInfinity] at h
              rw [eq_infinity_of_le hg h]
      | number hf hv =>
          cases hg with
          | notANumber => exact absurd rfl hg'
          | infinity s =>
              cases s with
              | negative =>
                  rw [hf.position_eq, position_negativeInfinity] at h
                  linarith [(hf.between hv).1]
              | positive =>
                  have hhighest :
                      position (Float.Model.pack (.infinity .positive)).unpack = overflow :=
                    (congrArg position (unpack_infinity .positive)).trans position_positiveInfinity
                  rw [infinity_add hk, hhighest]
                  exact (position_le (unpacked_unpack _)).2
          | number hg hu =>
              rw [hf.position_eq, hg.position_eq] at h
              exact (isNearest_add hf hk).position_mono (isNearest_add hg hk) (by linarith)

end Sums

theorem add_ne_notANumber (h : (x + c).isNaN = false) :
    UnpackedFloat.add Format.binary64 x.toModel.unpack c.toModel.unpack ≠ .notANumber := by
  intro hsum
  have hmodel : (x + c).toModel = Float.Model.pack .notANumber := congrArg Float.Model.pack hsum
  have hnan : (x + c).isNaN = true := by
    rw [isNaN_iff, hmodel]
    rfl
  rw [h] at hnan
  cases hnan

/-- **Adding one float to both** never reverses an order. -/
theorem not_lt_add (hx : x.isNaN = false) (hy : y.isNaN = false) (h : ¬ y < x) :
    ¬ y + c < x + c := by
  by_cases hnan : (x + c).isNaN = true
  · exact not_lt_of_isNaN (Or.inr hnan)
  by_cases hnan' : (y + c).isNaN = true
  · exact not_lt_of_isNaN (Or.inl hnan')
  rw [Bool.not_eq_true] at hnan hnan'
  rw [not_lt_iff hx hy] at h
  rw [not_lt_iff hnan hnan']
  exact position_add_mono (unpacked_unpack _) (unpacked_unpack _) (unpacked_unpack _)
    (unpack_ne_notANumber hx) (unpack_ne_notANumber hy) h (add_ne_notANumber hnan)
    (add_ne_notANumber hnan')

theorem unpack_pack_zero_add {f : UnpackedFloat} (hf : Unpacked f) (hne : f ≠ .notANumber) :
    (Float.Model.pack (UnpackedFloat.add Format.binary64 (.zero .positive) f)).unpack ≠
        .notANumber ∧
      position (Float.Model.pack
        (UnpackedFloat.add Format.binary64 (.zero .positive) f)).unpack = position f := by
  cases hf with
  | notANumber => exact absurd rfl hne
  | infinity s =>
      have hsum : (Float.Model.pack
          (UnpackedFloat.add Format.binary64 (.zero .positive) (.infinity s))).unpack =
            .infinity s := unpack_infinity s
      rw [hsum]
      exact ⟨nofun, rfl⟩
  | @number _ s v h hv =>
      cases h with
      | zero =>
          have hsum : (Float.Model.pack
              (UnpackedFloat.add Format.binary64 (.zero .positive) (.zero s))).unpack =
                .zero .positive := by
            cases s <;> exact unpack_zero .positive
          rw [hsum]
          exact ⟨nofun, rfl⟩
      | @finite _ m e hm h =>
          have hsame := (Stands.finite s hm h).unpack_pack
          have hsum : UnpackedFloat.add Format.binary64 (.zero .positive) (.finite s m e hm) =
              .finite s m e hm := rfl
          rw [hsum, hsame, if_pos hv]
          exact ⟨nofun, rfl⟩

/-- Adding to a zero moves nothing. -/
theorem not_lt_zero_add (hc : c.toModel.unpack = .zero .positive) (hx : x.isNaN = false)
    (hy : y.isNaN = false) (h : ¬ y < x) : ¬ y < c + x := by
  have hmodel : (c + x).toModel = Float.Model.pack
      (UnpackedFloat.add Format.binary64 c.toModel.unpack x.toModel.unpack) := rfl
  obtain ⟨hne, hposition⟩ :=
    unpack_pack_zero_add (unpacked_unpack x.toModel) (unpack_ne_notANumber hx)
  rw [← hc, ← hmodel] at hne hposition
  have hsum : (c + x).isNaN = false := by
    rw [← Bool.not_eq_true, isNaN_iff]
    exact hne
  rw [not_lt_iff hx hy] at h
  rw [not_lt_iff hsum hy, hposition]
  exact h

end TraceTimeline.Number
