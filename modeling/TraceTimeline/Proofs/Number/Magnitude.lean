import TraceTimeline.Json.Numeral
import TraceTimeline.Number.Binary

/-!
# Floats that stay finite

The size of a finite float is bounded through the place of its last binary digit. Rounding moves
that place in a known way, so a product has a bound if its factors have one. Main statement: the
number of a significand, scaled by a small power of ten, is finite. So every number of 64 bits can be
read.
-/

namespace TraceTimeline.Number

open Float.Model Float.Model.UnpackedFloat

/-- A finite number with its last binary digit at `2 ^ place` or further down. -/
def LastPlace (place : Int) : UnpackedFloat → Prop
  | .zero _ => True
  | .finite _ _ exponent _ => exponent ≤ place
  | _ => False

theorem mantissa_shiftRight (em : ExtendedMantissa) (k : Nat) :
    (em >>> k).mantissa = em.mantissa / Nat.pow 2 k := by
  induction k with
  | zero => exact (Nat.div_one _).symm
  | succ k ih =>
      have hstep : (em >>> (k + 1)).mantissa = (em >>> k).mantissa / 2 := rfl
      rw [hstep, ih, Nat.div_div_eq_div_mul]
      rfl

theorem roundedMantissa_le (em : ExtendedMantissa) : em.roundedMantissa ≤ em.mantissa + 1 := by
  obtain ⟨mantissa, roundBit, stickyBit⟩ := em
  have : mantissa % 2 ≤ 1 := by omega
  cases roundBit <;> cases stickyBit <;>
    simp only [ExtendedMantissa.roundedMantissa, ExtendedMantissa.accuracy,
      Accuracy.roundToNearestEven] <;>
    omega

theorem log2_shiftLeft {m : Nat} (hm : 0 < m) (k : Nat) : (m <<< k).log2 = m.log2 + k := by
  induction k with
  | zero => rfl
  | succ k ih =>
      have hne : m <<< k ≠ 0 := by
        rw [Nat.shiftLeft_eq]
        exact Nat.mul_ne_zero (by omega) (Nat.ne_of_gt (Nat.two_pow_pos k))
      rw [Nat.shiftLeft_succ, Nat.log2_two_mul hne, ih, Nat.add_assoc]

/-- Dropping `k` digits moves the leading digit by `k` places, and rounding up moves it at most one
place back. -/
theorem log2_add_le {m r k : Nat} (hr : 0 < r) (hle : r ≤ m / Nat.pow 2 k + 1)
    (hk : 0 < m / Nat.pow 2 k) : r.log2 + k ≤ m.log2 + 1 := by
  have hdouble : r ≤ 2 * (m / Nat.pow 2 k) := by omega
  have hlow : 2 ^ r.log2 ≤ r := Nat.log2_self_le (by omega)
  have hdiv : m / Nat.pow 2 k * Nat.pow 2 k ≤ m := Nat.div_mul_le_self _ _
  have hhigh : m < 2 ^ (m.log2 + 1) := Nat.lt_log2_self
  have hpow : 2 ^ (r.log2 + k) < 2 ^ (m.log2 + 2) := by
    calc 2 ^ (r.log2 + k) = 2 ^ r.log2 * 2 ^ k := Nat.pow_add 2 _ _
      _ ≤ 2 * (m / Nat.pow 2 k) * 2 ^ k := Nat.mul_le_mul_right _ (Nat.le_trans hlow hdouble)
      _ = 2 * (m / Nat.pow 2 k * Nat.pow 2 k) := Nat.mul_assoc _ _ _
      _ ≤ 2 * m := Nat.mul_le_mul_left 2 hdiv
      _ < 2 * 2 ^ (m.log2 + 1) := by omega
      _ = 2 ^ (m.log2 + 2) := by rw [Nat.pow_succ 2 (m.log2 + 1), Nat.mul_comm]
  have := (Nat.pow_lt_pow_iff_right (by decide : 1 < 2)).mp hpow
  omega

/-- A shift to the target exponent drops digits until 53 are left, or until the last one stands at
the least place. -/
theorem shiftToTargetExponent_eq (m : Nat) (e : Int) (accuracy : Accuracy) :
    ∃ k : Nat, (k : Int) = max 0 (max (totalExponent m e - 53) (-1074) - e) ∧
      shiftToTargetExponent Format.binary64 m e accuracy =
        (ExtendedMantissa.ofMantissaAndAccuracy m accuracy >>> k, e + k) :=
  ⟨(max (totalExponent m e - 53) (-1074) - e).toNat, by omega, rfl⟩

theorem mantissa_ofMantissaAndAccuracy (m : Nat) (accuracy : Accuracy) :
    (ExtendedMantissa.ofMantissaAndAccuracy m accuracy).mantissa = m := by
  rcases accuracy with _ | order
  · rfl
  · cases order <;> rfl

/-- What a shift to the target exponent leaves of the digits, and where the last of them stands. -/
theorem shiftToTargetExponent_spec (m : Nat) (e : Int) (accuracy : Accuracy) :
    ∃ k : Nat, (k : Int) = max 0 (max (totalExponent m e - 53) (-1074) - e) ∧
      (shiftToTargetExponent Format.binary64 m e accuracy).2 = e + k ∧
      (shiftToTargetExponent Format.binary64 m e accuracy).1.mantissa = m / Nat.pow 2 k := by
  obtain ⟨k, hk, hshift⟩ := shiftToTargetExponent_eq m e accuracy
  rw [hshift]
  exact ⟨k, hk, rfl, by rw [mantissa_shiftRight, mantissa_ofMantissaAndAccuracy]⟩

/-- **Rounding** puts the last digit no further up than it was, or 52 places below the leading
one. -/
theorem lastPlace_roundWithAccuracy {m : Nat} {e place : Int} (he : e ≤ place)
    (htotal : totalExponent m e - 52 ≤ place) (hplace : -1074 ≤ place) (sign : Sign)
    (accuracy : Accuracy) :
    LastPlace place (roundWithAccuracy Format.binary64 sign m e accuracy) := by
  obtain ⟨k, hk, he₁, hm₁⟩ := shiftToTargetExponent_spec m e accuracy
  have hround := roundedMantissa_le (shiftToTargetExponent Format.binary64 m e accuracy).1
  rw [roundWithAccuracy]
  generalize shiftToTargetExponent Format.binary64 m e accuracy = first at he₁ hm₁ hround
  obtain ⟨em, e₁⟩ := first
  dsimp only at he₁ hm₁ hround ⊢
  generalize em.roundedMantissa = r at hround
  -- The second shift takes back the digit that rounding up may have added.
  obtain ⟨j, hj, he₂, hm₂⟩ := shiftToTargetExponent_spec r e₁ .exact
  by_cases hne : (shiftToTargetExponent Format.binary64 r e₁ .exact).1.mantissa = 0
  · rw [dif_pos hne]
    trivial
  · rw [dif_neg hne]
    show (shiftToTargetExponent Format.binary64 r e₁ .exact).2 ≤ place
    have hr : 0 < r := by
      refine Nat.pos_of_ne_zero fun h => hne ?_
      rw [hm₂, h, Nat.zero_div]
    rw [he₂]
    simp only [totalExponent] at hk hj htotal
    rw [hm₁] at hround
    -- Where all digits were dropped, rounding can only have made a one of them.
    rcases Nat.eq_zero_or_pos (m / Nat.pow 2 k) with hzero | hpos
    · have hone : r = 1 := by omega
      subst hone
      have hlog : Nat.log2 1 = 0 := by decide
      rw [hlog] at hj
      omega
    · have := log2_add_le hr hround hpos
      omega

/-! ## Bit patterns -/

/-- What a bit pattern stands for is settled by its exponent field: with all bits set there is no
number, with none set the digits stand as they are, otherwise a leading digit is added. -/
theorem unpack_cases (b : BitVec Format.binary64.numBits) :
    (unpackExponent b = -1#_ ∧ (UnpackedFloat.unpack Format.binary64 b).isFinite = false) ∨
    (unpackExponent b = 0#_ ∧ ∃ sign, UnpackedFloat.unpack Format.binary64 b = .zero sign) ∨
    (unpackExponent b = 0#_ ∧ ∃ sign hpos, UnpackedFloat.unpack Format.binary64 b =
      .finite sign (unpackMantissa b).toNat (-1074) hpos) ∨
    (unpackExponent b ≠ -1#_ ∧ unpackExponent b ≠ 0#_ ∧ ∃ sign hpos,
      UnpackedFloat.unpack Format.binary64 b =
        .finite sign (1#1 ++ unpackMantissa b).toNat ((unpackExponent b).toNat - 1075) hpos) := by
  unfold UnpackedFloat.unpack
  dsimp only
  by_cases hfull : unpackExponent b = -1#_
  · rw [if_pos hfull]
    refine Or.inl ⟨hfull, ?_⟩
    by_cases hm : unpackMantissa b = 0#_
    · rw [if_pos hm]
      rfl
    · rw [if_neg hm]
      rfl
  · rw [if_neg hfull]
    by_cases hnone : unpackExponent b = 0#_
    · rw [if_pos hnone, hnone]
      by_cases hm : unpackMantissa b = 0#_
      · rw [dif_pos hm]
        exact Or.inr (Or.inl ⟨rfl, _, rfl⟩)
      · have hpos : 0 < (unpackMantissa b).toNat :=
          Nat.pos_of_ne_zero fun h => hm (BitVec.eq_of_toNat_eq h)
        rw [dif_neg hm]
        exact Or.inr (Or.inr (Or.inl ⟨rfl, _, hpos, rfl⟩))
    · have hpos : 0 < (1#1 ++ unpackMantissa b).toNat := by
        rw [BitVec.toNat_append]
        exact Nat.lt_of_lt_of_le (by decide) Nat.left_le_or
      rw [if_neg hnone]
      exact Or.inr (Or.inr (Or.inr ⟨hfull, hnone, _, hpos, rfl⟩))

/-- The exponent field of a bit pattern bounds the last place. -/
theorem lastPlace_unpack {b : BitVec Format.binary64.numBits} {place : Int}
    (hfield : ((unpackExponent b).toNat : Int) ≤ place + 1075) (hlow : -1074 ≤ place)
    (hhigh : place ≤ 971) :
    LastPlace place (UnpackedFloat.unpack Format.binary64 b) := by
  rcases unpack_cases b with ⟨hfull, -⟩ | ⟨-, sign, h⟩ | ⟨-, sign, hpos, h⟩ |
    ⟨-, -, sign, hpos, h⟩
  · have : (unpackExponent b).toNat = 2047 := congrArg BitVec.toNat hfull
    omega
  · rw [h]
    trivial
  · rw [h]
    exact hlow
  · rw [h]
    show ((unpackExponent b).toNat : Int) - 1075 ≤ place
    omega

/-- The bits of a number: those of an infinity where its exponent is too large, else the exponent
with its bias unless the leading digit is missing, and the digits. -/
theorem pack_finite (sign : Sign) {m : Nat} {e : Int} (hm : 0 < m) :
    UnpackedFloat.pack Format.binary64 (.finite sign m e hm) =
      if 2048 ≤ (e + 1075).toNat + 1 then packedInfinity Format.binary64 sign
      else if m.log2 + 1 = 53 then
        packComponents Format.binary64 sign (BitVec.ofNat 11 (e + 1075).toNat) (BitVec.ofNat 52 m)
      else packComponents Format.binary64 sign 0#11 (BitVec.ofNat 52 m) := by
  have hbias : (e + (Format.binary64.exponentBias : Int) +
      Format.binary64.mantissaBitsWithoutImplicit).toNat = (e + 1075).toNat := by
    have h1 : (Format.binary64.exponentBias : Int) = 1023 := rfl
    have h2 : (Format.binary64.mantissaBitsWithoutImplicit : Int) = 52 := rfl
    omega
  rw [← hbias]
  rfl

/-- Packing a number and unpacking it again moves no digit up. -/
theorem lastPlace_unpack_pack {f : UnpackedFloat} {place : Int} (h : LastPlace place f)
    (hlow : -1074 ≤ place) (hhigh : place ≤ 971) : LastPlace place (Float.Model.pack f).unpack := by
  refine lastPlace_unpack ?_ hlow hhigh
  show ((@unpackExponent Format.binary64 (UnpackedFloat.pack _ f)).toNat : Int) ≤ _
  rcases f with _ | _ | sign | ⟨sign, m, e, hm⟩
  · exact absurd h id
  · exact absurd h id
  · have hzero : @unpackExponent Format.binary64 (UnpackedFloat.pack _ (.zero sign)) = 0 :=
      unpackExponent_packComponents
    rw [hzero]
    show (0 : Int) ≤ _
    omega
  · have he : e ≤ place := h
    have hfits : ¬ 2048 ≤ (e + 1075).toNat + 1 := by omega
    rw [pack_finite, if_neg hfits]
    split
    · rw [unpackExponent_packComponents, BitVec.toNat_ofNat]
      have := Nat.mod_le (e + 1075).toNat (2 ^ Format.binary64.exponentBits)
      omega
    · rw [unpackExponent_packComponents]
      show (0 : Int) ≤ _
      omega

/-- A float has 53 binary digits at most. -/
theorem lt_of_unpack_eq_finite {x : Float.Model} {sign : Sign} {m : Nat} {e : Int} {hm : 0 < m}
    (h : x.unpack = .finite sign m e hm) : m < Nat.pow 2 53 := by
  have hx : UnpackedFloat.unpack Format.binary64 x.toBits.toBitVec = .finite sign m e hm := h
  have hlt : (@unpackMantissa Format.binary64 x.toBits.toBitVec).toNat < Nat.pow 2 52 :=
    (@unpackMantissa Format.binary64 x.toBits.toBitVec).isLt
  have happend : (1#1 ++ @unpackMantissa Format.binary64 x.toBits.toBitVec).toNat <
      Nat.pow 2 53 :=
    (1#1 ++ @unpackMantissa Format.binary64 x.toBits.toBitVec).isLt
  rcases unpack_cases x.toBits.toBitVec with ⟨-, h'⟩ | ⟨-, sign', h'⟩ | ⟨-, sign', hpos, h'⟩ |
    ⟨-, -, sign', hpos, h'⟩
  · rw [hx] at h'
    cases h'
  · rw [hx] at h'
    cases h'
  · rw [hx] at h'
    cases h'
    exact Nat.lt_trans hlt (by decide)
  · rw [hx] at h'
    cases h'
    exact happend

/-! ## Products and significands -/

theorem lastPlace_mul {x y : Float} {p q : Int} (hx : LastPlace p x.toModel.unpack)
    (hy : LastPlace q y.toModel.unpack) (hlow : -1074 ≤ p + q + 54) (hhigh : p + q + 54 ≤ 971) :
    LastPlace (p + q + 54) (x * y).toModel.unpack := by
  refine lastPlace_unpack_pack ?_ hlow hhigh
  generalize hu : x.toModel.unpack = u at hx
  generalize hv : y.toModel.unpack = v at hy
  rcases u with _ | _ | s₁ | ⟨s₁, m₁, e₁, hm₁⟩
  · exact absurd hx id
  · exact absurd hx id
  · rcases v with _ | _ | s₂ | ⟨s₂, m₂, e₂, hm₂⟩
    · exact absurd hy id
    · exact absurd hy id
    · trivial
    · trivial
  · rcases v with _ | _ | s₂ | ⟨s₂, m₂, e₂, hm₂⟩
    · exact absurd hy id
    · exact absurd hy id
    · trivial
    · have he₁ : e₁ ≤ p := hx
      have he₂ : e₂ ≤ q := hy
      have hlt : m₁ * m₂ < 2 ^ 106 := by
        calc m₁ * m₂ < Nat.pow 2 53 * Nat.pow 2 53 :=
              Nat.mul_lt_mul'' (lt_of_unpack_eq_finite hu) (lt_of_unpack_eq_finite hv)
          _ = 2 ^ 106 := by decide
      have hlog : (m₁ * m₂).log2 < 106 :=
        (Nat.log2_lt (Nat.ne_of_gt (Nat.mul_pos hm₁ hm₂))).mpr hlt
      refine lastPlace_roundWithAccuracy ?_ ?_ hlow _ _
      · omega
      · rw [totalExponent]
        omega

theorem lastPlace_toFloat (n : UInt64) : LastPlace 12 n.toFloat.toModel.unpack := by
  refine lastPlace_unpack_pack ?_ (by decide) (by decide)
  show LastPlace 12 (UnpackedFloat.normalize Format.binary64 (n.toNat : Int) 0 .positive)
  unfold UnpackedFloat.normalize
  rcases Nat.eq_zero_or_pos n.toNat with hzero | hpos
  · rw [hzero]
    trivial
  · have hgt : compare (n.toNat : Int) 0 = .gt := by
      rw [Int.compare_eq_gt]
      omega
    rw [hgt]
    have hlog : n.toNat.log2 < 64 := (Nat.log2_lt (Nat.ne_of_gt hpos)).mpr n.toNat_lt
    refine lastPlace_roundWithAccuracy ?_ ?_ (by decide) _ _
    · show (0 : Int) - _ ≤ 12
      omega
    · rw [totalExponent, Int.toNat_natCast]
      show ((n.toNat <<< _).log2 : Int) + 1 + (0 - _) - 52 ≤ 12
      rw [log2_shiftLeft hpos]
      omega

theorem isInf_eq_false_of_lastPlace {x : Float} {place : Int}
    (h : LastPlace place x.toModel.unpack) : x.isInf = false := by
  show x.toModel.unpack.isInf = false
  generalize x.toModel.unpack = u at h
  rcases u with _ | _ | _ | _
  · exact absurd h id
  · exact absurd h id
  · rfl
  · rfl

/-- The exponent fields of the smaller powers of ten. -/
theorem field_powerOfTen : ∀ n < 31,
    (@unpackExponent Format.binary64 (Json.Numeral.powerOfTen n).toBits.toBitVec).toNat ≤ 1122 := by
  decide +kernel

/-- **A significand is a finite float**, and it stays one when it is multiplied by a power of ten
with an exponent up to thirty. -/
theorem scale_toFloat (n : UInt64) {k : Nat} (hk : k ≤ 30) :
    Json.Numeral.scale n.toFloat k = some (n.toFloat * Json.Numeral.powerOfTen k) := by
  have hfield := field_powerOfTen k (by omega)
  have hpower : LastPlace 47 (Json.Numeral.powerOfTen k).toModel.unpack :=
    lastPlace_unpack (Int.ofNat_le.mpr hfield) (by decide) (by decide)
  have hfinite : (n.toFloat * Json.Numeral.powerOfTen k).isInf = false :=
    isInf_eq_false_of_lastPlace (lastPlace_mul (lastPlace_toFloat n) hpower (by decide) (by decide))
  have hplace : (k : Int).natAbs = k := Int.natAbs_natCast k
  have hle : k ≤ Json.Numeral.greatestPower := Nat.le_trans hk (by decide)
  rw [Json.Numeral.scale.eq_def, hplace, if_pos hle, if_pos (Int.natCast_nonneg k)]
  simp only [hfinite, Bool.false_eq_true, if_false]

/-- Scaling downwards always has a result, though it may be zero. -/
theorem exists_scale_of_neg (x : Float) {place : Int} (h : place < 0) :
    ∃ y, Json.Numeral.scale x place = some y := by
  have hnot : ¬ 0 ≤ place := Int.not_le.mpr h
  -- Each step divides, and keeps the exponent negative until its power is a float.
  fun_induction Json.Numeral.scale x place with
  | case1 => contradiction
  | case2 => contradiction
  | case3 x place => exact ⟨_, rfl⟩
  | case4 x place => exact ⟨_, rfl⟩
  | case5 => contradiction
  | case6 x place hlarge _ _ ih =>
      simp only [Json.Numeral.greatestPower] at hlarge ih
      exact ih (by omega) (by omega)

/-- **Scaling a significand** by a power of ten with an exponent up to thirty has a result. -/
theorem exists_scale_toFloat (n : UInt64) {place : Int} (h : place ≤ 30) :
    ∃ y, Json.Numeral.scale n.toFloat place = some y := by
  rcases Int.lt_or_le place 0 with hneg | hnonneg
  · exact exists_scale_of_neg _ hneg
  · obtain ⟨k, rfl⟩ := Int.eq_ofNat_of_zero_le hnonneg
    exact ⟨_, scale_toFloat n (by omega)⟩

/-! ## Finite floats -/

theorem toNat_unpackExponent (x : Float) :
    (@unpackExponent Format.binary64 x.toBits.toBitVec).toNat =
      x.toBits.toNat / Binary.implicitBit % 2048 := by
  unfold unpackExponent
  rw [BitVec.toNat_cast, BitVec.extractLsb_toNat, Nat.shiftRight_eq_div_pow]
  rfl

/-- A float is finite unless its exponent field is full. -/
theorem isFinite_iff_field (x : Float) :
    x.isFinite = true ↔ x.toBits.toNat / Binary.implicitBit % 2048 ≠ 2047 := by
  rw [← toNat_unpackExponent]
  have hfull : @unpackExponent Format.binary64 x.toBits.toBitVec = -1#_ ↔
      (@unpackExponent Format.binary64 x.toBits.toBitVec).toNat = 2047 :=
    BitVec.toNat_inj.symm
  rw [ne_eq, ← hfull]
  show (UnpackedFloat.unpack Format.binary64 x.toBits.toBitVec).isFinite = true ↔ _
  rcases unpack_cases x.toBits.toBitVec with ⟨hfull, h⟩ | ⟨hnone, sign, h⟩ |
    ⟨hnone, sign, hpos, h⟩ | ⟨hfull, -, sign, hpos, h⟩
  · rw [h]
    exact iff_of_false Bool.false_ne_true fun hne => hne hfull
  · rw [h, hnone]
    exact iff_of_true rfl (by decide)
  · rw [h, hnone]
    exact iff_of_true rfl (by decide)
  · rw [h]
    exact iff_of_true rfl hfull

/-- The finite floats are those that stand for a number. -/
theorem isFinite_iff_ofFloat (x : Float) :
    x.isFinite = true ↔
      ∃ negative significand exponent,
        Binary.ofFloat x = .finite negative significand exponent := by
  rw [isFinite_iff_field]
  unfold Binary.ofFloat
  constructor
  · intro h
    simp only [if_neg h]
    split
    · exact ⟨_, _, _, rfl⟩
    · exact ⟨_, _, _, rfl⟩
  · rintro ⟨negative, significand, exponent, h⟩ hfull
    simp only [if_pos hfull] at h
    split at h <;> cases h

end TraceTimeline.Number
