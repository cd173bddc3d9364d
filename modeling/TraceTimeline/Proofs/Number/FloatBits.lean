import TraceTimeline.Proofs.Number.FloatOrder

/-!
# The bits of a float

A float is taken apart in two ways: into a number as the arithmetic sees it, and into the whole
number and the power of two that decimal output starts from. Main statements: both say the same, and
two finite floats that stand for the same number with the same sign have the same bits.
-/

namespace TraceTimeline.Number

open Float.Model Float.Model.UnpackedFloat

def signOf (negative : Bool) : Sign :=
  if negative then .negative else .positive

theorem signOf_inj {negative negative' : Bool} (h : signOf negative = signOf negative') :
    negative = negative' := by
  cases negative <;> cases negative'
  · rfl
  · cases h
  · cases h
  · rfl

theorem ofBitVec_unpackSign_eq (x : Float) :
    Sign.ofBitVec (@unpackSign Format.binary64 x.toBits.toBitVec) =
      signOf (decide (Nat.pow 2 63 ≤ x.toBits.toNat)) := by
  have hlt : x.toBits.toNat < 2 ^ 64 := x.toBits.toNat_lt
  have hbit : (@unpackSign Format.binary64 x.toBits.toBitVec).toNat =
      x.toBits.toNat / 2 ^ 63 % 2 := by
    unfold unpackSign
    rw [BitVec.toNat_cast, BitVec.extractLsb_toNat, Nat.shiftRight_eq_div_pow]
    rfl
  have hzero : @unpackSign Format.binary64 x.toBits.toBitVec = 0#1 ↔ x.toBits.toNat < 2 ^ 63 := by
    rw [← BitVec.toNat_inj, hbit]
    show x.toBits.toNat / 2 ^ 63 % 2 = 0 ↔ _
    omega
  unfold Sign.ofBitVec signOf
  by_cases hsign : Nat.pow 2 63 ≤ x.toBits.toNat
  · rw [if_neg fun h => absurd (hzero.mp h) (Nat.not_lt.mpr hsign), if_pos (decide_eq_true hsign)]
  · have hfalse : ¬ decide (Nat.pow 2 63 ≤ x.toBits.toNat) = true := by
      rwa [decide_eq_true_iff]
    rw [if_pos (hzero.mpr (Nat.lt_of_not_le hsign)), if_neg hfalse]

theorem toNat_unpackMantissa (x : Float) :
    (@unpackMantissa Format.binary64 x.toBits.toBitVec).toNat =
      x.toBits.toNat % Binary.implicitBit := by
  unfold unpackMantissa
  rw [BitVec.toNat_cast, BitVec.extractLsb_toNat, Nat.shiftRight_zero]
  rfl

/-- What a bit pattern stands for, by its three parts. -/
theorem unpack_eq (b : BitVec Format.binary64.numBits)
    (hpos : unpackMantissa b ≠ 0#52 → 0 < (unpackMantissa b).toNat)
    (hpos' : 0 < (1#1 ++ unpackMantissa b).toNat) :
    UnpackedFloat.unpack Format.binary64 b =
      if unpackExponent b = -1#11 then
        if unpackMantissa b = 0#52 then .infinity (Sign.ofBitVec (unpackSign b)) else .notANumber
      else if unpackExponent b = 0#11 then
        if h : unpackMantissa b = 0#52 then .zero (Sign.ofBitVec (unpackSign b))
        else .finite (Sign.ofBitVec (unpackSign b)) (unpackMantissa b).toNat
          (((unpackExponent b).toNat : ℤ) - 1075 + 1) (hpos h)
      else .finite (Sign.ofBitVec (unpackSign b)) (1#1 ++ unpackMantissa b).toNat
        (((unpackExponent b).toNat : ℤ) - 1075) hpos' :=
  rfl

/-- **Both ways to take a float apart** give the same number: it is zero, or its digits are
canonical. -/
theorem stands_of_ofFloat {x : Float} {negative : Bool} {m : ℕ} {e : ℤ}
    (h : Binary.ofFloat x = .finite negative m e) :
    Stands x.toModel.unpack (signOf negative) (m * 2 ^ e) ∧ (m : ℚ) * 2 ^ e < overflow ∧
      (m = 0 ∧ e = -1074 ∨ Canonical m e) := by
  have hfield := toNat_unpackExponent x
  have hfraction := toNat_unpackMantissa x
  have hsign := ofBitVec_unpackSign_eq x
  have hexponent := (@unpackExponent Format.binary64 x.toBits.toBitVec).isLt
  have hmantissa := (@unpackMantissa Format.binary64 x.toBits.toBitVec).isLt
  have happend := toNat_append_one (@unpackMantissa Format.binary64 x.toBits.toBitVec)
  have hpos : @unpackMantissa Format.binary64 x.toBits.toBitVec ≠ 0#52 →
      0 < (@unpackMantissa Format.binary64 x.toBits.toBitVec).toNat :=
    fun hne => Nat.pos_of_ne_zero fun h => hne (BitVec.eq_of_toNat_eq h)
  have hpos' : 0 < (1#1 ++ @unpackMantissa Format.binary64 x.toBits.toBitVec).toNat := by omega
  have hunpack := unpack_eq x.toBits.toBitVec hpos hpos'
  have hx : x.toModel.unpack = UnpackedFloat.unpack Format.binary64 x.toBits.toBitVec := rfl
  rw [hx, hunpack, hsign]
  unfold Binary.ofFloat at h
  dsimp only at h
  rw [← hfield, ← hfraction] at h
  -- Both sides branch on the same two fields of the bit pattern.
  generalize @unpackExponent Format.binary64 x.toBits.toBitVec = field at *
  generalize @unpackMantissa Format.binary64 x.toBits.toBitVec = fraction at *
  clear hunpack hx hsign hfield hfraction
  by_cases hfull : field = -1#11
  · have hvalue : field.toNat = 2047 := congrArg BitVec.toNat hfull
    rw [if_pos hvalue] at h
    split at h <;> cases h
  have hvalue : field.toNat ≠ 2047 := fun htop => hfull (BitVec.eq_of_toNat_eq htop)
  rw [if_neg hvalue] at h
  rw [if_neg hfull]
  by_cases hnone : field = 0#11
  · have hleast : field.toNat = 0 := congrArg BitVec.toNat hnone
    rw [if_pos hleast] at h
    obtain ⟨rfl, rfl, rfl⟩ := Binary.finite.inj h
    rw [if_pos hnone]
    by_cases hzero : fraction = 0#52
    · have hnothing : ((fraction.toNat : ℕ) : ℚ) * 2 ^ Binary.leastExponent = 0 := by
        rw [hzero]
        exact zero_mul _
      rw [dif_pos hzero, hnothing]
      exact ⟨Stands.zero _, overflow_pos, Or.inl ⟨congrArg BitVec.toNat hzero, rfl⟩⟩
    · have hcanonical : Canonical fraction.toNat Binary.leastExponent :=
        ⟨hpos hzero, hmantissa.trans (by decide), le_rfl, Or.inl rfl⟩
      have hplace : (field.toNat : ℤ) - 1075 + 1 = Binary.leastExponent := by
        rw [hleast]
        rfl
      rw [dif_neg hzero, @finite_congr _ _ _ _ _ _ (hpos hzero) rfl hplace]
      exact ⟨Stands.finite _ _ hcanonical, hcanonical.lt_overflow_iff.mpr (by decide),
        Or.inr hcanonical⟩
  -- Any other exponent stands for digits behind the implicit one.
  · have hone : field.toNat ≠ 0 := fun hzero => hnone (BitVec.eq_of_toNat_eq hzero)
    rw [if_neg hone] at h
    obtain ⟨rfl, rfl, rfl⟩ := Binary.finite.inj h
    rw [if_neg hnone]
    have himplicit : Binary.implicitBit = 2 ^ 52 := rfl
    have hplace : (field.toNat : ℤ) - 1075 = Binary.leastExponent + (field.toNat : ℤ) - 1 := by
      have : Binary.leastExponent = -1074 := rfl
      omega
    have hdigits : (1#1 ++ fraction).toNat = Binary.implicitBit + fraction.toNat := happend
    have hlt : field.toNat < 2048 := hexponent
    have hlt' : fraction.toNat < 2 ^ 52 := hmantissa
    have hcanonical : Canonical (Binary.implicitBit + fraction.toNat)
        (Binary.leastExponent + (field.toNat : ℤ) - 1) :=
      ⟨by omega, by omega, by omega, Or.inr (by omega)⟩
    rw [@finite_congr _ _ _ _ _ _ hcanonical.pos hdigits hplace]
    exact ⟨Stands.finite _ _ hcanonical, hcanonical.lt_overflow_iff.mpr (by omega),
      Or.inr hcanonical⟩

/-! ## Equal floats -/

theorem Canonical.eq_of_value_eq {m n : ℕ} {e k : ℤ} (h : Canonical m e) (h' : Canonical n k)
    (hvalue : (m : ℚ) * 2 ^ e = n * 2 ^ k) : m = n ∧ e = k := by
  have hnot := (h.lt_iff h').not.mp hvalue.not_lt
  have hnot' := (h'.lt_iff h).not.mp hvalue.not_gt
  omega

theorem Stands.unique {f g : UnpackedFloat} {sign : Sign} {v : ℚ} (hf : Stands f sign v)
    (hg : Stands g sign v) : f = g := by
  generalize hw : v = w at hg
  cases hf with
  | zero =>
      cases hg with
      | zero => rfl
      | finite _ hn h' => exact absurd hw h'.value_pos.ne
  | finite _ hm h =>
      rename_i m e
      cases hg with
      | zero => exact absurd hw h.value_pos.ne'
      | finite _ hn h' =>
          obtain ⟨rfl, rfl⟩ := h.eq_of_value_eq h' hw
          rfl

/-- The bits of a float are those of its parts. -/
theorem toNat_toBits {x : Float} {negative : Bool} {m : ℕ} {e : ℤ}
    (h : Binary.ofFloat x = .finite negative m e) :
    x.toBits.toNat = (if negative then 2 ^ 63 else 0) + ((e + 1074).toNat * 2 ^ 52 + m) := by
  have hlt : x.toBits.toNat < 2 ^ 64 := x.toBits.toNat_lt
  have himplicit : Binary.implicitBit = 2 ^ 52 := rfl
  have hleast : Binary.leastExponent = -1074 := rfl
  have hpow : Nat.pow 2 63 = 2 ^ 63 := rfl
  unfold Binary.ofFloat at h
  dsimp only at h
  rw [himplicit, hleast, hpow] at h
  split at h
  · split at h <;> cases h
  · split at h
    · obtain ⟨rfl, rfl, rfl⟩ := Binary.finite.inj h
      simp only [decide_eq_true_eq]
      split <;> omega
    · obtain ⟨rfl, rfl, rfl⟩ := Binary.finite.inj h
      simp only [decide_eq_true_eq]
      split <;> omega

theorem eq_of_toBits_eq {x y : Float} (h : x.toBits = y.toBits) : x = y := by
  obtain ⟨⟨bits, hvalid⟩⟩ := x
  obtain ⟨⟨bits', hvalid'⟩⟩ := y
  obtain rfl : bits = bits' := h
  rfl

theorem Stands.eq_of_eq {f g : UnpackedFloat} {s t : Sign} {v w : ℚ} (hf : Stands f s v)
    (hg : Stands g t w) (h : f = g) : s = t ∧ v = w := by
  subst h
  cases hf with
  | zero =>
      cases hg
      exact ⟨rfl, rfl⟩
  | finite =>
      cases hg
      exact ⟨rfl, rfl⟩

theorem Stands.isFinite {x : Float} {sign : Sign} {v : ℚ} (h : Stands x.toModel.unpack sign v) :
    x.isFinite = true := by
  show x.toModel.unpack.isFinite = true
  generalize x.toModel.unpack = f at h
  cases h <;> rfl

/-- **Two finite floats with one sign and one size are the same**, bit for bit. -/
theorem eq_of_stands {x y : Float} {sign : Sign} {v : ℚ} (hx : Stands x.toModel.unpack sign v)
    (hy : Stands y.toModel.unpack sign v) : x = y := by
  obtain ⟨negative, m, e, hofx⟩ := (isFinite_iff_ofFloat x).mp hx.isFinite
  obtain ⟨negative', n, k, hofy⟩ := (isFinite_iff_ofFloat y).mp hy.isFinite
  obtain ⟨hstands, -, hshape⟩ := stands_of_ofFloat hofx
  obtain ⟨hstands', -, hshape'⟩ := stands_of_ofFloat hofy
  obtain ⟨hsign, hvalue⟩ := hstands.eq_of_eq hstands' (hx.unique hy)
  obtain rfl := signOf_inj hsign
  have hparts : m = n ∧ e = k := by
    rcases hshape with ⟨rfl, rfl⟩ | h
    · rcases hshape' with ⟨rfl, rfl⟩ | h'
      · exact ⟨rfl, rfl⟩
      · rw [Nat.cast_zero, zero_mul] at hvalue
        exact absurd hvalue h'.value_pos.ne
    · rcases hshape' with ⟨rfl, rfl⟩ | h'
      · rw [Nat.cast_zero, zero_mul] at hvalue
        exact absurd hvalue h.value_pos.ne'
      · exact h.eq_of_value_eq h' hvalue
  obtain ⟨rfl, rfl⟩ := hparts
  exact eq_of_toBits_eq (UInt64.toNat_inj.mp ((toNat_toBits hofx).trans (toNat_toBits hofy).symm))

end TraceTimeline.Number
