import TraceTimeline.Proofs.Number.Rounding

/-!
# What floats stand for

A float that is a number stands for a sign and a size, and its bits are settled by these. Main
statements: a float is what was packed, unless that was too large and became infinite; and one float
is below another exactly if its value is, where an infinity counts as the first power of two that is
too large.
-/

namespace TraceTimeline.Number

open Float.Model Float.Model.UnpackedFloat

theorem ofBitVec_unpackSign (sign : Sign) (exponent : BitVec 11) (mantissa : BitVec 52) :
    Sign.ofBitVec (unpackSign (packComponents Format.binary64 sign exponent mantissa)) = sign := by
  have hbits : (sign.toBitVec ++ exponent ++ mantissa).extractLsb' 63 1 = sign.toBitVec := by
    rw [BitVec.extractLsb'_append_eq_of_le (by decide),
      BitVec.extractLsb'_append_eq_of_le (by decide)]
    exact BitVec.extractLsb'_eq_self
  show Sign.ofBitVec ((sign.toBitVec ++ exponent ++ mantissa).extractLsb' 63 1) = sign
  rw [hbits]
  cases sign <;> rfl

theorem toNat_append_one (mantissa : BitVec 52) :
    (1#1 ++ mantissa).toNat = 2 ^ 52 + mantissa.toNat := by
  rw [BitVec.toNat_append, ← Nat.shiftLeft_add_eq_or_of_lt mantissa.isLt]
  rfl

theorem finite_congr (sign : Sign) {m n : ℕ} {e k : ℤ} {hm : 0 < m} {hn : 0 < n} (h : m = n)
    (h' : e = k) : UnpackedFloat.finite sign m e hm = .finite sign n k hn := by
  subst h h'
  rfl

/-- What is unpacked of a sign, an exponent field and a fraction. -/
theorem unpack_packComponents (sign : Sign) (exponent : BitVec 11) (mantissa : BitVec 52)
    (hpos : mantissa ≠ 0#52 → 0 < mantissa.toNat) (hpos' : 0 < (1#1 ++ mantissa).toNat) :
    UnpackedFloat.unpack Format.binary64
        (packComponents Format.binary64 sign exponent mantissa) =
      if exponent = -1#11 then
        if mantissa = 0#52 then .infinity sign else .notANumber
      else if exponent = 0#11 then
        if h : mantissa = 0#52 then .zero sign
        else .finite sign mantissa.toNat ((exponent.toNat : ℤ) - 1075 + 1) (hpos h)
      else .finite sign (1#1 ++ mantissa).toNat ((exponent.toNat : ℤ) - 1075) hpos' := by
  have hsign := ofBitVec_unpackSign sign exponent mantissa
  have hexponent : unpackExponent (packComponents Format.binary64 sign exponent mantissa) =
      exponent := unpackExponent_packComponents
  have hmantissa : unpackMantissa (packComponents Format.binary64 sign exponent mantissa) =
      mantissa := unpackMantissa_packComponents
  generalize packComponents Format.binary64 sign exponent mantissa = b at hsign hexponent hmantissa
  subst hsign hexponent hmantissa
  rfl

theorem unpack_infinity (sign : Sign) :
    UnpackedFloat.unpack Format.binary64 (packedInfinity Format.binary64 sign) = .infinity sign :=
  unpack_packComponents sign (-1#11) 0#52 (absurd rfl) (by decide)

theorem unpack_zero (sign : Sign) :
    UnpackedFloat.unpack Format.binary64 (packedZero Format.binary64 sign) = .zero sign :=
  unpack_packComponents sign 0#11 0#52 (absurd rfl) (by decide)

theorem unpack_normal (sign : Sign) {m : ℕ} {e : ℤ} (hm : 0 < m) (hlow : 2 ^ 52 ≤ m)
    (hhigh : m < 2 ^ 53) (hleast : -1074 ≤ e) (hgreatest : e ≤ 971) :
    UnpackedFloat.unpack Format.binary64 (packComponents Format.binary64 sign
      (BitVec.ofNat _ (e + 1075).toNat) (BitVec.ofNat _ m)) = .finite sign m e hm := by
  have hfield : (BitVec.ofNat 11 (e + 1075).toNat).toNat = (e + 1075).toNat :=
    Nat.mod_eq_of_lt (by omega)
  have hfull : BitVec.ofNat 11 (e + 1075).toNat ≠ -1#11 := by
    intro h
    have : (BitVec.ofNat 11 (e + 1075).toNat).toNat = 2047 := congrArg BitVec.toNat h
    omega
  have hnone : BitVec.ofNat 11 (e + 1075).toNat ≠ 0#11 := by
    intro h
    have : (BitVec.ofNat 11 (e + 1075).toNat).toNat = 0 := congrArg BitVec.toNat h
    omega
  have hdigits : (1#1 ++ BitVec.ofNat 52 m).toNat = m := by
    rw [toNat_append_one, BitVec.toNat_ofNat]
    omega
  have hpos : BitVec.ofNat 52 m ≠ 0#52 → 0 < (BitVec.ofNat 52 m).toNat :=
    fun hne => Nat.pos_of_ne_zero fun h => hne (BitVec.eq_of_toNat_eq h)
  have hunpack := unpack_packComponents sign (BitVec.ofNat 11 (e + 1075).toNat) (BitVec.ofNat 52 m)
    hpos (by omega)
  rw [if_neg hfull, if_neg hnone] at hunpack
  exact hunpack.trans (finite_congr sign hdigits (by omega))

theorem unpack_subnormal (sign : Sign) {m : ℕ} (hm : 0 < m) (hhigh : m < 2 ^ 52) :
    UnpackedFloat.unpack Format.binary64 (packComponents Format.binary64 sign
      0#_ (BitVec.ofNat _ m)) = .finite sign m (-1074) hm := by
  have hdigits : (BitVec.ofNat 52 m).toNat = m := Nat.mod_eq_of_lt hhigh
  have hne : BitVec.ofNat 52 m ≠ 0#52 := by
    intro h
    have : (BitVec.ofNat 52 m).toNat = 0 := congrArg BitVec.toNat h
    omega
  have hfull : (0#11 : BitVec 11) ≠ -1#11 := by decide
  have happend := toNat_append_one (BitVec.ofNat 52 m)
  have hunpack := unpack_packComponents sign 0#11 (BitVec.ofNat 52 m) (fun _ => by omega) (by omega)
  rw [if_neg hfull, if_pos rfl, dif_neg hne] at hunpack
  exact hunpack.trans (finite_congr sign hdigits (by decide))

/-- The first power of two that is too large for a float. -/
def overflow : ℚ := 2 ^ (1024 : ℤ)

theorem overflow_pos : 0 < overflow := by
  unfold overflow
  positivity

theorem Canonical.lt_overflow_iff {m : ℕ} {e : ℤ} (h : Canonical m e) :
    (m : ℚ) * 2 ^ e < overflow ↔ e ≤ 971 := by
  have hpos : (0 : ℚ) < 2 ^ e := by positivity
  constructor
  · intro hlt
    by_contra hgt
    have hm : (2 : ℚ) ^ 52 ≤ m := by exact_mod_cast h.normal.resolve_left (by omega)
    have hle : overflow ≤ m * 2 ^ e := by
      calc overflow ≤ 2 ^ (((52 : ℕ) : ℤ) + e) := zpow_le_zpow_two (by push_cast; omega)
        _ = 2 ^ 52 * 2 ^ e := (pow_mul_zpow_two 52 e).symm
        _ ≤ m * 2 ^ e := by gcongr
    linarith
  · intro he
    have hm : (m : ℚ) < 2 ^ 53 := by exact_mod_cast h.lt
    calc (m : ℚ) * 2 ^ e < 2 ^ 53 * 2 ^ e := by gcongr
      _ = 2 ^ (((53 : ℕ) : ℤ) + e) := pow_mul_zpow_two 53 e
      _ ≤ overflow := zpow_le_zpow_two (by push_cast; omega)

/-- The leading digit is in the highest place exactly in a number of normal size. -/
theorem log2_add_one_eq_iff {m : ℕ} (hm : 0 < m) (hlt : m < 2 ^ 53) :
    m.log2 + 1 = 53 ↔ 2 ^ 52 ≤ m := by
  have hne : m ≠ 0 := Nat.ne_of_gt hm
  have hhigh : m.log2 < 53 := (Nat.log2_lt hne).mpr hlt
  rw [← Nat.le_log2 hne]
  omega

/-- **Packing** loses nothing of a float, unless it is too large and becomes infinite. -/
theorem Stands.unpack_pack {f : UnpackedFloat} {sign : Sign} {v : ℚ} (h : Stands f sign v) :
    (Float.Model.pack f).unpack = if v < overflow then f else .infinity sign := by
  show UnpackedFloat.unpack Format.binary64 (UnpackedFloat.pack Format.binary64 f) = _
  cases h with
  | zero =>
      rw [if_pos overflow_pos]
      exact unpack_zero sign
  | finite _ hm h =>
      rename_i m e
      have hleast := h.least
      rw [pack_finite]
      by_cases he : e ≤ 971
      · have hfits : ¬ 2048 ≤ (e + 1075).toNat + 1 := by omega
        rw [if_pos (h.lt_overflow_iff.mpr he), if_neg hfits]
        by_cases hnormal : 2 ^ 52 ≤ m
        · rw [if_pos ((log2_add_one_eq_iff hm h.lt).mpr hnormal)]
          exact unpack_normal sign hm hnormal h.lt hleast he
        · obtain rfl : e = -1074 := h.normal.resolve_right hnormal
          rw [if_neg fun hlog => hnormal ((log2_add_one_eq_iff hm h.lt).mp hlog)]
          exact unpack_subnormal sign hm (Nat.lt_of_not_le hnormal)
      · have hexceeds : 2048 ≤ (e + 1075).toNat + 1 := by omega
        rw [if_neg fun hlt => he (h.lt_overflow_iff.mp hlt), if_pos hexceeds]
        exact unpack_infinity sign

/-- A float as it can be unpacked: a number that is not too large, an infinity, or no number. -/
inductive Unpacked : UnpackedFloat → Prop
  | notANumber : Unpacked .notANumber
  | infinity (sign : Sign) : Unpacked (.infinity sign)
  | number {f : UnpackedFloat} {sign : Sign} {v : ℚ} : Stands f sign v → v < overflow → Unpacked f

theorem unpacked_unpack (x : Float.Model) : Unpacked x.unpack := by
  have hx : x.unpack = UnpackedFloat.unpack Format.binary64 x.toBits.toBitVec := rfl
  rcases unpack_cases x.toBits.toBitVec with ⟨-, h⟩ | ⟨-, sign, h⟩ | ⟨-, sign, hpos, h⟩ |
    ⟨hfull, hnone, sign, hpos, h⟩
  · rw [hx]
    generalize UnpackedFloat.unpack Format.binary64 x.toBits.toBitVec = f at h
    cases f with
    | notANumber => exact .notANumber
    | infinity sign => exact .infinity sign
    | zero sign => cases h
    | finite sign m e hm => cases h
  · rw [hx, h]
    exact .number (Stands.zero sign) overflow_pos
  · rw [hx, h]
    have hlt := (@unpackMantissa Format.binary64 x.toBits.toBitVec).isLt
    have hcanonical : Canonical (@unpackMantissa Format.binary64 x.toBits.toBitVec).toNat (-1074) :=
      ⟨hpos, hlt.trans (by decide), le_rfl, Or.inl rfl⟩
    exact .number (Stands.finite sign hpos hcanonical) (hcanonical.lt_overflow_iff.mpr (by decide))
  · rw [hx, h]
    have hlt := (@unpackExponent Format.binary64 x.toBits.toBitVec).isLt
    have hone : (@unpackExponent Format.binary64 x.toBits.toBitVec).toNat ≠ 0 :=
      fun hzero => hnone (BitVec.eq_of_toNat_eq hzero)
    have htop : (@unpackExponent Format.binary64 x.toBits.toBitVec).toNat ≠ 2047 :=
      fun htop => hfull (BitVec.eq_of_toNat_eq htop)
    have hdigits := (@unpackMantissa Format.binary64 x.toBits.toBitVec).isLt
    have happend := toNat_append_one (@unpackMantissa Format.binary64 x.toBits.toBitVec)
    have hcanonical : Canonical (1#1 ++ @unpackMantissa Format.binary64 x.toBits.toBitVec).toNat
        ((@unpackExponent Format.binary64 x.toBits.toBitVec).toNat - 1075) :=
      ⟨hpos, (1#1 ++ @unpackMantissa Format.binary64 x.toBits.toBitVec).isLt, by omega,
        Or.inr (by rw [happend]; exact Nat.le_add_right _ _)⟩
    refine .number (Stands.finite sign hpos hcanonical) (hcanonical.lt_overflow_iff.mpr ?_)
    have : (@unpackExponent Format.binary64 x.toBits.toBitVec).toNat < 2048 := hlt
    omega

end TraceTimeline.Number
