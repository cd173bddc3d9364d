import TraceTimeline.Proofs.Number.Digits
import TraceTimeline.Proofs.Number.FloatOrder

/-!
# The shortest decimal

`Around m e r` says that the real `r` rounds to the float `m · 2 ^ e`. The search for the decimal
that is written tries one decimal grid after the other, and takes the first that has a point around
the float. Main statements: a real around a float rounds to it; and the search ends at the coarsest
grid that has a point there, with a number of 64 bits.
-/

namespace TraceTimeline.Number

variable {tie : Tie} {m : ℕ} {e place : ℤ}

/-- The reals that round to `m · 2 ^ e`. The ends belong to them when `m` is even. -/
def Around (m : ℕ) (e : ℤ) (r : ℚ) : Prop :=
  if m % 2 = 0 then
    (m - Decimal.marginBelow m e / 4 : ℚ) * 2 ^ e ≤ r ∧ r ≤ (m + 1 / 2) * 2 ^ e
  else (m - Decimal.marginBelow m e / 4 : ℚ) * 2 ^ e < r ∧ r < (m + 1 / 2) * 2 ^ e

theorem marginBelow_cases (m : ℕ) (e : ℤ) :
    Decimal.marginBelow m e = 1 ∧ m = 2 ^ 52 ∧ -1074 < e ∨
      Decimal.marginBelow m e = 2 ∧ (m = 2 ^ 52 → e ≤ -1074) := by
  unfold Decimal.marginBelow
  split
  · rename_i h
    exact Or.inl ⟨rfl, h.1, h.2⟩
  · rename_i h
    exact Or.inr ⟨rfl, fun hm => Int.not_lt.mp fun he => h ⟨hm, he⟩⟩

theorem Around.bounds {r : ℚ} (h : Around m e r) :
    (m - Decimal.marginBelow m e / 4 : ℚ) * 2 ^ e ≤ r ∧ r ≤ (m + 1 / 2) * 2 ^ e := by
  unfold Around at h
  split at h
  · exact h
  · exact ⟨h.1.le, h.2.le⟩

theorem Around.even {r : ℚ} (h : Around m e r)
    (hend : r = (m - Decimal.marginBelow m e / 4 : ℚ) * 2 ^ e ∨ r = (m + 1 / 2) * 2 ^ e) :
    m % 2 = 0 := by
  by_contra hodd
  unfold Around at h
  rw [if_neg hodd] at h
  rcases hend with rfl | rfl
  · exact lt_irrefl _ h.1
  · exact lt_irrefl _ h.2

/-- **A real around a float rounds to it.** -/
theorem Around.exists_rounds {r : ℚ} (hm : Canonical m e) (h : Around m e r) :
    ∃ n k, Rounds r n k ∧ (n : ℚ) * 2 ^ k = m * 2 ^ e := by
  have hpos : (0 : ℚ) < 2 ^ e := by positivity
  obtain ⟨u, rfl⟩ : ∃ u, r = u * 2 ^ e := ⟨r / 2 ^ e, (div_mul_cancel₀ r hpos.ne').symm⟩
  have heven := h.even
  obtain ⟨hlow, hhigh⟩ := h.bounds
  rw [mul_le_mul_iff_left₀ hpos] at hlow hhigh
  rw [mul_left_inj' hpos.ne', mul_left_inj' hpos.ne'] at heven
  have hdigits : (m : ℚ) + 1 ≤ 2 ^ 53 := by exact_mod_cast hm.lt
  rcases marginBelow_cases m e with ⟨hmargin, rfl, he⟩ | ⟨hmargin, hnormal⟩
  · rw [hmargin] at hlow heven
    push_cast at hlow hhigh heven
    rcases lt_or_ge u (2 ^ 52) with hbelow | habove
    · -- Just below a power of two the floats lie twice as close.
      have hhalf : (2 : ℚ) ^ e = 2 * 2 ^ (e - 1) := by
        rw [zpow_sub_one₀ (by norm_num)]
        ring
      have hpos' : (0 : ℚ) < 2 ^ (e - 1) := by positivity
      rw [hhalf, ← mul_assoc]
      refine ⟨2 ^ 53, e - 1, ⟨by omega, ?_, Or.inr ?_, ?_⟩, ?_⟩
      · gcongr
        linarith
      · gcongr
        linarith
      · rw [mul_div_cancel_right₀ _ hpos'.ne']
        push_cast
        exact ⟨by push_cast; linarith, by push_cast; linarith, fun _ => by decide⟩
      · push_cast
        ring
    · refine ⟨2 ^ 52, e, ⟨hm.least, ?_, Or.inr ?_, ?_⟩, by push_cast; rfl⟩
      · gcongr
        linarith
      · gcongr
      · rw [mul_div_cancel_right₀ _ hpos.ne']
        push_cast
        exact ⟨by push_cast; linarith, by push_cast; linarith, fun _ => by decide⟩
  · rw [hmargin] at hlow heven
    push_cast at hlow heven
    refine ⟨m, e, ⟨hm.least, ?_, ?_, ?_⟩, rfl⟩
    · gcongr
      linarith
    · by_cases hleast : e = -1074
      · exact Or.inl hleast
      · right
        have hm' : 2 ^ 52 + 1 ≤ m := by
          have hle := hm.normal.resolve_left hleast
          have hleast' := hm.least
          have hne : m ≠ 2 ^ 52 := fun hm => hleast (le_antisymm (hnormal hm) hleast')
          omega
        have hlarge : (2 : ℚ) ^ 52 + 1 ≤ m := by exact_mod_cast hm'
        gcongr
        linarith
    · rw [mul_div_cancel_right₀ _ hpos.ne']
      refine ⟨by linarith, by linarith, fun hend => heven ?_⟩
      rcases hend with hend | hend
      · left; linarith
      · exact Or.inr hend

theorem marginBelow_le (m : ℕ) (e : ℤ) : Decimal.marginBelow m e ≤ 2 := by
  rcases marginBelow_cases m e with h | h <;> omega

theorem around_of_lt {r : ℚ} (hlow : (m - Decimal.marginBelow m e / 4 : ℚ) * 2 ^ e < r)
    (hhigh : r < (m + 1 / 2) * 2 ^ e) : Around m e r := by
  unfold Around
  split
  · exact ⟨hlow.le, hhigh.le⟩
  · exact ⟨hlow, hhigh⟩

theorem lower_lt (m : ℕ) (e : ℤ) :
    (m - Decimal.marginBelow m e / 4 : ℚ) * 2 ^ e < m * 2 ^ e := by
  have hpos : (0 : ℚ) < 2 ^ e := by positivity
  have hmargin : (1 : ℚ) ≤ Decimal.marginBelow m e := by
    rcases marginBelow_cases m e with h | h <;> rw [h.1] <;> norm_num
  gcongr
  linarith

theorem lt_upper (m : ℕ) (e : ℤ) : (m : ℚ) * 2 ^ e < (m + 1 / 2) * 2 ^ e := by
  have hpos : (0 : ℚ) < 2 ^ e := by positivity
  gcongr
  linarith

/-- The reals around a float form an interval. -/
theorem Around.between {r s : ℚ} (h : Around m e r)
    (hs : r ≤ s ∧ s ≤ m * 2 ^ e ∨ m * 2 ^ e ≤ s ∧ s ≤ r) : Around m e s := by
  have hlow := lower_lt m e
  have hhigh := lt_upper m e
  unfold Around at h ⊢
  split at h
  · rename_i heven
    rw [if_pos heven]
    rcases hs with hs | hs <;> exact ⟨by linarith [h.1], by linarith [h.2]⟩
  · rename_i hodd
    rw [if_neg hodd]
    rcases hs with hs | hs <;> exact ⟨by linarith [h.1], by linarith [h.2]⟩

/-- No real around a positive float is zero. -/
theorem Around.pos {r : ℚ} (h : Around m e r) (hm : 0 < m) : 0 < r := by
  have hpos : (0 : ℚ) < 2 ^ e := by positivity
  have hcast : (1 : ℚ) ≤ m := by exact_mod_cast hm
  have hmargin : (Decimal.marginBelow m e : ℚ) ≤ 2 := by exact_mod_cast marginBelow_le m e
  exact lt_of_lt_of_le (mul_pos (by linarith) hpos) h.bounds.1

/-! ## Grids -/

namespace Decimal

theorem zpow_mul_pow_toNat {b : ℚ} (hb : b ≠ 0) (k : ℤ) :
    b ^ k * b ^ (-k).toNat = b ^ k.toNat := by
  rw [← zpow_natCast, ← zpow_natCast, ← zpow_add₀ hb]
  congr 1
  omega

/-- The whole numbers that the search compares are a float and a point of a grid, both multiplied by
the same positive number. -/
theorem exists_common_multiple (e place : ℤ) : ∃ c : ℚ, 0 < c ∧
    ((2 ^ (e - 2).toNat * 10 ^ (-place).toNat : ℕ) : ℚ) = 2 ^ e / 4 * c ∧
    ((2 ^ (-(e - 2)).toNat * 10 ^ place.toNat : ℕ) : ℚ) = 10 ^ place * c := by
  refine ⟨2 ^ (-(e - 2)).toNat * 10 ^ (-place).toNat, by positivity, ?_, ?_⟩
  · have hquarter : (2 : ℚ) ^ e / 4 = 2 ^ (e - 2) := by
      rw [zpow_sub₀ (by norm_num)]
      norm_num
    have htwo : (2 : ℚ) ^ (e - 2) * 2 ^ (-(e - 2)).toNat = 2 ^ (e - 2).toNat :=
      zpow_mul_pow_toNat two_ne_zero (e - 2)
    rw [hquarter, ← mul_assoc, htwo]
    push_cast
    rfl
  · have hten : (10 : ℚ) ^ place * 10 ^ (-place).toNat = 10 ^ place.toNat :=
      zpow_mul_pow_toNat (by norm_num) place
    rw [mul_left_comm, hten]
    push_cast
    rfl

theorem compare_of_multiples {a b : ℕ} {x y c : ℚ} (hc : 0 < c) (ha : (a : ℚ) = x * c)
    (hb : (b : ℚ) = y * c) : (a ≤ b ↔ x ≤ y) ∧ (a < b ↔ x < y) := by
  rw [← mul_le_mul_iff_left₀ hc, ← mul_lt_mul_iff_left₀ hc, ← ha, ← hb, Nat.cast_le, Nat.cast_lt]
  exact ⟨Iff.rfl, Iff.rfl⟩

/-- **A grid** has a point in the interval around a float if one of the two next to the float is in
it, and such a point is taken. -/
theorem onGrid?_cases (hm : 0 < m) (tie : Tie) (e place : ℤ) :
    ∃ low : ℕ, (low : ℚ) * 10 ^ place ≤ m * 2 ^ e ∧ (m : ℚ) * 2 ^ e < (low + 1) * 10 ^ place ∧
      (onGrid? tie m e place = none ∧ ¬ Around m e (low * 10 ^ place) ∧
          ¬ Around m e ((low + 1) * 10 ^ place) ∨
        ∃ n, (n = low ∨ n = low + 1) ∧ Around m e (n * 10 ^ place) ∧
          onGrid? tie m e place = some ⟨n, place⟩) := by
  obtain ⟨c, hc, hscale, hunit⟩ := exists_common_multiple e place
  have hmargin : marginBelow m e ≤ 4 * m := by
    exact (marginBelow_le m e).trans (by omega)
  unfold onGrid?
  extract_lets quarter scale unit value least greatest inside low nearest
  change (scale : ℚ) = _ at hscale
  change (unit : ℚ) = _ at hunit
  -- Times `c`, the ends of the interval and the points of the grid are the whole numbers compared.
  have hleast : (least : ℚ) = (m - marginBelow m e / 4 : ℚ) * 2 ^ e * c := by
    rw [Nat.cast_mul, hscale, Nat.cast_sub hmargin]
    push_cast
    ring
  have hgreatest : (greatest : ℚ) = (m + 1 / 2 : ℚ) * 2 ^ e * c := by
    rw [Nat.cast_mul, hscale]
    push_cast
    ring
  have hvalue : (value : ℚ) = m * 2 ^ e * c := by
    rw [Nat.cast_mul, hscale]
    push_cast
    ring
  have hpoint : ∀ n : ℕ, ((n * unit : ℕ) : ℚ) = n * 10 ^ place * c := by
    intro n
    rw [Nat.cast_mul, hunit, mul_assoc]
  have hunit_pos : 0 < unit := by
    have : (0 : ℚ) < unit := by rw [hunit]; positivity
    exact_mod_cast this
  have hinside : ∀ n, inside n = true ↔ Around m e (n * 10 ^ place) := by
    intro n
    have hlow := compare_of_multiples hc hleast (hpoint n)
    have hhigh := compare_of_multiples hc (hpoint n) hgreatest
    unfold Around
    by_cases heven : m % 2 = 0
    · simp only [inside, if_pos heven, Bool.and_eq_true, decide_eq_true_eq, hlow.1, hhigh.1]
    · simp only [inside, if_neg heven, Bool.and_eq_true, decide_eq_true_eq, hlow.2, hhigh.2]
  have hbelow : (low : ℚ) * 10 ^ place ≤ m * 2 ^ e :=
    (compare_of_multiples hc (hpoint low) hvalue).1.mp (Nat.div_mul_le_self value unit)
  have habove : (m : ℚ) * 2 ^ e < ((low + 1 : ℕ) : ℚ) * 10 ^ place :=
    (compare_of_multiples hc hvalue (hpoint (low + 1))).2.mp
      (Nat.lt_mul_of_div_lt (Nat.lt_succ_self low) hunit_pos)
  push_cast at habove
  refine ⟨low, hbelow, habove, ?_⟩
  have hlow := hinside low
  have hhigh := hinside (low + 1)
  push_cast at hhigh
  -- Of the two points next to the float both may lie inside, or one of them, or none.
  by_cases hin : inside low = true
  · right
    by_cases hin' : inside (low + 1) = true
    · rw [if_pos (by rw [hin, hin']; rfl)]
      have hnearest : nearest = low ∨ nearest = low + 1 := roundDiv_eq_or value unit tie
      refine ⟨nearest, hnearest, (hinside nearest).mp ?_, rfl⟩
      rcases hnearest with h | h
      · rwa [h]
      · rwa [h]
    · rw [if_neg (by rw [hin]; exact hin'), if_pos hin]
      exact ⟨low, Or.inl rfl, hlow.mp hin, rfl⟩
  · rw [if_neg (fun h => hin (Bool.and_eq_true_iff.mp h).1), if_neg hin]
    by_cases hin' : inside (low + 1) = true
    · rw [if_pos hin']
      exact Or.inr ⟨low + 1, Or.inr rfl, (hinside (low + 1)).mp hin', rfl⟩
    · rw [if_neg hin']
      exact Or.inl ⟨rfl, hlow.not.mp hin, hhigh.not.mp hin'⟩

/-- A grid with a point in the interval is taken. -/
theorem exists_onGrid?_eq_some (hm : 0 < m) (tie : Tie) {n : ℕ}
    (h : Around m e (n * 10 ^ place)) : ∃ d, onGrid? tie m e place = some d := by
  obtain ⟨low, hbelow, habove, ⟨-, hlow, hhigh⟩ | ⟨n, -, -, hsome⟩⟩ := onGrid?_cases hm tie e place
  · have hpos : (0 : ℚ) < 10 ^ place := by positivity
    rcases Nat.lt_or_ge low n with hlt | hle
    · have hcast : (low : ℚ) + 1 ≤ n := by exact_mod_cast hlt
      refine absurd (h.between (Or.inr ⟨habove.le, ?_⟩)) hhigh
      gcongr
    · have hcast : (n : ℚ) ≤ low := by exact_mod_cast hle
      refine absurd (h.between (Or.inl ⟨?_, hbelow⟩)) hlow
      gcongr
  · exact ⟨_, hsome⟩

/-- A grid that is finer than half the distance of two floats has a point in the interval. -/
theorem exists_onGrid?_of_lt (hm : 0 < m) (tie : Tie) (h : 2 * (10 : ℚ) ^ place < 2 ^ e) :
    ∃ d, onGrid? tie m e place = some d := by
  obtain ⟨low, hbelow, habove, ⟨-, -, hhigh⟩ | ⟨n, -, -, hsome⟩⟩ := onGrid?_cases hm tie e place
  · refine absurd (around_of_lt ((lower_lt m e).trans habove) ?_) hhigh
    linarith
  · exact ⟨_, hsome⟩

/-! ## The search -/

/-- **The search** ends at the coarsest grid that has a point in the interval. -/
theorem search_spec {tie : Tie} {last : ℤ} {d : Decimal} (hlast : onGrid? tie m e last = some d)
    {grids : ℕ} {place : ℤ} (hle : last ≤ place) (hlt : place < last + grids) :
    ∃ found, last ≤ found ∧ found ≤ place ∧
      onGrid? tie m e found = some (search tie m e grids place) ∧
      ∀ coarser, found < coarser → coarser ≤ place → onGrid? tie m e coarser = none := by
  -- A grid that is refused is not the last one, which has a point, so there is one more to try.
  induction grids generalizing place with
  | zero => omega
  | succ grids ih =>
      rw [search]
      split
      · rename_i found h
        exact ⟨place, hle, le_rfl, h, by omega⟩
      · rename_i h
        have hne : last ≠ place := by
          rintro rfl
          rw [h] at hlast
          cases hlast
        push_cast at hlt
        obtain ⟨found, hfound, hle', hsome, hnone⟩ := @ih (place - 1) (by omega) (by omega)
        refine ⟨found, hfound, by omega, hsome, fun coarser hcoarser hle => ?_⟩
        rcases Int.lt_or_eq_of_le hle with hlt | rfl
        · exact hnone coarser hcoarser (by omega)
        · exact h

/-! ## Powers of two and ten -/

theorem ten_pow_le_two_pow : ∀ k < 1100,
    10 ^ (k * 30103 / 100000) ≤ 2 ^ k ∧ 2 ^ k ≤ 10 ^ (k * 30103 / 100000 + 1) ∧
      (k * 30103 % 100000 = 0 → k = 0) := by
  decide +kernel

/-- For all powers of two that floats reach, the place of the leading decimal digit is found by the
fraction that stands for the logarithm of two. -/
theorem ten_zpow_le_two_zpow {k : ℤ} (hlow : -1100 < k) (hhigh : k < 1100) :
    (10 : ℚ) ^ ((k * 30103).fdiv 100000) ≤ 2 ^ k ∧
      (2 : ℚ) ^ k ≤ 10 ^ ((k * 30103).fdiv 100000 + 1) := by
  rw [Int.fdiv_eq_ediv_of_nonneg _ (by decide)]
  rcases lt_or_ge k 0 with hneg | hnonneg
  · obtain ⟨j, rfl⟩ : ∃ j : ℕ, k = -j := ⟨k.natAbs, by omega⟩
    obtain ⟨hle, hle', hrest⟩ := ten_pow_le_two_pow j (by omega)
    have hproduct : -(j : ℤ) * 30103 = -((j * 30103 : ℕ) : ℤ) := by
      push_cast
      ring
    have hplace : -((j * 30103 : ℕ) : ℤ) / 100000 = -((j * 30103 / 100000 + 1 : ℕ) : ℤ) := by
      have hrest' : j * 30103 % 100000 ≠ 0 := fun h => by
        have := hrest h
        omega
      generalize j * 30103 = t at hrest'
      omega
    have hplace' : -((j * 30103 / 100000 + 1 : ℕ) : ℤ) + 1 = -((j * 30103 / 100000 : ℕ) : ℤ) := by
      omega
    rw [hproduct, hplace, hplace', zpow_neg, zpow_neg, zpow_neg, zpow_natCast, zpow_natCast,
      zpow_natCast]
    exact ⟨inv_anti₀ (by positivity) (by exact_mod_cast hle'),
      inv_anti₀ (by positivity) (by exact_mod_cast hle)⟩
  · obtain ⟨j, rfl⟩ := Int.eq_ofNat_of_zero_le hnonneg
    obtain ⟨hle, hle', -⟩ := ten_pow_le_two_pow j (by omega)
    have hplace : (j : ℤ) * 30103 / 100000 = ((j * 30103 / 100000 : ℕ) : ℤ) := by omega
    have hplace' : ((j * 30103 / 100000 : ℕ) : ℤ) + 1 = ((j * 30103 / 100000 + 1 : ℕ) : ℤ) := by
      omega
    rw [hplace, hplace', zpow_natCast, zpow_natCast, zpow_natCast]
    exact ⟨by exact_mod_cast hle, by exact_mod_cast hle'⟩

/-! ## The shortest decimal -/

theorem lt_two_zpow (m : ℕ) (e : ℤ) :
    ((m : ℚ) + 1 / 2) * 2 ^ e < 2 ^ ((m.log2 : ℤ) + e + 1) := by
  have hdigits : (m : ℚ) + 1 ≤ 2 ^ (m.log2 + 1) := by exact_mod_cast Nat.lt_log2_self
  have hpos : (0 : ℚ) < 2 ^ e := by positivity
  calc ((m : ℚ) + 1 / 2) * 2 ^ e < 2 ^ (m.log2 + 1) * 2 ^ e := by gcongr; linarith
    _ = 2 ^ ((m.log2 : ℤ) + e + 1) := by
      rw [pow_mul_zpow_two]
      push_cast
      ring_nf

/-- The first grid has no positive point as small as the float, and the last one is fine enough. -/
theorem placeAbove_spec (h : Canonical m e) (hfits : (m : ℚ) * 2 ^ e < overflow) :
    ((m : ℚ) + 1 / 2) * 2 ^ e < 10 ^ placeAbove m e ∧
      2 * (10 : ℚ) ^ (placeAbove m e - 21) < 2 ^ e := by
  have hlog : m.log2 ≤ 52 := Nat.le_of_lt_succ ((Nat.log2_lt h.pos.ne').mpr h.lt)
  have hleast := h.least
  have hgreatest := h.lt_overflow_iff.mp hfits
  obtain ⟨hlow, hhigh⟩ := @ten_zpow_le_two_zpow ((m.log2 : ℤ) + e + 1) (by omega) (by omega)
  have hplace : placeAbove m e = (((m.log2 : ℤ) + e + 1) * 30103).fdiv 100000 + 2 := rfl
  rw [hplace]
  generalize (((m.log2 : ℤ) + e + 1) * 30103).fdiv 100000 = place at hlow hhigh
  constructor
  · calc ((m : ℚ) + 1 / 2) * 2 ^ e < 2 ^ ((m.log2 : ℤ) + e + 1) := lt_two_zpow m e
      _ ≤ 10 ^ (place + 1) := hhigh
      _ ≤ 10 ^ (place + 2) := zpow_le_zpow_right₀ (by norm_num) (by omega)
  · have hsplit : place + 2 - 21 = place + -19 := by omega
    calc 2 * (10 : ℚ) ^ (place + 2 - 21) = 10 ^ place * (2 * 10 ^ (-19 : ℤ)) := by
          rw [hsplit, zpow_add₀ (by norm_num)]
          ring
      _ ≤ 2 ^ ((m.log2 : ℤ) + e + 1) * (2 * 10 ^ (-19 : ℤ)) := by gcongr
      _ ≤ 2 ^ (e + 53) * (2 * 10 ^ (-19 : ℤ)) :=
          mul_le_mul_of_nonneg_right (zpow_le_zpow_two (by omega)) (by positivity)
      _ = 2 ^ e * (2 ^ (53 : ℤ) * (2 * 10 ^ (-19 : ℤ))) := by
          rw [zpow_add₀ (by norm_num)]
          ring
      _ < 2 ^ e := mul_lt_of_lt_one_right (by positivity) (by norm_num)

/-- A grid with a point in the interval is no coarser than the first one that is tried. -/
theorem place_le_placeAbove (h : Canonical m e) (hfits : (m : ℚ) * 2 ^ e < overflow) {n : ℕ}
    (hn : Around m e (n * 10 ^ place)) : place ≤ placeAbove m e := by
  obtain ⟨habove, -⟩ := placeAbove_spec h hfits
  clear hfits
  by_contra hlt
  have hbeyond : (10 : ℚ) ^ placeAbove m e ≤ 10 ^ place :=
    zpow_le_zpow_right₀ (by norm_num) (by omega)
  have hpos : n ≠ 0 := by
    rintro rfl
    have := hn.pos h.pos
    rw [Nat.cast_zero, zero_mul] at this
    exact lt_irrefl 0 this
  have hone : (1 : ℚ) ≤ n := by exact_mod_cast Nat.one_le_iff_ne_zero.mpr hpos
  have hle : 1 * (10 : ℚ) ^ place ≤ n * 10 ^ place := by gcongr
  linarith [hn.bounds.2]

/-- The grid that is found is not very fine: the grid before it was refused, or there was none. -/
theorem two_zpow_le_of_refused (h : Canonical m e) (hfits : (m : ℚ) * 2 ^ e < overflow) {found : ℤ}
    (hle : found ≤ placeAbove m e)
    (hnone : found < placeAbove m e → onGrid? tie m e (found + 1) = none) :
    (2 : ℚ) ^ e ≤ 20 * 10 ^ found := by
  rcases Int.lt_or_eq_of_le hle with hlt | rfl
  · by_contra hgt
    have hnext : 2 * (10 : ℚ) ^ (found + 1) < 2 ^ e := by
      rw [zpow_add_one₀ (by norm_num)]
      linarith
    obtain ⟨d, hd⟩ := exists_onGrid?_of_lt h.pos tie hnext
    rw [hnone hlt] at hd
    cases hd
  · obtain ⟨habove, -⟩ := placeAbove_spec h hfits
    have hm : (1 : ℚ) ≤ m := by exact_mod_cast h.pos
    have hpos : (0 : ℚ) < 10 ^ placeAbove m e := by positivity
    have hle : 1 * (2 : ℚ) ^ e ≤ (m + 1 / 2) * 2 ^ e := by
      gcongr
      linarith
    linarith

theorem point_le_of_coarse {n : ℕ} (hcoarse : (2 : ℚ) ^ e ≤ 20 * 10 ^ place)
    (hn : (n : ℚ) * 10 ^ place ≤ m * 2 ^ e) : n ≤ 20 * m := by
  have hpos : (0 : ℚ) < 10 ^ place := by positivity
  have hcast : (n : ℚ) ≤ 20 * m := by
    refine le_of_mul_le_mul_right (hn.trans ?_) hpos
    calc (m : ℚ) * 2 ^ e ≤ m * (20 * 10 ^ place) :=
          mul_le_mul_of_nonneg_left hcoarse (Nat.cast_nonneg m)
      _ = 20 * m * 10 ^ place := by ring
  exact_mod_cast hcast

def value (d : Decimal) : ℚ :=
  d.digits * 10 ^ d.exponent

/-- **The shortest decimal** of a float lies in the interval of reals that round to the float, no
coarser grid has a point there, and its digits fit 64 bits. -/
theorem shortest_spec (h : Canonical m e) (hfits : (m : ℚ) * 2 ^ e < overflow) (tie : Tie) :
    Around m e (shortest tie m e).value ∧ (shortest tie m e).digits < 2 ^ 64 ∧
      ∀ (n : ℕ) (place : ℤ), Around m e (n * 10 ^ place) →
        place ≤ (shortest tie m e).exponent := by
  obtain ⟨d, hlast⟩ := exists_onGrid?_of_lt h.pos tie (placeAbove_spec h hfits).2
  obtain ⟨found, -, hle, hsome, hnone⟩ :=
    @search_spec m e tie _ d hlast grids (placeAbove m e) (by omega) (by unfold grids; omega)
  obtain ⟨low, hbelow, -, ⟨hnot, -⟩ | ⟨n, hn, haround, hsome'⟩⟩ :=
    onGrid?_cases h.pos tie e found
  · rw [hnot] at hsome
    cases hsome
  have hshortest : shortest tie m e = ⟨n, found⟩ := Option.some.inj (hsome.symm.trans hsome')
  rw [hshortest]
  refine ⟨haround, ?_, fun k place hk => ?_⟩
  · have hcoarse := two_zpow_le_of_refused h hfits hle fun hlt =>
      hnone (found + 1) (Int.lt_succ found) hlt
    have hlow := point_le_of_coarse hcoarse hbelow
    have := h.lt
    show n < 2 ^ 64
    omega
  · by_contra hlt
    obtain ⟨d, hd⟩ := exists_onGrid?_eq_some h.pos tie hk
    rw [hnone place (Int.lt_of_not_ge hlt) (place_le_placeAbove h hfits hk)] at hd
    cases hd

/-- A whole number below `2 ^ 53` is its own shortest decimal, apart from zeros at its end. -/
theorem value_shortest_of_whole (h : Canonical m e) {n : ℕ} (hn : (m : ℚ) * 2 ^ e = n)
    (hlt : n < 2 ^ 53) (tie : Tie) :
    (shortest tie m e).value = n ∧ 0 ≤ (shortest tie m e).exponent := by
  have hcast : (n : ℚ) < 2 ^ 53 := by exact_mod_cast hlt
  -- A last digit above the ones would make the number too large.
  have he : e ≤ 0 := by
    by_contra hgt
    have hm : (2 : ℚ) ^ 52 ≤ m := by exact_mod_cast h.normal.resolve_left (by omega)
    have htwo : 2 * (2 : ℚ) ^ (0 : ℤ) ≤ 2 ^ e := two_mul_zpow_le (Int.lt_of_not_ge hgt)
    rw [zpow_zero, mul_one] at htwo
    have hlarge : (2 : ℚ) ^ 52 * 2 ≤ m * 2 ^ e := by gcongr
    linarith
  have hunit : (2 : ℚ) ^ e ≤ 1 := zpow_le_one_of_nonpos₀ (by norm_num) he
  have hfits : (m : ℚ) * 2 ^ e < overflow := h.lt_overflow_iff.mpr (by omega)
  obtain ⟨haround, -, hcoarsest⟩ := shortest_spec h hfits tie
  have hplace : 0 ≤ (shortest tie m e).exponent := by
    refine hcoarsest n 0 ?_
    rw [zpow_zero, mul_one, ← hn]
    exact around_of_lt (lower_lt m e) (lt_upper m e)
  refine ⟨?_, hplace⟩
  obtain ⟨k, hk⟩ := Int.eq_ofNat_of_zero_le hplace
  have hwhole : (shortest tie m e).value = ((shortest tie m e).digits * 10 ^ k : ℕ) := by
    rw [value, hk]
    push_cast
    rfl
  obtain ⟨hlow, hhigh⟩ := haround.bounds
  have hmargin : (marginBelow m e : ℚ) ≤ 2 := by exact_mod_cast marginBelow_le m e
  have hhalf : (marginBelow m e / 4 : ℚ) * 2 ^ e ≤ 1 / 2 * 1 :=
    mul_le_mul (by linarith) hunit (by positivity) (by norm_num)
  rw [sub_mul, hn, hwhole] at hlow
  rw [add_mul, hn, hwhole] at hhigh
  rw [hwhole]
  -- Two whole numbers less than one apart.
  generalize (shortest tie m e).digits * 10 ^ k = N at *
  have hle : (N : ℚ) < n + 1 := by linarith
  have hge : (n : ℚ) < N + 1 := by linarith
  have hle' : N < n + 1 := by exact_mod_cast hle
  have hge' : n < N + 1 := by exact_mod_cast hge
  rw [Nat.le_antisymm (Nat.le_of_lt_succ hle') (Nat.le_of_lt_succ hge')]

end Decimal
end TraceTimeline.Number
