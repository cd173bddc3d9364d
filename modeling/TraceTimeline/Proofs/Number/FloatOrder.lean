import TraceTimeline.Proofs.Number.FloatValue

/-!
# The order of floats

A float has a position on the line of numbers: its value, and for an infinity the first power of two
that is too large for a float. Main statements: of two floats one is below the other exactly if its
position is; and multiplying by a positive float or adding any float never reverses an order.
-/

namespace TraceTimeline.Number

open Float.Model Float.Model.UnpackedFloat

def factor : Sign → ℚ
  | .negative => -1
  | .positive => 1

/-- Where a float stands on the line of numbers. -/
def position : UnpackedFloat → ℚ
  | .infinity sign => factor sign * overflow
  | .finite sign m e _ => factor sign * (m * 2 ^ e)
  | .zero _ => 0
  | .notANumber => 0

theorem position_positiveInfinity : position (.infinity .positive) = overflow :=
  one_mul overflow

theorem position_negativeInfinity : position (.infinity .negative) = -overflow :=
  neg_one_mul overflow

variable {f g : UnpackedFloat} {sign : Sign} {v : ℚ}

theorem Stands.position_eq (h : Stands f sign v) : position f = factor sign * v := by
  cases h with
  | zero => exact (mul_zero _).symm
  | finite => rfl

theorem Stands.nonneg (h : Stands f sign v) : 0 ≤ v := by
  cases h with
  | zero => exact le_rfl
  | finite => positivity

theorem Canonical.lt_iff {m n : ℕ} {e k : ℤ} (h : Canonical m e) (h' : Canonical n k) :
    (m : ℚ) * 2 ^ e < n * 2 ^ k ↔ e < k ∨ e = k ∧ m < n := by
  have habove : ∀ {m n : ℕ} {e k : ℤ}, Canonical m e → Canonical n k → e < k →
      (m : ℚ) * 2 ^ e < n * 2 ^ k := by
    intro m n e k h h' hlt
    have hm : (m : ℚ) < 2 ^ 53 := by exact_mod_cast h.lt
    have hn : (2 : ℚ) ^ 52 ≤ n := by
      exact_mod_cast h'.normal.resolve_left (by have := h.least; omega)
    calc (m : ℚ) * 2 ^ e < 2 ^ 53 * 2 ^ e := by gcongr
      _ = 2 ^ 52 * (2 * 2 ^ e) := by ring
      _ ≤ 2 ^ 52 * 2 ^ k := by gcongr; exact two_mul_zpow_le hlt
      _ ≤ n * 2 ^ k := by gcongr
  have hpos : (0 : ℚ) < 2 ^ e := by positivity
  rcases lt_trichotomy e k with hlt | rfl | hgt
  · exact iff_of_true (habove h h' hlt) (Or.inl hlt)
  · rw [mul_lt_mul_iff_left₀ hpos, Nat.cast_lt]
    simp
  · refine iff_of_false (habove h' h hgt).le.not_gt ?_
    rintro (hlt | ⟨heq, -⟩) <;> omega

/-! ## The order -/

theorem compare_swap (f g : UnpackedFloat) :
    UnpackedFloat.compare g f = (UnpackedFloat.compare f g).map Ordering.swap := by
  cases f with
  | notANumber => cases g <;> rfl
  | infinity s =>
      cases g with
      | infinity t => cases s <;> cases t <;> rfl
      | _ => cases s <;> rfl
  | zero s =>
      cases g with
      | infinity t => cases t <;> rfl
      | finite t => cases t <;> rfl
      | _ => rfl
  | finite s m e hm =>
      cases g with
      | infinity t => cases t <;> cases s <;> rfl
      | zero t => cases s <;> rfl
      | notANumber => cases s <;> rfl
      | finite t n k hn =>
          have hswap : (compare k e).then (compare n m) =
              ((compare e k).then (compare m n)).swap := by
            rw [Ordering.swap_then, Int.compare_swap, Nat.compare_swap]
          cases s with
          | positive =>
              cases t with
              | positive => exact congrArg some hswap
              | negative => rfl
          | negative =>
              cases t with
              | positive => rfl
              | negative => exact congrArg (fun o => some o.swap) hswap

/-- Of two floats the second is not below the first where the first is at most the second. -/
theorem lt_eq_false_of_le (h : f.le g = true) : g.lt f = false := by
  unfold UnpackedFloat.le at h
  unfold UnpackedFloat.lt
  rw [compare_swap]
  cases hc : f.compare g with
  | none => rfl
  | some o =>
      rw [hc] at h
      cases o with
      | gt => cases h
      | lt | eq => rfl

theorem some_beq_lt_iff (o : Ordering) : (some o == some Ordering.lt) = true ↔ o = .lt := by
  cases o <;> decide

theorem then_eq_lt_iff (e k : ℤ) (m n : ℕ) :
    (compare e k).then (compare m n) = .lt ↔ e < k ∨ e = k ∧ m < n := by
  rw [Ordering.then_eq_lt, Int.compare_eq_lt, Int.compare_eq_eq, Nat.compare_eq_lt]

theorem then_eq_gt_iff (e k : ℤ) (m n : ℕ) :
    (compare e k).then (compare m n) = .gt ↔ k < e ∨ k = e ∧ n < m := by
  rw [Ordering.then_eq_gt, Int.compare_eq_gt, Int.compare_eq_eq, Nat.compare_eq_gt, eq_comm]

theorem Canonical.value_pos {m : ℕ} {e : ℤ} (h : Canonical m e) : 0 < (m : ℚ) * 2 ^ e := by
  have hm : (0 : ℚ) < m := by exact_mod_cast h.pos
  positivity

/-- Canonical numbers of one sign are compared by their exponents first. -/
theorem lt_finite_iff {m n : ℕ} {e k : ℤ} (hm : 0 < m) (hn : 0 < n) (h : Canonical m e)
    (h' : Canonical n k) (s t : Sign) :
    UnpackedFloat.lt (.finite s m e hm) (.finite t n k hn) = true ↔
      factor s * (m * 2 ^ e) < factor t * (n * 2 ^ k) := by
  have hpos := h.value_pos
  have hpos' := h'.value_pos
  cases s with
  | negative =>
      cases t with
      | negative =>
          show (some ((compare e k).then (compare m n)).swap == some Ordering.lt) = true ↔ _
          rw [some_beq_lt_iff, Ordering.swap_eq_lt, then_eq_gt_iff, ← h'.lt_iff h]
          unfold factor
          constructor <;> intro hlt <;> linarith
      | positive =>
          refine iff_of_true rfl ?_
          unfold factor
          linarith
  | positive =>
      cases t with
      | negative =>
          refine iff_of_false Bool.false_ne_true ?_
          unfold factor
          linarith
      | positive =>
          show (some ((compare e k).then (compare m n)) == some Ordering.lt) = true ↔ _
          rw [some_beq_lt_iff, then_eq_lt_iff, ← h.lt_iff h']
          unfold factor
          rw [one_mul, one_mul]

theorem lt_iff_of_stands {s t : Sign} {v w : ℚ} (hf : Stands f s v) (hg : Stands g t w) :
    f.lt g = true ↔ factor s * v < factor t * w := by
  cases hf with
  | zero =>
      rw [mul_zero]
      cases hg with
      | zero =>
          rw [mul_zero]
          exact iff_of_false Bool.false_ne_true (lt_irrefl 0)
      | finite _ hn h' =>
          have hpos := h'.value_pos
          cases t with
          | negative =>
              refine iff_of_false Bool.false_ne_true ?_
              unfold factor
              linarith
          | positive =>
              refine iff_of_true rfl ?_
              unfold factor
              linarith
  | finite _ hm h =>
      have hpos := h.value_pos
      cases hg with
      | zero =>
          rw [mul_zero]
          cases s with
          | negative =>
              refine iff_of_true rfl ?_
              unfold factor
              linarith
          | positive =>
              refine iff_of_false Bool.false_ne_true ?_
              unfold factor
              linarith
      | finite _ hn h' => exact lt_finite_iff hm hn h h' s t

/-- A number lies between the infinities. -/
theorem Stands.between (h : Stands f sign v) (hv : v < overflow) :
    -overflow < factor sign * v ∧ factor sign * v < overflow := by
  have hnonneg := h.nonneg
  cases sign <;> unfold factor <;> constructor <;> linarith

theorem lt_infinity_iff (h : Stands f sign v) (hv : v < overflow) (t : Sign) :
    (f.lt (.infinity t) = true ↔ position f < position (.infinity t)) ∧
      (UnpackedFloat.lt (.infinity t) f = true ↔ position (.infinity t) < position f) := by
  obtain ⟨hlow, hhigh⟩ := h.between hv
  rw [h.position_eq]
  have hsides : (f.lt (.infinity .positive) = true ∧ f.lt (.infinity .negative) = false) ∧
      UnpackedFloat.lt (.infinity .positive) f = false ∧
      UnpackedFloat.lt (.infinity .negative) f = true := by
    cases h with
    | zero => exact ⟨⟨rfl, rfl⟩, rfl, rfl⟩
    | finite => exact ⟨⟨by cases sign <;> rfl, by cases sign <;> rfl⟩, rfl, rfl⟩
  obtain ⟨⟨habove, hbelow⟩, habove', hbelow'⟩ := hsides
  cases t with
  | negative =>
      rw [position_negativeInfinity, hbelow, hbelow']
      exact ⟨iff_of_false Bool.false_ne_true hlow.le.not_gt, iff_of_true rfl hlow⟩
  | positive =>
      rw [position_positiveInfinity, habove, habove']
      exact ⟨iff_of_true rfl hhigh, iff_of_false Bool.false_ne_true hhigh.le.not_gt⟩

/-- **The order of floats** is that of their positions. -/
theorem lt_iff_position (hf : Unpacked f) (hg : Unpacked g) (hf' : f ≠ .notANumber)
    (hg' : g ≠ .notANumber) : f.lt g = true ↔ position f < position g := by
  cases hf with
  | notANumber => exact absurd rfl hf'
  | infinity s =>
      cases hg with
      | notANumber => exact absurd rfl hg'
      | infinity t =>
          have hpos := overflow_pos
          cases s <;> cases t
          · exact iff_of_false Bool.false_ne_true (lt_irrefl _)
          · rw [position_negativeInfinity, position_positiveInfinity]
            exact iff_of_true rfl (by linarith)
          · rw [position_negativeInfinity, position_positiveInfinity]
            exact iff_of_false Bool.false_ne_true (by linarith)
          · exact iff_of_false Bool.false_ne_true (lt_irrefl _)
      | number h hv => exact (lt_infinity_iff h hv s).2
  | number h hv =>
      cases hg with
      | notANumber => exact absurd rfl hg'
      | infinity t => exact (lt_infinity_iff h hv t).1
      | number h' hv' =>
          rw [lt_iff_of_stands h h', h.position_eq, h'.position_eq]

end TraceTimeline.Number
