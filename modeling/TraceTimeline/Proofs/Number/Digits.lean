import TraceTimeline.Number.Positional

/-!
# Digits of a decimal

A natural number is written without leading zeros, and the decimal that is written for a positive
float is positive. So no text of a number starts with a zero that could be left out.
-/

namespace TraceTimeline.Number

/-- What `p` takes from the front, where `p` holds up to some place and not right behind it. -/
theorem takeWhile_append_of_head? {α : Type} {p : α → Bool} {s t : List α}
    (hs : ∀ a ∈ s, p a = true) (ht : ∀ a ∈ t.head?, p a = false) :
    (s ++ t).takeWhile p = s ∧ (s ++ t).dropWhile p = t := by
  rw [List.takeWhile_append_of_pos hs, List.dropWhile_append_of_pos hs]
  cases t with
  | nil => exact ⟨List.append_nil s, rfl⟩
  | cons a t =>
      have ha : ¬ p a = true := Bool.eq_false_iff.mp (ht a rfl)
      rw [List.takeWhile_cons_of_neg ha, List.dropWhile_cons_of_neg ha]
      exact ⟨List.append_nil s, rfl⟩

theorem isDigit_of_mem_naturalText {n : Nat} {c : Char} (h : c ∈ naturalText n) :
    c.isDigit = true :=
  Nat.isDigit_of_mem_toDigits (by decide) (by decide) h

theorem naturalText_ne_nil (n : Nat) : naturalText n ≠ [] :=
  Nat.toDigits_ne_nil

/-- The digits of a number, read from the left, come to that number. -/
theorem foldl_naturalText (n : Nat) :
    (naturalText n).foldl (fun value c => value * 10 + (c.toNat - '0'.toNat)) 0 = n := by
  have h : Nat.ofDigitChars 10 (Nat.toDigits 10 n) 0 = n := Nat.ofDigitChars_ten_toDigits
  rw [Nat.ofDigitChars_eq_foldl] at h
  rw [naturalText]
  simpa only [Nat.mul_comm] using h

/-- A positive number does not start with a zero. -/
theorem head?_naturalText {n : Nat} (h : 0 < n) : (naturalText n).head? ≠ some '0' := by
  unfold naturalText
  -- A digit behind a positive number leaves its first digit as it is.
  induction n using Nat.base_induction 10 (by decide) with
  | single m hm =>
      rw [Nat.toDigits_of_lt_base hm, List.head?_cons]
      exact fun h0 => Nat.ne_of_gt h (Nat.digitChar_eq_zero.mp (Option.some.inj h0))
  | digit m k hk hm ih =>
      have hsome : (Nat.toDigits 10 m).head?.isSome := List.isSome_head?.mpr Nat.toDigits_ne_nil
      rw [← Nat.toDigits_append_toDigits (by decide) hm hk, List.head?_append,
        Option.or_of_isSome hsome]
      exact ih hm

/-! ## The shortest decimal -/

namespace Decimal

variable {tie : Tie} {significand : Nat} {exponent : Int}

theorem roundDiv_eq_or (numerator denominator : Nat) (tie : Tie) :
    roundDiv numerator denominator tie = numerator / denominator ∨
      roundDiv numerator denominator tie = numerator / denominator + 1 := by
  unfold roundDiv
  grind

/-- A point of a grid that stands for a positive float is positive. -/
theorem digits_pos_of_onGrid? (hpos : 0 < significand) {place : Int} {decimal : Decimal}
    (h : onGrid? tie significand exponent place = some decimal) : 0 < decimal.digits := by
  have hmargin : marginBelow significand exponent ≤ 2 := by
    unfold marginBelow
    split <;> decide
  unfold onGrid? at h
  extract_lets quarter scale unit value least greatest inside low nearest at h
  have hscale : 0 < scale :=
    Nat.mul_pos (Nat.pow_pos (by decide)) (Nat.pow_pos (by decide))
  have hleast : 0 < least := Nat.mul_pos (by omega) hscale
  -- The interval of a positive float lies above zero.
  have hinside : ∀ n, inside n = true → 0 < n := by
    intro n hn
    have hle : least ≤ n * unit := by
      simp only [inside] at hn
      split at hn
      · exact of_decide_eq_true (Bool.and_eq_true_iff.mp hn).1
      · exact Nat.le_of_lt (of_decide_eq_true (Bool.and_eq_true_iff.mp hn).1)
    exact Nat.pos_of_mul_pos_right (Nat.lt_of_lt_of_le hleast hle)
  split at h
  · rename_i hboth
    obtain rfl := Option.some.inj h
    have hlow := hinside low (Bool.and_eq_true_iff.mp hboth).1
    have hnearest : nearest = low ∨ nearest = low + 1 := roundDiv_eq_or value unit tie
    show 0 < nearest
    omega
  · split at h
    · rename_i hlow
      obtain rfl := Option.some.inj h
      exact hinside low hlow
    · split at h
      · obtain rfl := Option.some.inj h
        exact Nat.succ_pos low
      · cases h

theorem digits_search_pos (hpos : 0 < significand) (grids : Nat) (place : Int) :
    0 < (search tie significand exponent grids place).digits := by
  induction grids generalizing place with
  | zero =>
      rw [search, exact]
      split
      · exact Nat.mul_pos hpos (Nat.pow_pos (by decide))
      · exact Nat.mul_pos hpos (Nat.pow_pos (by decide))
  | succ grids ih =>
      rw [search]
      split
      · rename_i decimal h
        exact digits_pos_of_onGrid? hpos h
      · exact ih (place - 1)

/-- **The shortest decimal of a positive float is positive.** -/
theorem digits_shortest_pos (hpos : 0 < significand) :
    0 < (shortest tie significand exponent).digits :=
  digits_search_pos hpos grids (placeAbove significand exponent)

end Decimal
end TraceTimeline.Number
