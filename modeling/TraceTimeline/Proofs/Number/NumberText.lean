import TraceTimeline.Number.Integer
import TraceTimeline.Number.Reading
import TraceTimeline.Proofs.Number.Digits
import TraceTimeline.Proofs.Text.Words

/-!
# Texts of numbers

Digits are read from the left, and nothing but digits is read as digits. A text that is read as a
finite float consists of digits, signs, points and marks of exponents: it has no blank in it, and
none of the letters and commas of the marks of a trace.
-/

namespace TraceTimeline.Number

theorem digit?_of_isDigit {c : Char} (h : c.isDigit = true) :
    digit? c = some (c.toNat - '0'.toNat) :=
  if_pos (by simpa [Char.isDigit, Char.le_def] using h)

theorem isDigit_of_digit? {c : Char} {d : Nat} (h : digit? c = some d) : c.isDigit = true := by
  unfold digit? at h
  split at h
  · rename_i hc
    simpa [Char.isDigit, Char.le_def] using hc
  · cases h

/-- Digits are put together from the left, and nothing but digits is. -/
theorem foldlM_digit?_eq_some_iff {append : Nat → Nat → Nat} {s : List Char} {value n : Nat} :
    s.foldlM (fun value c => (digit? c).map (append value)) value = some n ↔
      (∀ c ∈ s, c.isDigit = true) ∧
        s.foldl (fun value c => append value (c.toNat - '0'.toNat)) value = n := by
  induction s generalizing value with
  | nil => simp
  | cons c s ih =>
      rw [List.foldlM_cons, List.forall_mem_cons, List.foldl_cons]
      by_cases hc : c.isDigit = true
      · rw [digit?_of_isDigit hc, and_iff_right hc]
        exact ih
      · have hnone : digit? c = none :=
          Option.eq_none_iff_forall_ne_some.mpr fun _ hd => hc (isDigit_of_digit? hd)
        rw [hnone]
        exact iff_of_false nofun fun h => hc h.1.1

/-! ## The characters of numbers -/

def IsNumberChar (c : Char) : Prop :=
  c.isDigit = true ∨ c ∈ ['+', '-', '.', 'e', 'E']

theorem IsNumberChar.not_isBlank {c : Char} (h : IsNumberChar c) : Text.isBlank c = false := by
  rcases h with h | h
  · simp only [Char.isDigit, Bool.and_eq_true, decide_eq_true_eq, ge_iff_le, UInt32.le_iff_toNat_le] at h
    exact Text.isBlank_of_visible (Nat.lt_of_lt_of_le (by decide) h.1)
      (Nat.lt_of_le_of_lt h.2 (by decide))
  · simp only [List.mem_cons, List.not_mem_nil, or_false] at h
    rcases h with rfl | rfl | rfl | rfl | rfl <;> rfl

theorem isDigit_of_digits? {s : List Char} {n : Nat} (h : digits? s = some n) :
    ∀ c ∈ s, c.isDigit = true := by
  unfold digits? at h
  split at h
  · cases h
  · exact (foldlM_digit?_eq_some_iff.mp h).1

theorem isDigit_of_exponentDigits? {s : List Char} {n : Nat} (h : exponentDigits? s = some n) :
    ∀ c ∈ s, c.isDigit = true := by
  unfold exponentDigits? at h
  split at h
  · cases h
  · exact (@foldlM_digit?_eq_some_iff (fun value d =>
      if value < exponentBound then value * 10 + d else value) _ _ _).mp h |>.1

theorem isNumberChar_of_exponent? {s : List Char} {exponent : Int} (h : exponent? s = some exponent) :
    ∀ c ∈ s, IsNumberChar c := by
  have hdigits : ∀ {r : List Char} {n : Nat}, exponentDigits? r = some n → ∀ c ∈ r, IsNumberChar c :=
    fun hr c hc => Or.inl (isDigit_of_exponentDigits? hr c hc)
  cases s with
  | nil => exact fun _ hc => absurd hc List.not_mem_nil
  | cons mark s =>
      unfold exponent? at h
      dsimp only at h
      split at h
      · rename_i hmark
        refine List.forall_mem_cons.mpr ⟨Or.inr ?_, ?_⟩
        · rcases hmark with rfl | rfl <;> decide
        · split at h
          · obtain ⟨n, hn, -⟩ := Option.map_eq_some_iff.mp h
            exact List.forall_mem_cons.mpr ⟨Or.inr (by decide), hdigits hn⟩
          · obtain ⟨n, hn, -⟩ := Option.map_eq_some_iff.mp h
            exact List.forall_mem_cons.mpr ⟨Or.inr (by decide), hdigits hn⟩
          · obtain ⟨n, hn, -⟩ := Option.map_eq_some_iff.mp h
            exact hdigits hn
      · cases h

theorem isNumberChar_of_parts {whole fraction rest : List Char} {digits : Nat} {exponent : Int}
    (hdigits : digits? (whole ++ fraction) = some digits) (hrest : exponent? rest = some exponent) :
    (∀ c ∈ whole, IsNumberChar c) ∧ (∀ c ∈ fraction, IsNumberChar c) ∧
      ∀ c ∈ rest, IsNumberChar c := by
  obtain ⟨hwhole, hfraction⟩ := List.forall_mem_append.mp (isDigit_of_digits? hdigits)
  exact ⟨fun c hc => Or.inl (hwhole c hc), fun c hc => Or.inl (hfraction c hc),
    isNumberChar_of_exponent? hrest⟩

theorem isNumberChar_of_unsigned? {s : List Char} {x : Float} (h : unsigned? s = some x) :
    ∀ c ∈ s, IsNumberChar c := by
  rw [← List.takeWhile_append_dropWhile (p := Char.isDigit) (l := s), List.forall_mem_append]
  unfold unsigned? at h
  dsimp only at h
  generalize s.dropWhile Char.isDigit = back at h ⊢
  split at h
  · rename_i digits exponent hdigits hrest
    revert hdigits hrest
    split
    · rename_i r
      intro hdigits hrest
      obtain ⟨hwhole, hfraction, hrest⟩ := isNumberChar_of_parts hdigits hrest
      refine ⟨hwhole, List.forall_mem_cons.mpr ⟨Or.inr (by decide), ?_⟩⟩
      rw [← List.takeWhile_append_dropWhile (p := Char.isDigit) (l := r), List.forall_mem_append]
      exact ⟨hfraction, hrest⟩
    · intro hdigits hrest
      obtain ⟨hwhole, -, hrest⟩ := isNumberChar_of_parts hdigits hrest
      exact ⟨hwhole, hrest⟩
  · cases h

/-- The names stand for floats that are not finite, with either sign. -/
theorem isFinite_of_named? {s : List Char} {x : Float} (h : named? s = some x) :
    x.isFinite = false ∧ (-x).isFinite = false := by
  unfold named? at h
  dsimp only at h
  split at h
  · obtain rfl := Option.some.inj h
    exact ⟨by decide +kernel, by decide +kernel⟩
  · split at h
    · obtain rfl := Option.some.inj h
      exact ⟨by decide +kernel, by decide +kernel⟩
    · cases h

theorem isNumberChar_of_float? {s : String} {x : Float} (h : float? s = some x)
    (hx : x.isFinite = true) : ∀ c ∈ s.toList, IsNumberChar c := by
  have hread : ∀ {r : List Char} {y : Float}, (named? r).or (unsigned? r) = some y →
      (y.isFinite = true ∨ (-y).isFinite = true) → ∀ c ∈ r, IsNumberChar c := by
    intro r y hr hy
    rcases Option.or_eq_some_iff.mp hr with hnamed | ⟨-, hunsigned⟩
    · obtain ⟨hpositive, hnegative⟩ := isFinite_of_named? hnamed
      rw [hpositive, hnegative] at hy
      exact absurd hy (by decide)
    · exact isNumberChar_of_unsigned? hunsigned
  unfold float? at h
  dsimp only at h
  split at h
  · rename_i r hs
    rw [hs]
    exact List.forall_mem_cons.mpr ⟨Or.inr (by decide), hread h (Or.inl hx)⟩
  · rename_i r hs
    obtain ⟨y, hy, rfl⟩ := Option.map_eq_some_iff.mp h
    rw [hs]
    exact List.forall_mem_cons.mpr ⟨Or.inr (by decide), hread hy (Or.inr hx)⟩
  · exact hread h (Or.inl hx)

structure IsNumberWord (w : List Char) : Prop where
  ne_nil : w ≠ []
  isNumberChar : ∀ c ∈ w, IsNumberChar c

theorem IsNumberWord.isWord {w : List Char} (h : IsNumberWord w) : Text.IsWord w :=
  ⟨h.ne_nil, fun c hc => (h.isNumberChar c hc).not_isBlank⟩

theorem isNumberWord_naturalText (n : Nat) : IsNumberWord (naturalText n) :=
  ⟨naturalText_ne_nil n, fun _ hc => Or.inl (isDigit_of_mem_naturalText hc)⟩

/-- **A text that is read as a finite float has only the characters of numbers.** -/
theorem isNumberWord_of_float? {s : String} {x : Float} (h : float? s = some x)
    (hx : x.isFinite = true) : IsNumberWord s.toList := by
  refine ⟨fun hs => ?_, isNumberChar_of_float? h hx⟩
  unfold float? at h
  rw [hs] at h
  cases h

end TraceTimeline.Number
