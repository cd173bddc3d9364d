import TraceTimeline.Proofs.Json.Spelling
import TraceTimeline.Proofs.Number.Digits
import TraceTimeline.Proofs.Number.Magnitude

/-!
# Written numbers

`NumeralText s numeral` is the grammar of numbers: the characters `s` stand for `numeral`. Main
statements: a written number is read as what it stands for, if the input behind it cannot extend it;
natural numbers and finite floats are written by the grammar.
-/

namespace TraceTimeline.Json

open Reader Numeral

structure IsDigits (s : List Char) : Prop where
  ne_nil : s ≠ []
  isDigit : ∀ c ∈ s, c.isDigit = true

theorem isDigits_zero : IsDigits ['0'] where
  ne_nil := List.cons_ne_nil '0' []
  isDigit := by
    intro c hc
    obtain rfl := List.mem_singleton.mp hc
    rfl

def digitValues (s : List Char) : List Nat :=
  s.map fun c => c.toNat - '0'.toNat

/-- The digits in front of the point. A zero stands there alone. -/
structure IsWhole (s : List Char) : Prop extends IsDigits s where
  zero_alone : s.head? = some '0' → s = ['0']

inductive FractionText : List Char → Option (List Nat) → Prop
  | none : FractionText [] none
  | some {s : List Char} : IsDigits s → FractionText ('.' :: s) (some (digitValues s))

inductive PowerText : List Char → Option Int → Prop
  | none : PowerText [] none
  | unsigned {mark : Char} {s : List Char} : mark = 'e' ∨ mark = 'E' → IsDigits s →
      PowerText (mark :: s) (some (digitsValue (digitValues s)))
  | positive {mark : Char} {s : List Char} : mark = 'e' ∨ mark = 'E' → IsDigits s →
      PowerText (mark :: '+' :: s) (some (digitsValue (digitValues s)))
  | negative {mark : Char} {s : List Char} : mark = 'e' ∨ mark = 'E' → IsDigits s →
      PowerText (mark :: '-' :: s) (some (-(digitsValue (digitValues s) : Int)))

inductive NumeralText : List Char → Numeral → Prop
  | mk {whole fraction power : List Char} {places : Option (List Nat)} {exponent : Option Int}
      (negative : Bool) : IsWhole whole → FractionText fraction places → PowerText power exponent →
      NumeralText (Number.signed negative (whole ++ (fraction ++ power)))
        ⟨negative, digitValues whole, places, exponent⟩

/-! ## Reading -/

def extendsNumber (b : UInt8) : Bool :=
  isDigit b || b == ascii '.' || b == ascii 'e' || b == ascii 'E'

def Ends (rest : Bytes) : Prop :=
  ∀ b ∈ rest.head?, extendsNumber b = false

theorem ends_nil : Ends [] := by
  rintro _ ⟨⟩

def EndsDigits (rest : Bytes) : Prop :=
  ∀ b ∈ rest.head?, isDigit b = false

theorem Ends.endsDigits {rest : Bytes} (h : Ends rest) : EndsDigits rest := by
  intro b hb
  have hextends := h b hb
  simp only [extendsNumber, Bool.or_eq_false_iff] at hextends
  exact hextends.1.1.1

theorem toNat_of_isDigit {c : Char} (h : c.isDigit = true) : 48 ≤ c.toNat ∧ c.toNat ≤ 57 := by
  simp only [Char.isDigit, Bool.and_eq_true, decide_eq_true_eq] at h
  exact ⟨UInt32.le_iff_toNat_le.mp h.1, UInt32.le_iff_toNat_le.mp h.2⟩

theorem isDigit_ascii {c : Char} (h : c.isDigit = true) : isDigit (ascii c) = true := by
  have hrange := toNat_of_isDigit h
  have hnat : (ascii c).toNat = c.toNat := toNat_ascii (by omega)
  simp only [isDigit, Bool.and_eq_true, decide_eq_true_eq, UInt8.le_iff_toNat_le, hnat]
  exact hrange

theorem value_ascii {c : Char} (h : c.isDigit = true) :
    (ascii c - 0x30).toNat = c.toNat - '0'.toNat := by
  have hrange := toNat_of_isDigit h
  have hnat : (ascii c).toNat = c.toNat := toNat_ascii (by omega)
  have hle : (0x30 : UInt8) ≤ ascii c := by
    rw [UInt8.le_iff_toNat_le, hnat]
    exact hrange.1
  rw [UInt8.toNat_sub_of_le _ _ hle, hnat]
  rfl

theorem run_digits {s : List Char} (hs : ∀ c ∈ s, c.isDigit = true) {rest : Bytes}
    (hrest : EndsDigits rest) :
    digits.run (s.map ascii ++ rest) = .ok (digitValues s, rest) := by
  have hall : ∀ b ∈ s.map ascii, isDigit b = true := by
    intro b hb
    obtain ⟨c, hc, rfl⟩ := List.mem_map.mp hb
    exact isDigit_ascii (hs c hc)
  obtain ⟨htake, hdrop⟩ := Number.takeWhile_append_of_head? hall hrest
  unfold digits
  rw [run_bind, run_takeWhile, htake, hdrop]
  simp only [run_pure, digitValues, List.map_map]
  have hvalues : s.map ((fun b : UInt8 => (b - 0x30).toNat) ∘ ascii) =
      s.map fun c => c.toNat - '0'.toNat :=
    List.map_congr_left fun c hc => value_ascii (hs c hc)
  rw [hvalues]

theorem run_someDigits {s : List Char} (hs : IsDigits s) {rest : Bytes} (hrest : EndsDigits rest)
    (atEnd : Fault) :
    (someDigits atEnd).run (s.map ascii ++ rest) = .ok (digitValues s, rest) := by
  have hne : (digitValues s).isEmpty = false := by
    rw [List.isEmpty_eq_false_iff, digitValues, ne_eq, List.map_eq_nil_iff]
    exact hs.ne_nil
  unfold someDigits
  simp only [run_bind, run_digits hs.isDigit hrest, hne, Bool.false_eq_true, if_false, run_pure]

theorem run_wholePart {s : List Char} (hs : IsWhole s) {rest : Bytes} (hrest : EndsDigits rest)
    (atEnd : Fault) :
    (wholePart atEnd).run (s.map ascii ++ rest) = .ok (digitValues s, rest) := by
  unfold wholePart
  -- A leading zero is a number of its own, for which the reader looks one byte ahead. Any other
  -- digit starts a run of digits.
  by_cases hzero : s.head? = some '0'
  · obtain rfl := hs.zero_alone hzero
    have hany : rest.head?.any isDigit = false := by
      cases rest with
      | nil => rfl
      | cons b rest => exact hrest b rfl
    show (peek >>= _).run (ascii '0' :: rest) = _
    simp only [run_bind, run_peek, List.head?_cons, if_true, run_drop, List.tail_cons, hany,
      Bool.false_eq_true, if_false, run_pure]
    rfl
  · have hhead : ¬ (s.map ascii ++ rest).head? = some (ascii '0') := by
      obtain ⟨c, s, rfl⟩ := List.exists_cons_of_ne_nil hs.ne_nil
      intro h
      have hc := toNat_of_isDigit (hs.isDigit c List.mem_cons_self)
      have hascii : ascii c = ascii '0' := Option.some.inj h
      exact hzero (congrArg some (ascii_inj (by omega) (by decide) hascii))
    simp only [run_bind, run_peek, if_neg hhead]
    exact run_someDigits hs.toIsDigits hrest atEnd

theorem run_fractionPart {s : List Char} {places : Option (List Nat)} (hs : FractionText s places)
    {rest : Bytes} (hrest : EndsDigits rest) (hpoint : rest.head? ≠ some (ascii '.'))
    (atEnd : Fault) :
    (fractionPart atEnd).run (s.map ascii ++ rest) = .ok (places, rest) := by
  unfold fractionPart
  cases hs with
  | none =>
      show (peek >>= _).run rest = _
      simp only [run_bind, run_peek, if_neg hpoint, run_pure]
  | some hs =>
      show (peek >>= _).run (ascii '.' :: (_ ++ rest)) = _
      simp only [run_bind, run_peek, List.head?_cons, if_true, run_drop, List.tail_cons,
        run_someDigits hs hrest, run_pure]

/-- Digits begin with a digit. -/
theorem IsDigits.head?_ne {s : List Char} (hs : IsDigits s) {b : UInt8}
    (hb : Json.isDigit b = false) (rest : Bytes) : (s.map ascii ++ rest).head? ≠ some b := by
  obtain ⟨c, s, rfl⟩ := List.exists_cons_of_ne_nil hs.ne_nil
  intro h
  obtain rfl : ascii c = b := Option.some.inj h
  rw [isDigit_ascii (hs.isDigit c List.mem_cons_self)] at hb
  cases hb

theorem run_exponentPart {s : List Char} {exponent : Option Int} (hs : PowerText s exponent)
    {rest : Bytes} (hrest : Ends rest) (atEnd : Fault) :
    (exponentPart atEnd).run (s.map ascii ++ rest) = .ok (exponent, rest) := by
  have hmarked : ∀ {mark : Char}, mark = 'e' ∨ mark = 'E' →
      some (ascii mark) = some (ascii 'e') ∨ some (ascii mark) = some (ascii 'E') := by
    rintro _ (rfl | rfl)
    · exact .inl rfl
    · exact .inr rfl
  unfold exponentPart
  cases hs with
  | none =>
      have hmark : ¬ (rest.head? = some (ascii 'e') ∨ rest.head? = some (ascii 'E')) := by
        rintro (h | h)
        · exact absurd (hrest _ h) (by decide)
        · exact absurd (hrest _ h) (by decide)
      show (peek >>= _).run rest = _
      simp only [run_bind, run_peek, if_neg hmark, run_pure]
  | @unsigned mark s hmark hs =>
      have hplus := hs.head?_ne (b := ascii '+') (by decide) rest
      have hminus := hs.head?_ne (b := ascii '-') (by decide) rest
      show (peek >>= _).run (ascii mark :: (s.map ascii ++ rest)) = _
      simp only [run_bind, run_peek, List.head?_cons, if_pos (hmarked hmark), run_drop,
        List.tail_cons, hplus, hminus, or_self, if_false, run_pure,
        run_someDigits hs hrest.endsDigits]
  | @positive mark s hmark hs =>
      have hminus : ¬ some (ascii '+') = some (ascii '-') := by decide
      show (peek >>= _).run (ascii mark :: ascii '+' :: (s.map ascii ++ rest)) = _
      simp only [run_bind, run_peek, List.head?_cons, if_pos (hmarked hmark), true_or, if_true,
        run_drop, List.tail_cons, run_someDigits hs hrest.endsDigits, if_neg hminus, run_pure]
  | @negative mark s hmark hs =>
      show (peek >>= _).run (ascii mark :: ascii '-' :: (s.map ascii ++ rest)) = _
      simp only [run_bind, run_peek, List.head?_cons, if_pos (hmarked hmark), or_true, if_true,
        run_drop, List.tail_cons, run_someDigits hs hrest.endsDigits, run_pure]

theorem Ends.head?_ne_point {rest : Bytes} (h : Ends rest) : rest.head? ≠ some (ascii '.') :=
  fun hpoint => absurd (h _ hpoint) (by decide)

theorem endsDigits_exponentMark {mark : Char} (hmark : mark = 'e' ∨ mark = 'E') (rest : Bytes) :
    EndsDigits (ascii mark :: rest) ∧ (ascii mark :: rest).head? ≠ some (ascii '.') := by
  constructor
  · intro b hb
    obtain rfl := Option.some.inj hb
    rcases hmark with rfl | rfl <;> decide
  · intro h
    rcases hmark with rfl | rfl <;> exact absurd (Option.some.inj h) (by decide)

/-- Behind the digits of a fraction stands no further digit, and no second point. -/
theorem PowerText.ends {s : List Char} {exponent : Option Int} (hs : PowerText s exponent)
    {rest : Bytes} (hrest : Ends rest) :
    EndsDigits (s.map ascii ++ rest) ∧ (s.map ascii ++ rest).head? ≠ some (ascii '.') := by
  cases hs with
  | none => exact ⟨hrest.endsDigits, hrest.head?_ne_point⟩
  | unsigned hmark => exact endsDigits_exponentMark hmark _
  | positive hmark => exact endsDigits_exponentMark hmark _
  | negative hmark => exact endsDigits_exponentMark hmark _

theorem FractionText.ends {s : List Char} {places : Option (List Nat)} (hs : FractionText s places)
    {rest : Bytes} (hrest : EndsDigits rest) : EndsDigits (s.map ascii ++ rest) := by
  cases hs with
  | none => exact hrest
  | some => exact fun b hb => by cases hb; decide

theorem signed_append (negative : Bool) (s more : List Char) :
    Number.signed negative (s ++ more) = Number.signed negative s ++ more := by
  cases negative <;> rfl

/-- The sign and the whole part come first. -/
theorem run_read_whole {whole : List Char} (hwhole : IsWhole whole) (negative : Bool) {rest : Bytes}
    (hrest : EndsDigits rest) (atEnd : Fault) :
    (Numeral.read atEnd).run ((Number.signed negative whole).map ascii ++ rest) =
      (do
        let fraction ← fractionPart atEnd
        let exponent ← exponentPart atEnd
        return { negative, whole := digitValues whole, fraction, exponent } :
          Reader Numeral).run rest := by
  have hw := run_wholePart hwhole hrest atEnd
  unfold Numeral.read
  cases negative with
  | true =>
      show (peek >>= _).run (ascii '-' :: (whole.map ascii ++ rest)) = _
      simp only [run_bind, run_peek, List.head?_cons, decide_true, if_true, run_drop,
        List.tail_cons, hw]
  | false =>
      have hsign := hwhole.head?_ne (b := ascii '-') (by decide) rest
      show (peek >>= _).run (whole.map ascii ++ rest) = _
      simp only [run_bind, run_peek, hsign, decide_false, if_false, run_pure, hw]

/-- **A written number is read as what it stands for.** -/
theorem run_read {s : List Char} {numeral : Numeral} (hs : NumeralText s numeral) {rest : Bytes}
    (hrest : Ends rest) (atEnd : Fault) :
    (Numeral.read atEnd).run (s.map ascii ++ rest) = .ok (numeral, rest) := by
  obtain ⟨negative, hwhole, hfraction, hpower⟩ := hs
  obtain ⟨hdigits, hpoint⟩ := hpower.ends hrest
  rw [signed_append, List.map_append, List.map_append, List.append_assoc, List.append_assoc,
    run_read_whole hwhole negative (hfraction.ends hdigits)]
  simp only [run_bind, run_fractionPart hfraction hdigits hpoint, run_exponentPart hpower hrest,
    run_pure]

/-- The characters of a number stand for one number only. -/
theorem NumeralText.unique {s : List Char} {numeral numeral' : Numeral}
    (h : NumeralText s numeral) (h' : NumeralText s numeral') : numeral = numeral' := by
  have hread := run_read h ends_nil .truncated
  rw [run_read h' ends_nil] at hread
  exact (congrArg Prod.fst (Except.ok.inj hread)).symm

/-! ## The characters of written numbers -/

def isNumeralChar (c : Char) : Bool :=
  c.isDigit || c ∈ ['-', '+', '.', 'e', 'E']

theorem toNat_of_isNumeralChar {c : Char} (h : isNumeralChar c = true) :
    43 ≤ c.toNat ∧ c.toNat < 128 := by
  rcases Bool.or_eq_true_iff.mp h with h | h
  · have := toNat_of_isDigit h
    omega
  · simp only [decide_eq_true_eq, List.mem_cons, List.not_mem_nil, or_false] at h
    rcases h with rfl | rfl | rfl | rfl | rfl <;> decide

theorem IsDigits.isNumeralChar {s : List Char} (hs : IsDigits s) :
    ∀ c ∈ s, isNumeralChar c = true := fun c hc => by
  rw [Json.isNumeralChar, hs.isDigit c hc]
  rfl

theorem FractionText.isNumeralChar {s : List Char} {places : Option (List Nat)}
    (hs : FractionText s places) : ∀ c ∈ s, isNumeralChar c = true := by
  cases hs with
  | none => exact fun c hc => absurd hc List.not_mem_nil
  | some hs => exact List.forall_mem_cons.mpr ⟨rfl, hs.isNumeralChar⟩

theorem PowerText.isNumeralChar {s : List Char} {exponent : Option Int}
    (hs : PowerText s exponent) : ∀ c ∈ s, isNumeralChar c = true := by
  have hmarked : ∀ {mark : Char}, mark = 'e' ∨ mark = 'E' → Json.isNumeralChar mark = true := by
    rintro _ (rfl | rfl) <;> rfl
  cases hs with
  | none => exact fun c hc => absurd hc List.not_mem_nil
  | unsigned hmark hs => exact List.forall_mem_cons.mpr ⟨hmarked hmark, hs.isNumeralChar⟩
  | positive hmark hs =>
      exact List.forall_mem_cons.mpr
        ⟨hmarked hmark, List.forall_mem_cons.mpr ⟨rfl, hs.isNumeralChar⟩⟩
  | negative hmark hs =>
      exact List.forall_mem_cons.mpr
        ⟨hmarked hmark, List.forall_mem_cons.mpr ⟨rfl, hs.isNumeralChar⟩⟩

theorem NumeralText.isNumeralChar {s : List Char} {numeral : Numeral} (hs : NumeralText s numeral) :
    ∀ c ∈ s, isNumeralChar c = true := by
  obtain ⟨negative, hwhole, hfraction, hpower⟩ := hs
  have hparts := List.forall_mem_append.mpr
    ⟨hwhole.isNumeralChar,
      List.forall_mem_append.mpr ⟨hfraction.isNumeralChar, hpower.isNumeralChar⟩⟩
  cases negative with
  | true => exact List.forall_mem_cons.mpr ⟨rfl, hparts⟩
  | false => exact hparts

theorem NumeralText.ne_nil {s : List Char} {numeral : Numeral} (hs : NumeralText s numeral) :
    s ≠ [] := by
  obtain ⟨negative, hwhole, -, -⟩ := hs
  cases negative with
  | true => exact List.cons_ne_nil _ _
  | false => exact List.append_ne_nil_of_left_ne_nil hwhole.ne_nil _

theorem NumeralText.lt {s : List Char} {numeral : Numeral} (hs : NumeralText s numeral) :
    ∀ c ∈ s, c.toNat < 128 :=
  fun c hc => (toNat_of_isNumeralChar (hs.isNumeralChar c hc)).2

/-! ## Natural numbers -/

theorem isWhole_naturalText (n : Nat) : IsWhole (Number.naturalText n) where
  ne_nil := Number.naturalText_ne_nil n
  isDigit _ := Number.isDigit_of_mem_naturalText
  zero_alone h := by
    rcases Nat.eq_zero_or_pos n with rfl | hpos
    · rfl
    · exact absurd h (Number.head?_naturalText hpos)

theorem IsWhole.numeralText {s : List Char} (hs : IsWhole s) :
    NumeralText s ⟨false, digitValues s, none, none⟩ := by
  have h := NumeralText.mk false hs .none .none
  rwa [List.append_nil, List.append_nil] at h

theorem numeralText_naturalText (n : Nat) :
    NumeralText (Number.naturalText n) ⟨false, digitValues (Number.naturalText n), none, none⟩ :=
  (isWhole_naturalText n).numeralText

theorem le_foldl_digits (ds : List Nat) (n : Nat) :
    n ≤ ds.foldl (fun value d => value * 10 + d) n := by
  induction ds generalizing n with
  | nil => exact Nat.le_refl n
  | cons d ds ih => exact Nat.le_trans (by omega) (ih (n * 10 + d))

/-- Digits whose number fits the significand are all gathered. -/
theorem gather_eq_foldl {ds : List Nat} {n : Nat}
    (h : ds.foldl (fun value d => value * 10 + d) n < significandLimit) :
    gather n ds = (ds.foldl (fun value d => value * 10 + d) n, []) := by
  -- More digits only make the number greater, so each step stays below the limit if the last does.
  induction ds generalizing n with
  | nil => rfl
  | cons d ds ih =>
      rw [List.foldl_cons] at h ⊢
      rw [gather, if_pos (Nat.lt_of_le_of_lt (le_foldl_digits ds _) h), ih h]

theorem digitsValue_naturalText (n : Nat) :
    digitsValue (digitValues (Number.naturalText n)) = n := by
  rw [digitsValue, digitValues, List.foldl_map]
  exact Number.foldl_naturalText n

/-- A number of 64 bits has a value as a float. -/
theorem exists_float?_whole {ds : List Nat} (h : digitsValue ds < significandLimit) :
    ∃ x, float? ⟨false, ds, none, none⟩ = some x := by
  obtain ⟨x, hx⟩ :=
    Number.exists_scale_toFloat (digitsValue ds).toUInt64 (by decide : (0 : Int) ≤ 30)
  refine ⟨x, ?_⟩
  unfold float?
  simp only [gather_eq_foldl h]
  show Option.map _ (scale (digitsValue ds).toUInt64.toFloat 0) = _
  rw [hx]
  rfl

theorem natural?_whole {ds : List Nat} (h : digitsValue ds < significandLimit) :
    natural? ⟨false, ds, none, none⟩ = some (digitsValue ds) := by
  simp only [natural?, gather_eq_foldl h]
  rfl

/-! ## Floats -/

theorem isWhole_of_head?_ne {s : List Char} (hs : IsDigits s) (h : s.head? ≠ some '0') :
    IsWhole s where
  toIsDigits := hs
  zero_alone h0 := absurd h0 h

theorem isDigits_naturalText (n : Nat) : IsDigits (Number.naturalText n) :=
  (isWhole_naturalText n).toIsDigits

theorem isDigits_of_zeros {s : List Char} (hne : s ≠ [])
    (h : ∀ c ∈ s, c = '0' ∨ c.isDigit = true) : IsDigits s where
  ne_nil := hne
  isDigit c hc := by
    rcases h c hc with rfl | hdigit
    · rfl
    · exact hdigit

def Numeral.Shows (numeral : Numeral) (decimal : Number.Decimal) : Prop :=
  digitsValue (numeral.whole ++ numeral.fraction.getD []) = decimal.digits ∧
    numeral.exponent.getD 0 - (numeral.fraction.getD []).length = decimal.exponent

theorem digitsValue_replicate_zero_append (k : Nat) (s : List Char) :
    digitsValue (digitValues (List.replicate k '0' ++ s)) = digitsValue (digitValues s) := by
  induction k with
  | zero => rfl
  | succ k ih => exact ih

theorem digitsValue_append_replicate_zero (s : List Char) (k : Nat) :
    digitsValue (digitValues (s ++ List.replicate k '0')) =
      digitsValue (digitValues s) * Nat.pow 10 k := by
  induction k with
  | zero =>
      rw [List.replicate_zero, List.append_nil]
      exact (Nat.mul_one _).symm
  | succ k ih =>
      have hlast : digitsValue (digitValues (s ++ List.replicate k '0' ++ ['0'])) =
          digitsValue (digitValues (s ++ List.replicate k '0')) * 10 := by
        rw [digitsValue, digitValues, List.map_append, List.foldl_append]
        rfl
      rw [List.replicate_succ', ← List.append_assoc, hlast, ih, Nat.mul_assoc]
      rfl

/-- A whole number with zeros behind its digits. -/
theorem parts_of_nonneg {decimal : Number.Decimal} (hpos : 0 < decimal.digits)
    (h : 0 ≤ decimal.exponent) :
    ∃ whole, IsWhole whole ∧ decimal.parts = (whole, []) ∧
      digitsValue (digitValues whole) = decimal.digits * Nat.pow 10 decimal.exponent.toNat := by
  have htext := isDigits_naturalText decimal.digits
  refine ⟨Number.naturalText decimal.digits ++ List.replicate decimal.exponent.toNat '0', ?_, ?_,
    ?_⟩
  · refine isWhole_of_head?_ne (isDigits_of_zeros ?_ ?_) ?_
    · exact fun hnil => htext.ne_nil (List.append_eq_nil_iff.mp hnil).1
    · intro c hc
      rcases List.mem_append.mp hc with hc | hc
      · exact .inr (htext.isDigit c hc)
      · exact .inl (List.eq_of_mem_replicate hc)
    · rw [List.head?_append, Option.or_of_isSome (List.isSome_head?.mpr htext.ne_nil)]
      exact Number.head?_naturalText hpos
  · rw [Number.Decimal.parts, if_pos h]
  · rw [digitsValue_append_replicate_zero, digitsValue_naturalText]

/-- A number with a fraction: its digits are padded with zeros until one stands in front of the
point. -/
theorem parts_of_neg {decimal : Number.Decimal} (hpos : 0 < decimal.digits)
    (h : ¬ 0 ≤ decimal.exponent) :
    ∃ whole fraction, IsWhole whole ∧ IsDigits fraction ∧ decimal.parts = (whole, fraction) ∧
      digitsValue (digitValues (whole ++ fraction)) = decimal.digits ∧
      (fraction.length : Int) = -decimal.exponent := by
  have htext := isDigits_naturalText decimal.digits
  have hhead := Number.head?_naturalText hpos
  have hvalue := digitsValue_naturalText decimal.digits
  rw [Number.Decimal.parts, if_neg h]
  generalize Number.naturalText decimal.digits = text at htext hhead hvalue
  extract_lets places padded
  have hplaces : 0 < places := by omega
  have hlength : padded.length = (places + 1 - text.length) + text.length := by
    rw [← List.length_replicate (n := places + 1 - text.length) (a := '0'), ← List.length_append]
    rfl
  have hdigits : ∀ c ∈ padded, c = '0' ∨ c.isDigit = true := by
    intro c hc
    rcases List.mem_append.mp hc with hc | hc
    · exact .inl (List.eq_of_mem_replicate hc)
    · exact .inr (htext.isDigit c hc)
  have hwhole : (padded.take (padded.length - places)).length = padded.length - places :=
    List.length_take_of_le (by omega)
  have hfraction : (padded.drop (padded.length - places)).length = places := by
    rw [List.length_drop]
    omega
  refine ⟨_, _, ⟨isDigits_of_zeros ?_ ?_, ?_⟩, isDigits_of_zeros ?_ ?_, List.splitAt_eq, ?_, ?_⟩
  · exact List.ne_nil_of_length_pos (by omega)
  · exact fun c hc => hdigits c (List.mem_of_mem_take hc)
  · intro hzero
    -- Only a padded number starts with a zero, and of that just one digit stands before the point.
    have hshort : text.length ≤ places := by
      refine Nat.le_of_not_lt fun hlt => hhead ?_
      have hpadded : padded = text := by
        show List.replicate (places + 1 - text.length) '0' ++ text = text
        rw [Nat.sub_eq_zero_of_le hlt]
        rfl
      rw [hpadded, List.head?_take] at hzero
      split at hzero
      · cases hzero
      · exact hzero
    obtain ⟨c, hc⟩ := List.length_eq_one_iff.mp (hwhole.trans (by omega))
    rw [hc] at hzero ⊢
    rw [Option.some.inj hzero]
  · exact List.ne_nil_of_length_pos (by omega)
  · exact fun c hc => hdigits c (List.mem_of_mem_drop hc)
  · rw [List.take_append_drop, ← hvalue]
    exact digitsValue_replicate_zero_append (places + 1 - text.length) text
  · rw [hfraction]
    omega

/-- What is shown of a decimal that is written in full. A whole number has a zero behind its
point. -/
def inFull (decimal : Number.Decimal) : Number.Decimal :=
  if 0 ≤ decimal.exponent then ⟨decimal.digits * Nat.pow 10 (decimal.exponent.toNat + 1), -1⟩
  else decimal

/-- Written in full, a decimal has digits on both sides of the point. -/
theorem positional_spec {decimal : Number.Decimal} (hpos : 0 < decimal.digits) :
    ∃ whole fraction, IsWhole whole ∧ IsDigits fraction ∧
      decimal.positional ".0".toList = whole ++ '.' :: fraction ∧ ∀ negative,
        Numeral.Shows ⟨negative, digitValues whole, some (digitValues fraction), none⟩
          (inFull decimal) := by
  unfold Number.Decimal.positional inFull
  by_cases h : 0 ≤ decimal.exponent
  · obtain ⟨whole, hwhole, hparts, hvalue⟩ := parts_of_nonneg hpos h
    refine ⟨whole, ['0'], hwhole, isDigits_zero, ?_, fun negative => ?_⟩
    · rw [hparts]
      rfl
    · rw [if_pos h]
      refine ⟨?_, rfl⟩
      have hzero := digitsValue_append_replicate_zero whole 1
      rw [digitValues, List.map_append, hvalue, Nat.mul_assoc] at hzero
      exact hzero
  · obtain ⟨whole, fraction, hwhole, hfraction, hparts, hvalue, hlength⟩ := parts_of_neg hpos h
    refine ⟨whole, fraction, hwhole, hfraction, ?_, fun negative => ?_⟩
    · simp only [hparts, List.isEmpty_eq_false_iff.mpr hfraction.ne_nil, Bool.false_eq_true,
        if_false]
    · rw [if_neg h]
      rw [digitValues, List.map_append] at hvalue
      refine ⟨hvalue, ?_⟩
      show (0 : Int) - (digitValues fraction).length = decimal.exponent
      rw [digitValues, List.length_map]
      omega

/-- Written with a power of ten, a decimal has one digit in front of the point. -/
theorem scientific_spec {decimal : Number.Decimal} (hpos : 0 < decimal.digits) :
    ∃ whole fraction power places exponent, IsWhole whole ∧ FractionText fraction places ∧
      PowerText power exponent ∧ decimal.scientific = whole ++ (fraction ++ power) ∧ ∀ negative,
        Numeral.Shows ⟨negative, digitValues whole, places, exponent⟩ decimal := by
  have htext := isDigits_naturalText decimal.digits
  have hhead := Number.head?_naturalText hpos
  have hvalue := digitsValue_naturalText decimal.digits
  obtain ⟨power, exponent, hpower, hmark, hexponent⟩ : ∃ power exponent, PowerText power exponent ∧
      'e' :: (if decimal.magnitude - 1 < 0 then '-' else '+') ::
        Number.naturalText (decimal.magnitude - 1).natAbs = power ∧
      exponent.getD 0 = decimal.magnitude - 1 := by
    split
    · refine ⟨_, _, .negative (.inl rfl) (isDigits_naturalText _), rfl, ?_⟩
      rw [Option.getD_some, digitsValue_naturalText]
      omega
    · refine ⟨_, _, .positive (.inl rfl) (isDigits_naturalText _), rfl, ?_⟩
      rw [Option.getD_some, digitsValue_naturalText]
      omega
  unfold Number.Decimal.magnitude at hexponent
  unfold Number.Decimal.scientific
  simp only [hmark]
  generalize Number.naturalText decimal.digits = text at htext hhead hvalue hexponent
  match text with
  | [] => exact absurd rfl htext.ne_nil
  | [c] =>
      refine ⟨[c], [], power, none, exponent, isWhole_of_head?_ne htext hhead, .none, hpower, rfl,
        fun negative => ⟨hvalue, ?_⟩⟩
      show exponent.getD 0 - 0 = decimal.exponent
      rw [hexponent, List.length_singleton]
      omega
  | first :: second :: rest =>
      refine ⟨[first], '.' :: second :: rest, power, _, exponent,
        isWhole_of_head?_ne ⟨?_, ?_⟩ hhead, .some ⟨List.cons_ne_nil _ _, fun c hc => ?_⟩, hpower,
        rfl, fun negative => ⟨hvalue, ?_⟩⟩
      · exact List.cons_ne_nil _ _
      · intro c hc
        obtain rfl := List.mem_singleton.mp hc
        exact htext.isDigit c List.mem_cons_self
      · exact htext.isDigit c (List.mem_cons_of_mem first hc)
      · show exponent.getD 0 - (digitValues (second :: rest)).length = decimal.exponent
        rw [hexponent, digitValues, List.length_map, List.length_cons (a := first)]
        omega

/-- The decimal that is written for `significand · 2 ^ exponent`, as it is shown. -/
def written (significand : Nat) (exponent : Int) : Number.Decimal :=
  if significand = 0 then ⟨0, -1⟩
  else
    let decimal := Number.Decimal.shortest .toEven significand exponent
    if writtenInFull decimal.magnitude then inFull decimal else decimal

/-- **A finite float is written as a number** that shows its shortest decimal. -/
theorem numeralText_floatText {x : Float} {negative : Bool} {significand : Nat} {exponent : Int}
    (h : Number.Binary.ofFloat x = .finite negative significand exponent) :
    ∃ numeral, NumeralText (floatText x) numeral ∧ numeral.negative = negative ∧
      numeral.Shows (written significand exponent) := by
  simp only [floatText, h, written]
  split
  · exact ⟨_, .mk negative ⟨isDigits_zero, fun _ => rfl⟩ (.some isDigits_zero) .none, rfl, rfl, rfl⟩
  · rename_i hne
    have hpos : 0 < (Number.Decimal.shortest .toEven significand exponent).digits :=
      Number.Decimal.digits_shortest_pos (Nat.pos_of_ne_zero hne)
    split
    · obtain ⟨whole, fraction, hwhole, hfraction, htext, hshows⟩ := positional_spec hpos
      rw [htext, ← List.append_nil fraction, ← List.cons_append]
      exact ⟨_, .mk negative hwhole (.some hfraction) .none, rfl, hshows negative⟩
    · obtain ⟨whole, fraction, power, places, exponent, hwhole, hfraction, hpower, htext, hshows⟩ :=
        scientific_spec hpos
      rw [htext]
      exact ⟨_, .mk negative hwhole hfraction hpower, rfl, hshows negative⟩

theorem exists_numeralText_floatText {x : Float} (hx : x.isFinite = true) :
    ∃ numeral, NumeralText (floatText x) numeral := by
  obtain ⟨negative, significand, exponent, hfinite⟩ := (Number.isFinite_iff_ofFloat x).mp hx
  obtain ⟨numeral, htext, -, -⟩ := numeralText_floatText hfinite
  exact ⟨numeral, htext⟩

/-- Infinities and "not a number" are written as `null`. -/
theorem floatText_of_not_isFinite {x : Float} (hx : x.isFinite = false) :
    floatText x = "null".toList := by
  unfold floatText
  split
  · rfl
  · rfl
  · rename_i negative significand exponent h
    have := (Number.isFinite_iff_ofFloat x).mpr ⟨negative, significand, exponent, h⟩
    rw [hx] at this
    cases this

theorem floatText_cases (x : Float) :
    floatText x = "null".toList ∨ ∃ numeral, NumeralText (floatText x) numeral := by
  cases hx : x.isFinite with
  | false => exact .inl (floatText_of_not_isFinite hx)
  | true => exact .inr (exists_numeralText_floatText hx)

end TraceTimeline.Json
