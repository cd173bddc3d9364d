import TraceTimeline.Json.Shape
import TraceTimeline.Proofs.Json.NumeralText
import TraceTimeline.Proofs.Json.QuotedText

/-!
# Reading values

`x.Yields form result` says what the reader `x` makes of the spellings of a value: a value, with the
input left at what follows, or a fault. White space in front makes no difference. Main statements:
the readers of texts and of numbers yield what was written, and a float in a document is read as it
is alone.
-/

namespace TraceTimeline.Json

open Reader

variable {α β : Type}

theorem bytes_natural (n : Nat) : (Token.natural n).bytes = (Number.naturalText n).map ascii :=
  flatMap_utf8EncodeChar_of_lt (numeralText_naturalText n).lt

theorem bytes_null_float {x : Float} (hx : x.isFinite = false) :
    (Token.float x).bytes = "null".toList.map ascii := by
  rw [Token.bytes, Token.spelling, floatText_of_not_isFinite hx]
  rfl

/-- The first byte of a number is a minus sign or a digit. -/
theorem NumeralText.exists_cons {s : List Char} {numeral : Numeral} (hs : NumeralText s numeral) :
    ∃ b r, s.map ascii = b :: r ∧ startsNumber b = true := by
  obtain ⟨negative, hwhole, hfraction, hpower⟩ := hs
  cases negative with
  | true => exact ⟨_, _, rfl, by decide⟩
  | false =>
      obtain ⟨c, s, rfl⟩ := List.exists_cons_of_ne_nil hwhole.ne_nil
      refine ⟨_, _, rfl, ?_⟩
      rw [startsNumber, isDigit_ascii (hwhole.isDigit c List.mem_cons_self), Bool.or_true]

def beginsItem (b : UInt8) : Bool :=
  !isSpace b && b != ascii ']' && b != ascii '}'

/-- What holds of all numbers below 256 holds of all bytes. -/
theorem forall_byte {p : UInt8 → Prop} (h : ∀ n < 256, p (UInt8.ofNat n)) (b : UInt8) : p b := by
  have hb := h b.toNat b.toNat_lt
  rwa [UInt8.ofNat_toNat] at hb

theorem beginsItem_of_startsNumber {b : UInt8} (h : startsNumber b = true) :
    beginsItem b = true :=
  forall_byte (p := fun b => startsNumber b = true → beginsItem b = true) (by decide +kernel) b h

def Form.BeginsItem (form : Form) : Prop :=
  ∀ ⦃bytes : Bytes⦄, form bytes → ∃ b r, bytes = b :: r ∧ beginsItem b = true

theorem beginsItem_quotedText (s : String) : Form.BeginsItem (QuotedText s) := by
  rintro _ ⟨inner, -, rfl⟩
  exact ⟨_, _, rfl, by decide⟩

theorem isSpace_of_beginsItem {b : UInt8} (h : beginsItem b = true) : isSpace b = false := by
  simp only [beginsItem, Bool.and_eq_true, Bool.not_eq_true'] at h
  exact h.1.1

theorem dropWhile_spaces {spaces : Bytes} (hs : IsSpaces spaces) {b : UInt8}
    (hb : isSpace b = false) (r : Bytes) :
    (spaces ++ b :: r).dropWhile isSpace = b :: r := by
  rw [List.dropWhile_append_of_pos hs, List.dropWhile_cons, hb, if_neg Bool.false_ne_true]

theorem run_ahead {spaces : Bytes} (hs : IsSpaces spaces) {b : UInt8} (hb : isSpace b = false)
    (r : Bytes) : ahead.run (spaces ++ b :: r) = .ok (b, b :: r) := by
  unfold ahead Reader.spaces
  simp only [run_bind, run_takeWhile, dropWhile_spaces hs hb, run_pure, run_peek, List.head?_cons]

theorem run_mark {spaces : Bytes} (hs : IsSpaces spaces) {c : Char}
    (hc : isSpace (ascii c) = false) (r : Bytes) :
    (mark c).run (spaces ++ ascii c :: r) = .ok ((), r) := by
  unfold mark
  simp only [run_bind, run_ahead hs hc, if_true, run_drop, List.tail_cons]

theorem run_literal_null (r : Bytes) :
    (literal ("null".toList.map ascii)).run (ascii 'n' :: ("ull".toList.map ascii ++ r)) =
      .ok ((), r) :=
  rfl

/-! ## Values -/

def Token.form (token : Token) : Form := fun bytes =>
  bytes = token.bytes

/-- On every spelling of the form, behind white space, the reader comes to the result, and a value
leaves what follows it in the input. -/
def Reader.Yields (x : Reader α) (form : Form) (result : Except Fault α) : Prop :=
  ∀ ⦃spaces bytes rest : Bytes⦄, IsSpaces spaces → form bytes → Ends rest →
    x.run (spaces ++ (bytes ++ rest)) = result.map fun a => (a, rest)

/-- The same whatever follows: the form shows where it ends. -/
def Reader.YieldsDelimited (x : Reader α) (form : Form) (result : Except Fault α) : Prop :=
  ∀ ⦃spaces bytes : Bytes⦄ (rest : Bytes), IsSpaces spaces → form bytes →
    x.run (spaces ++ (bytes ++ rest)) = result.map fun a => (a, rest)

theorem Reader.YieldsDelimited.yields {x : Reader α} {form : Form} {result : Except Fault α}
    (h : x.YieldsDelimited form result) : x.Yields form result :=
  fun _ _ rest hs hbytes _ => h rest hs hbytes

theorem yields_text (s : String) : Reader.text.Yields (QuotedText s) (.ok s) := by
  rintro spaces _ rest hs ⟨inner, hinner, rfl⟩ -
  have hquote : isSpace (ascii '"') = false := by decide
  have hsplit : spaces ++ (ascii '"' :: (inner ++ [ascii '"']) ++ rest) =
      spaces ++ ascii '"' :: (inner ++ ascii '"' :: rest) := by
    simp only [List.cons_append, List.append_assoc, List.nil_append]
  unfold Reader.text
  simp only [hsplit, run_bind, run_ahead hs hquote, if_true, run_drop, List.tail_cons,
    hinner.run_textAfterQuote, Except.map]

theorem yields_map {x : Reader α} {form : Form} {result : Except Fault α}
    (h : x.Yields form result) (f : α → β) :
    (do let a ← x; return f a : Reader β).Yields form (result.map f) := by
  intro spaces bytes rest hs hbytes hrest
  simp only [run_bind, h hs hbytes hrest]
  cases result <;> rfl

theorem isSpace_of_startsNumber {b : UInt8} (h : startsNumber b = true) : isSpace b = false :=
  isSpace_of_beginsItem (beginsItem_of_startsNumber h)

theorem run_numeral {s : List Char} {numeral : Numeral} (hs : NumeralText s numeral) {rest : Bytes}
    (hrest : Ends rest) :
    Reader.numeral.run (s.map ascii ++ rest) =
      match numeral.float? with
      | some x => .ok ((numeral, x), rest)
      | none => .error .malformed := by
  unfold Reader.numeral
  simp only [run_bind, run_read hs hrest]
  cases numeral.float? <;> rfl

theorem run_natural {s : List Char} (hs : IsWhole s) {limit : Nat}
    (hlt : digitsValue (digitValues s) < limit) (hlimit : limit ≤ Numeral.significandLimit)
    {spaces rest : Bytes} (hspaces : IsSpaces spaces) (hrest : Ends rest) :
    (Reader.natural limit).run (spaces ++ (s.map ascii ++ rest)) =
      .ok (digitsValue (digitValues s), rest) := by
  -- The reader makes a float of every number before it asks for a natural one, so the float has to
  -- exist too.
  have hfits := Nat.lt_of_lt_of_le hlt hlimit
  have htext := hs.numeralText
  obtain ⟨b, r, hbytes, hb⟩ := htext.exists_cons
  obtain ⟨x, hx⟩ := exists_float?_whole hfits
  have hnumeral := run_numeral htext hrest
  rw [hbytes, List.cons_append] at hnumeral ⊢
  unfold Reader.natural
  simp only [run_bind, run_ahead hspaces (isSpace_of_startsNumber hb), hb, if_true, hnumeral, hx,
    natural?_whole hfits, Option.filter_some, hlt, decide_true, run_pure]

theorem yields_natural {limit n : Nat} (hn : n < limit)
    (hlimit : limit ≤ Numeral.significandLimit) :
    (Reader.natural limit).Yields (Token.natural n).form (.ok n) := by
  rintro spaces _ rest hs rfl hrest
  have hvalue := digitsValue_naturalText n
  rw [bytes_natural, run_natural (isWhole_naturalText n) (by rwa [hvalue]) hlimit hs hrest, hvalue]
  rfl

theorem yields_uint32 (n : UInt32) :
    Reader.uint32.Yields (Token.natural n.toNat).form (.ok n) := by
  have h := yields_map (yields_natural n.toNat_lt (by decide)) UInt32.ofNat
  rwa [Except.map, UInt32.ofNat_toNat] at h

theorem yields_uint64 (n : UInt64) :
    Reader.uint64.Yields (Token.natural n.toNat).form (.ok n) := by
  have h := yields_map (yields_natural n.toNat_lt (by decide)) UInt64.ofNat
  rwa [Except.map, UInt64.ofNat_toNat] at h

/-! ## Values that may be missing -/

def Form.IsNotNull (form : Form) : Prop :=
  ∀ ⦃bytes : Bytes⦄, form bytes → ∃ b r, bytes = b :: r ∧ isSpace b = false ∧ b ≠ ascii 'n'

theorem isNotNull_quotedText (s : String) : Form.IsNotNull (QuotedText s) := by
  rintro _ ⟨inner, -, rfl⟩
  exact ⟨_, _, rfl, by decide, by decide⟩

theorem isNotNull_natural (n : Nat) : (Token.natural n).form.IsNotNull := by
  rintro _ rfl
  obtain ⟨b, r, hbytes, hb⟩ := (numeralText_naturalText n).exists_cons
  refine ⟨b, r, (bytes_natural _).trans hbytes, isSpace_of_startsNumber hb, ?_⟩
  rintro rfl
  exact absurd hb (by decide)

theorem yields_optional {value : Reader α} {form : Form} {a : α} (hform : form.IsNotNull)
    (h : value.Yields form (.ok a)) : (Reader.optional value).Yields form (.ok (some a)) := by
  intro spaces bytes rest hs hbytes hrest
  have hvalue := h isSpaces_nil hbytes hrest
  obtain ⟨b, r, rfl, hb, hn⟩ := hform hbytes
  rw [List.nil_append, List.cons_append] at hvalue
  rw [List.cons_append]
  unfold Reader.optional
  simp only [run_bind, run_ahead hs hb, if_neg hn, hvalue, Except.map, run_pure]

theorem yields_optional_text (s : String) :
    (Reader.optional Reader.text).Yields (QuotedText s) (.ok (some s)) :=
  yields_optional (isNotNull_quotedText s) (yields_text s)

theorem yields_optional_uint64 (n : UInt64) :
    (Reader.optional Reader.uint64).Yields (Token.natural n.toNat).form (.ok (some n)) :=
  yields_optional (isNotNull_natural n.toNat) (yields_uint64 n)

theorem yields_optional_null (value : Reader α) :
    (Reader.optional value).Yields Token.null.form (.ok none) := by
  rintro spaces _ rest hs rfl -
  have hn : isSpace (ascii 'n') = false := by decide
  have hbytes : Token.null.bytes ++ rest = ascii 'n' :: ("ull".toList.map ascii ++ rest) := rfl
  rw [hbytes]
  unfold Reader.optional
  simp only [run_bind, run_ahead hs hn, if_true, run_literal_null, run_pure, Except.map]

/-! ## Whole inputs -/

/-- Behind the value that an input begins with only white space may follow. -/
theorem readAll_of_yieldsDelimited {x : Reader α} {form : Form} {result : Except Fault α}
    (h : x.YieldsDelimited form result) {front bytes : Bytes} (hfront : IsSpaces front)
    (hbytes : form bytes) (back : Bytes) :
    readAll x (front ++ (bytes ++ back)) =
      result.bind fun a => if back.all isSpace then .ok a else .error .malformed := by
  unfold readAll
  rw [h back hfront hbytes]
  cases result <;> rfl

theorem extendsNumber_of_isSpace {b : UInt8} (h : isSpace b = true) : extendsNumber b = false :=
  forall_byte (p := fun b => isSpace b = true → extendsNumber b = false) (by decide +kernel) b h

/-- White space ends a number, and so does a mark behind it. -/
theorem ends_of_spaces {spaces rest : Bytes} (hs : IsSpaces spaces) (hrest : Ends rest) :
    Ends (spaces ++ rest) := by
  cases spaces with
  | nil => exact hrest
  | cons a spaces =>
      rintro _ ⟨⟩
      exact extendsNumber_of_isSpace (hs a List.mem_cons_self)

/-- An input that is nothing but the value, with white space around it. -/
theorem readAll_of_yields {x : Reader α} {form : Form} {result : Except Fault α}
    (h : x.Yields form result) {front bytes back : Bytes} (hfront : IsSpaces front)
    (hbytes : form bytes) (hback : IsSpaces back) :
    readAll x (front ++ (bytes ++ back)) = result := by
  have hends : Ends (back ++ []) := ends_of_spaces hback ends_nil
  rw [List.append_nil] at hends
  unfold readAll
  rw [h hfront hbytes hends]
  cases result with
  | error fault => rfl
  | ok a => exact if_pos (List.all_eq_true.mpr hback)

/-- What is read where a float has been written. -/
def reread (x : Float) : Except Fault Float :=
  readAll Reader.float (Bytes.ofText (String.ofList (floatText x)))

theorem yields_float_of_numeral {x : Float} {numeral : Numeral}
    (hs : NumeralText (floatText x) numeral) :
    Reader.float.Yields (Token.float x).form
      (match numeral.float? with
      | some y => .ok y
      | none => .error .malformed) := by
  rintro spaces _ rest hs' rfl hrest
  obtain ⟨b, r, hbytes, hb⟩ := hs.exists_cons
  have hascii : (Token.float x).bytes = (floatText x).map ascii :=
    flatMap_utf8EncodeChar_of_lt hs.lt
  have hnumeral := run_numeral hs hrest
  rw [hascii]
  simp only [hbytes, List.cons_append] at hnumeral ⊢
  unfold Reader.float
  simp only [run_bind, run_ahead hs' (isSpace_of_startsNumber hb), hb, if_true, hnumeral]
  cases numeral.float? <;> rfl

theorem yields_float_of_not_isFinite {x : Float} (hx : x.isFinite = false) :
    Reader.float.Yields (Token.float x).form (.error .unfit) := by
  rintro spaces _ rest hs rfl -
  have hn : isSpace (ascii 'n') = false := by decide
  have hnumber : ¬ startsNumber (ascii 'n') = true := by decide
  have hquote : ¬ ascii 'n' = ascii '"' := by decide
  have hbytes : (Token.float x).bytes ++ rest =
      ascii 'n' :: ("ull".toList.map ascii ++ rest) := by
    rw [bytes_null_float hx]
    rfl
  have hahead : ahead.run (ascii 'n' :: ("ull".toList.map ascii ++ rest)) =
      .ok (ascii 'n', ascii 'n' :: ("ull".toList.map ascii ++ rest)) :=
    run_ahead isSpaces_nil hn _
  rw [hbytes]
  unfold Reader.float otherKind
  simp only [run_bind, run_ahead hs hn, if_neg hnumber, hahead, if_neg hquote, if_true,
    run_literal_null, run_fail, Except.map]

theorem reread_eq_of_yields {x : Float} {result : Except Fault Float}
    (h : Reader.float.Yields (Token.float x).form result) : reread x = result := by
  have hread := readAll_of_yields h isSpaces_nil rfl isSpaces_nil
  rw [List.nil_append, List.append_nil] at hread
  rw [reread, Bytes.ofText_ofList]
  exact hread

/-- In place of an infinity or "not a number" no float is read. -/
theorem reread_of_not_isFinite {x : Float} (hx : x.isFinite = false) :
    reread x = .error .unfit :=
  reread_eq_of_yields (yields_float_of_not_isFinite hx)

theorem isFinite_of_reread_eq_ok {x y : Float} (h : reread x = .ok y) : x.isFinite = true := by
  cases hx : x.isFinite with
  | true => rfl
  | false =>
      rw [reread_of_not_isFinite hx] at h
      cases h

/-- **In a document a float is read as it is alone.** -/
theorem yields_float (x : Float) : Reader.float.Yields (Token.float x).form (reread x) := by
  -- What is read does not depend on what follows, so it may as well be nothing.
  cases hx : x.isFinite with
  | true =>
      obtain ⟨numeral, hs⟩ := exists_numeralText_floatText hx
      rw [reread_eq_of_yields (yields_float_of_numeral hs)]
      exact yields_float_of_numeral hs
  | false =>
      rw [reread_of_not_isFinite hx]
      exact yields_float_of_not_isFinite hx

end TraceTimeline.Json
