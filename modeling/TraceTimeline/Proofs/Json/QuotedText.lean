import Mathlib.Tactic.SplitIfs
import TraceTimeline.Json.Quoted
import TraceTimeline.Proofs.Json.Spelling

/-!
# Texts in quotation marks

A character stands for itself or is escaped: by a letter, by the four hexadecimal digits of its
number, or by the digits of a pair of surrogates. `QuotedText s` is the grammar of the text `s`, with
all ways to spell each of its characters. Main statements: however it is spelled, behind its opening
quotation mark a text is read as what it stands for; and texts are written by the grammar.
-/

namespace TraceTimeline.Json

open Reader

def IsHexDigit (n : Nat) (b : UInt8) : Prop :=
  n < 16 ∧ (b = ascii (hexDigit n) ∨ b = ascii (hexDigit n).toUpper)

inductive UnitText : Nat → Form
  | mk {n₁ n₂ n₃ n₄ : Nat} {a b c d : UInt8} :
      IsHexDigit n₁ a → IsHexDigit n₂ b → IsHexDigit n₃ c → IsHexDigit n₄ d →
        UnitText (((n₁ * 16 + n₂) * 16 + n₃) * 16 + n₄) [a, b, c, d]

def shortEscapes : List (Char × Char) :=
  [('"', '"'), ('\\', '\\'), ('/', '/'), ('b', '\x08'), ('f', '\x0C'), ('n', '\n'), ('r', '\r'),
    ('t', '\t')]

/-- A character between quotation marks. Quotation marks, backslashes and control characters cannot
stand for themselves; a character whose number has more than four digits is escaped as the pair of
its surrogates. -/
inductive CharacterText : Char → Form
  | plain {c : Char} : c ≠ '"' → c ≠ '\\' → ¬ c < ' ' → CharacterText c (String.utf8EncodeChar c)
  | short {letter c : Char} : (letter, c) ∈ shortEscapes →
      CharacterText c [ascii '\\', ascii letter]
  | unit {c : Char} {bytes : Bytes} : UnitText c.toNat bytes →
      CharacterText c (ascii '\\' :: ascii 'u' :: bytes)
  | pair {c : Char} {high low : Bytes} : 0x10000 ≤ c.toNat →
      UnitText (0xD800 + (c.toNat - 0x10000) / 0x400) high →
      UnitText (0xDC00 + (c.toNat - 0x10000) % 0x400) low →
        CharacterText c (ascii '\\' :: ascii 'u' :: (high ++ ascii '\\' :: ascii 'u' :: low))

inductive CharactersText : List Char → Form
  | nil : CharactersText [] []
  | cons {c : Char} {s : List Char} {bytes more : Bytes} : CharacterText c bytes →
      CharactersText s more → CharactersText (c :: s) (bytes ++ more)

def QuotedText (s : String) : Form := fun bytes =>
  ∃ inner, CharactersText s.toList inner ∧ bytes = ascii '"' :: (inner ++ [ascii '"'])

def IsPlain (b : UInt8) : Prop :=
  b ≠ ascii '"' ∧ b ≠ ascii '\\' ∧ ¬ b < 0x20

/-! ## Steps of the reader -/

theorem quotedFrom_quote (unicode : Reader Bytes) (taken r : Bytes) :
    quotedFrom unicode taken (ascii '"' :: r) = .ok (taken.reverse, r) := by
  rw [quotedFrom, if_pos rfl]

theorem quotedFrom_escape {unicode : Reader Bytes} {taken bytes r rest : Bytes}
    (h : (escapedBy unicode).run r = .ok (bytes, rest)) :
    quotedFrom unicode taken (ascii '\\' :: r) =
      quotedFrom unicode (bytes.reverse ++ taken) rest := by
  have hq : ¬ ascii '\\' = ascii '"' := by decide
  rw [quotedFrom, if_neg hq, if_pos rfl]
  split
  · rename_i fault hf
    rw [h] at hf
    cases hf
  · rename_i found left hf
    rw [h] at hf
    cases hf
    rw [List.reverseAux_eq]

theorem quotedFrom_plain {unicode : Reader Bytes} {bytes : Bytes} (h : ∀ b ∈ bytes, IsPlain b)
    (taken r : Bytes) :
    quotedFrom unicode taken (bytes ++ r) = quotedFrom unicode (bytes.reverse ++ taken) r := by
  induction bytes generalizing taken with
  | nil => rfl
  | cons b bytes ih =>
      obtain ⟨hq, he, hc⟩ := h b List.mem_cons_self
      rw [List.cons_append, quotedFrom, if_neg hq, if_neg he, if_neg hc,
        ih fun b hb => h b (List.mem_cons_of_mem _ hb)]
      simp

theorem isPlain_of_le {b : UInt8} (h : 128 ≤ b.toNat) : IsPlain b := by
  refine ⟨?_, ?_, ?_⟩
  · rintro rfl
    exact absurd h (by decide)
  · rintro rfl
    exact absurd h (by decide)
  · intro hlt
    have : b.toNat < 32 := UInt8.lt_iff_toNat_lt.mp hlt
    omega

/-- The bytes of a character that is not escaped stand for themselves. -/
theorem isPlain_utf8EncodeChar {c : Char} (hq : c ≠ '"') (he : c ≠ '\\') (hc : ¬ c < ' ') :
    ∀ b ∈ String.utf8EncodeChar c, IsPlain b := by
  intro b hb
  -- An ASCII character is its byte. The bytes of all others are too great to be taken for ASCII.
  by_cases hlt : c.toNat < 128
  · rw [utf8EncodeChar_of_lt hlt] at hb
    obtain rfl := List.mem_singleton.mp hb
    refine ⟨fun h => hq (ascii_inj hlt (by decide) h), fun h => he (ascii_inj hlt (by decide) h),
      fun h => hc ?_⟩
    have hn : (ascii c).toNat < 32 := UInt8.lt_iff_toNat_lt.mp h
    rw [toNat_ascii hlt] at hn
    exact Char.lt_def.mpr (UInt32.lt_iff_toNat_lt.mpr hn)
  · exact isPlain_of_le (le_of_mem_utf8EncodeChar (by omega) b hb)

/-! ## Escapes -/

theorem IsHexDigit.hexValue? {n : Nat} {b : UInt8} (h : IsHexDigit n b) :
    Json.hexValue? b = some n := by
  obtain ⟨hn, rfl | rfl⟩ := h
  · revert n
    decide
  · revert n
    decide

theorem UnitText.run_hexUnit {n : Nat} {bytes : Bytes} (h : UnitText n bytes) (r : Bytes) :
    hexUnit.run (bytes ++ r) = .ok (n, r) := by
  obtain ⟨ha, hb, hc, hd⟩ := h
  unfold hexUnit
  simp only [List.cons_append, List.nil_append, run_bind, run_next_cons, List.mapM_cons,
    List.mapM_nil, ha.hexValue?, hb.hexValue?, hc.hexValue?, hd.hexValue?, Option.pure_def,
    Option.bind_eq_bind, Option.bind_some, run_pure, List.foldl_cons, List.foldl_nil, Nat.zero_mul,
    Nat.zero_add]

theorem isLowSurrogate_iff {n : Nat} : isLowSurrogate n = true ↔ 0xDC00 ≤ n ∧ n ≤ 0xDFFF := by
  simp only [isLowSurrogate, Bool.and_eq_true, decide_eq_true_eq]

theorem isHighSurrogate_iff {n : Nat} : isHighSurrogate n = true ↔ 0xD800 ≤ n ∧ n ≤ 0xDBFF := by
  simp only [isHighSurrogate, Bool.and_eq_true, decide_eq_true_eq]

/-- The number of a character is no surrogate. -/
theorem not_surrogate (c : Char) :
    ¬ isLowSurrogate c.toNat = true ∧ ¬ isHighSurrogate c.toNat = true := by
  rw [isLowSurrogate_iff, isHighSurrogate_iff]
  have hvalid : c.toNat < 0xD800 ∨ 0xDFFF < c.toNat ∧ c.toNat < 0x110000 := c.valid
  omega

theorem codePoint_toNat (c : Char) : codePoint c.toNat = String.utf8EncodeChar c := by
  rw [codePoint, Char.ofNat_toNat]

theorem run_unicodeEscape_unit {c : Char} {bytes : Bytes} (h : UnitText c.toNat bytes) (r : Bytes) :
    unicodeEscape.run (bytes ++ r) = .ok (String.utf8EncodeChar c, r) := by
  obtain ⟨hlow, hhigh⟩ := not_surrogate c
  unfold unicodeEscape
  simp only [run_bind, h.run_hexUnit, if_neg hlow, if_neg hhigh, run_pure, codePoint_toNat]

theorem run_lowSurrogate {n : Nat} {bytes : Bytes} (h : UnitText n bytes)
    (hlow : isLowSurrogate n = true) (r : Bytes) :
    lowSurrogate.run (ascii '\\' :: ascii 'u' :: bytes ++ r) = .ok (n, r) := by
  unfold lowSurrogate
  simp only [literal, List.cons_append, run_bind, run_next_cons, if_true, run_pure, h.run_hexUnit,
    if_pos hlow]

theorem run_unicodeEscape_pair {n m : Nat} {high low : Bytes} (hhigh : UnitText n high)
    (hn : isHighSurrogate n = true) (hlow : UnitText m low) (hm : isLowSurrogate m = true)
    (r : Bytes) :
    unicodeEscape.run (high ++ ascii '\\' :: ascii 'u' :: low ++ r) =
      .ok (codePoint ((n - 0xD800) * 0x400 + (m - 0xDC00) + 0x10000), r) := by
  have hnotlow : ¬ isLowSurrogate n = true := by
    rw [isHighSurrogate_iff] at hn
    rw [isLowSurrogate_iff]
    omega
  unfold unicodeEscape
  simp only [List.append_assoc, run_bind, hhigh.run_hexUnit, if_neg hnotlow, if_pos hn,
    run_lowSurrogate hlow hm r, run_pure]

/-- A character beyond four digits is the one of its two surrogates. -/
theorem surrogates_spec {n : Nat} (hle : 0x10000 ≤ n) (hlt : n < 0x110000) :
    isHighSurrogate (0xD800 + (n - 0x10000) / 0x400) = true ∧
      isLowSurrogate (0xDC00 + (n - 0x10000) % 0x400) = true ∧
      (0xD800 + (n - 0x10000) / 0x400 - 0xD800) * 0x400 +
        (0xDC00 + (n - 0x10000) % 0x400 - 0xDC00) + 0x10000 = n := by
  rw [isHighSurrogate_iff, isLowSurrogate_iff]
  omega

theorem shortEscape?_of_mem {letter c : Char} (h : (letter, c) ∈ shortEscapes) :
    ascii letter ≠ ascii 'u' ∧ shortEscape? (ascii letter) = some (ascii c) ∧ c.toNat < 128 := by
  have hall : ∀ pair ∈ shortEscapes, ascii pair.1 ≠ ascii 'u' ∧
      shortEscape? (ascii pair.1) = some (ascii pair.2) ∧ pair.2.toNat < 128 := by
    decide
  exact hall _ h

theorem run_escapedBy_short {b c : UInt8} (hu : b ≠ ascii 'u') (h : shortEscape? b = some c)
    (unicode : Reader Bytes) (r : Bytes) :
    (escapedBy unicode).run (b :: r) = .ok ([c], r) := by
  unfold escapedBy
  simp only [run_bind, run_next_cons, if_neg hu, h, run_pure]

theorem run_escapedBy_unicode (unicode : Reader Bytes) (r : Bytes) :
    (escapedBy unicode).run (ascii 'u' :: r) = unicode.run r := by
  unfold escapedBy
  simp only [run_bind, run_next_cons, if_true]

/-! ## Characters and texts -/

/-- However a character is spelled, it is read as its bytes. -/
theorem CharacterText.quotedFrom {c : Char} {bytes : Bytes} (h : CharacterText c bytes)
    (taken r : Bytes) :
    Json.quotedFrom unicodeEscape taken (bytes ++ r) =
      Json.quotedFrom unicodeEscape ((String.utf8EncodeChar c).reverse ++ taken) r := by
  cases h with
  | plain hq he hc => exact quotedFrom_plain (isPlain_utf8EncodeChar hq he hc) taken r
  | short hmem =>
      obtain ⟨hu, hshort, hlt⟩ := shortEscape?_of_mem hmem
      rw [utf8EncodeChar_of_lt hlt]
      exact quotedFrom_escape (run_escapedBy_short hu hshort unicodeEscape r)
  | unit hunit =>
      exact quotedFrom_escape
        ((run_escapedBy_unicode unicodeEscape _).trans (run_unicodeEscape_unit hunit r))
  | pair hc hhigh hlow =>
      have hvalid : c.toNat < 0xD800 ∨ 0xDFFF < c.toNat ∧ c.toNat < 0x110000 := c.valid
      obtain ⟨hn, hm, hcode⟩ := surrogates_spec hc (by omega)
      have hread := run_unicodeEscape_pair hhigh hn hlow hm r
      rw [hcode, codePoint_toNat] at hread
      exact quotedFrom_escape ((run_escapedBy_unicode unicodeEscape _).trans hread)

theorem CharactersText.quotedFrom {s : List Char} {bytes : Bytes} (h : CharactersText s bytes)
    (taken r : Bytes) :
    Json.quotedFrom unicodeEscape taken (bytes ++ r) =
      Json.quotedFrom unicodeEscape ((s.flatMap String.utf8EncodeChar).reverse ++ taken) r := by
  induction h generalizing taken with
  | nil => rfl
  | cons hc _ ih =>
      rw [List.append_assoc, hc.quotedFrom, ih, List.flatMap_cons, List.reverse_append,
        List.append_assoc]

/-- **A text is read as what it stands for**, behind its opening quotation mark and however its
characters are spelled. -/
theorem CharactersText.run_textAfterQuote {s : String} {bytes : Bytes}
    (h : CharactersText s.toList bytes) (r : Bytes) :
    textAfterQuote.run (bytes ++ ascii '"' :: r) = .ok (s, r) := by
  have hquoted : (quotedBy unicodeEscape).run (bytes ++ ascii '"' :: r) =
      .ok (Bytes.ofText s, r) := by
    refine (h.quotedFrom [] _).trans ?_
    rw [quotedFrom_quote, List.append_nil, List.reverse_reverse, Bytes.ofText_eq_flatMap]
  unfold textAfterQuote
  simp only [run_bind, hquoted, Bytes.toText?_ofText, run_pure]

/-! ## Written texts -/

/-- A control character is written by the digits of its number. -/
theorem unitText_control {n : Nat} (h : n < 32) :
    UnitText n [ascii '0', ascii '0', ascii (hexDigit (n / 16)), ascii (hexDigit (n % 16))] := by
  have hzero : IsHexDigit 0 (ascii '0') := ⟨by decide, .inl rfl⟩
  have hn : ((0 * 16 + 0) * 16 + n / 16) * 16 + n % 16 = n := by omega
  have hfirst : IsHexDigit (n / 16) (ascii (hexDigit (n / 16))) := ⟨by omega, .inl rfl⟩
  have hsecond : IsHexDigit (n % 16) (ascii (hexDigit (n % 16))) := ⟨by omega, .inl rfl⟩
  have hunit := UnitText.mk hzero hzero hfirst hsecond
  rwa [hn] at hunit

theorem characterText_escape (c : Char) :
    CharacterText c ((escape c).flatMap String.utf8EncodeChar) := by
  have hshort : ∀ pair ∈ shortEscapes,
      CharacterText pair.2 (['\\', pair.1].flatMap String.utf8EncodeChar) := by
    intro pair hmem
    have hletter : ∀ pair ∈ shortEscapes, pair.1.toNat < 128 := by decide
    have hlt : ∀ c ∈ ['\\', pair.1], c.toNat < 128 := by
      simp only [List.forall_mem_cons, List.not_mem_nil, false_implies, implies_true, and_true]
      exact ⟨by decide, hletter pair hmem⟩
    rw [flatMap_utf8EncodeChar_of_lt hlt]
    exact CharacterText.short hmem
  -- The first seven branches of `escape` have a letter each; below them stand the control
  -- characters without one, and what is not escaped at all.
  unfold escape
  split_ifs with hq he hb ht hn hf hr hc
  · rw [hq]
    exact hshort ('"', '"') (by decide)
  · rw [he]
    exact hshort ('\\', '\\') (by decide)
  · rw [hb]
    exact hshort ('b', '\x08') (by decide)
  · rw [ht]
    exact hshort ('t', '\t') (by decide)
  · rw [hn]
    exact hshort ('n', '\n') (by decide)
  · rw [hf]
    exact hshort ('f', '\x0C') (by decide)
  · rw [hr]
    exact hshort ('r', '\r') (by decide)
  · have hlt : c.toNat < 32 := UInt32.lt_iff_toNat_lt.mp (Char.lt_def.mp hc)
    have hdigit : ∀ n < 16, (hexDigit n).toNat < 128 := by decide
    have hchars : ∀ d ∈ ['\\', 'u', '0', '0', hexDigit (c.toNat / 16), hexDigit (c.toNat % 16)],
        d.toNat < 128 := by
      simp only [List.forall_mem_cons, List.not_mem_nil, false_implies, implies_true, and_true]
      refine ⟨by decide, by decide, by decide, by decide, hdigit _ ?_, hdigit _ ?_⟩ <;> omega
    rw [flatMap_utf8EncodeChar_of_lt hchars]
    exact CharacterText.unit (unitText_control hlt)
  · rw [List.flatMap_singleton]
    exact CharacterText.plain hq he hc

theorem charactersText_escape (s : List Char) :
    CharactersText s ((s.flatMap escape).flatMap String.utf8EncodeChar) := by
  induction s with
  | nil => exact CharactersText.nil
  | cons c s ih =>
      rw [List.flatMap_cons, List.flatMap_append]
      exact CharactersText.cons (characterText_escape c) ih

/-- **A text is written by the grammar.** -/
theorem quotedText_bytes (s : String) : QuotedText s (Token.text s).bytes := by
  have hquote : String.utf8EncodeChar '"' = [ascii '"'] := utf8EncodeChar_of_lt (by decide)
  refine ⟨_, charactersText_escape s.toList, ?_⟩
  rw [Token.bytes, Token.spelling, quoted, List.flatMap_cons, List.flatMap_append, hquote,
    List.flatMap_singleton, hquote]
  rfl

end TraceTimeline.Json
