import TraceTimeline.Json.Reader
import TraceTimeline.Text.Utf8

/-!
# The bytes of a text

A text is written in UTF-8 character by character. An ASCII character is one byte, the one with its
number, and no byte of any other character can be mistaken for it.
-/

namespace TraceTimeline

namespace Bytes

/-- The bytes of a text are the bytes of its characters. -/
theorem ofText_ofList (s : List Char) :
    ofText (String.ofList s) = s.flatMap String.utf8EncodeChar := by
  rw [ofText, String.toByteArray_ofList]
  exact List.toList_data_toByteArray

theorem ofText_eq_flatMap (s : String) : ofText s = s.toList.flatMap String.utf8EncodeChar := by
  rw [← ofText_ofList, String.ofList_toList]

/-- Pieces are read as texts exactly when they are what these texts are written as. -/
theorem mapM_toText?_eq_some_iff {pieces : List Bytes} {texts : List String} :
    pieces.mapM toText? = some texts ↔ pieces = texts.map ofText := by
  induction pieces generalizing texts with
  | nil => cases texts <;> simp
  | cons piece pieces ih =>
      rw [List.mapM_cons]
      constructor
      · intro h
        obtain ⟨text, htext, h⟩ := Option.bind_eq_some_iff.mp h
        obtain ⟨more, hmore, h⟩ := Option.bind_eq_some_iff.mp h
        obtain rfl := Option.some.inj h
        rw [List.map_cons, ← ih.mp hmore, ← toText?_eq_some_iff.mp htext]
      · intro h
        obtain ⟨text, more, rfl, rfl, hmore⟩ := List.map_eq_cons_iff.mp h.symm
        rw [toText?_ofText, ih.mpr hmore.symm]
        rfl

end Bytes

namespace Json

theorem toNat_ascii {c : Char} (h : c.toNat < 128) : (ascii c).toNat = c.toNat := by
  have : (ascii c).toNat = c.toNat % 256 := UInt32.toNat_toUInt8 c.val
  omega

theorem ascii_inj {c d : Char} (hc : c.toNat < 128) (hd : d.toNat < 128)
    (h : ascii c = ascii d) : c = d := by
  apply Char.toNat_inj.mp
  rw [← toNat_ascii hc, ← toNat_ascii hd, h]

/-- An ASCII character is one byte. -/
theorem utf8EncodeChar_of_lt {c : Char} (h : c.toNat < 128) :
    String.utf8EncodeChar c = [ascii c] := by
  have hle : c.val.toNat ≤ 0x7f := Nat.le_of_lt_succ h
  rw [String.utf8EncodeChar.eq_def, if_pos hle]
  rfl

theorem flatMap_utf8EncodeChar_of_lt {s : List Char} (h : ∀ c ∈ s, c.toNat < 128) :
    s.flatMap String.utf8EncodeChar = s.map ascii := by
  induction s with
  | nil => rfl
  | cons c s ih =>
      rw [List.flatMap_cons, utf8EncodeChar_of_lt (h c List.mem_cons_self),
        ih fun d hd => h d (List.mem_cons_of_mem c hd)]
      rfl

/-- A character beyond ASCII has bytes beyond ASCII alone. -/
theorem le_of_mem_utf8EncodeChar {c : Char} (hc : 128 ≤ c.toNat) :
    ∀ b ∈ String.utf8EncodeChar c, 128 ≤ b.toNat := by
  have hlt : ¬ c.val.toNat ≤ 0x7f := Nat.not_le_of_lt hc
  rw [String.utf8EncodeChar.eq_def, if_neg hlt]
  repeat' split
  all_goals
    simp only [List.forall_mem_cons, UInt8.toNat_ofNat', List.not_mem_nil, false_implies,
      implies_true, and_true]
    omega

/-- An ASCII byte in the encoding of a character is that character. -/
theorem eq_of_ascii_mem {a c : Char} (ha : a.toNat < 128)
    (h : ascii a ∈ String.utf8EncodeChar c) : c = a := by
  by_cases hc : c.toNat < 128
  · rw [utf8EncodeChar_of_lt hc, List.mem_singleton] at h
    exact ascii_inj hc ha h.symm
  · have hle := le_of_mem_utf8EncodeChar (Nat.le_of_not_lt hc) _ h
    rw [toNat_ascii ha] at hle
    omega

end Json
end TraceTimeline
