/-!
# Texts as bytes

A file holds bytes, a program reads text. `Bytes.ofText` writes a text in UTF-8, and `Bytes.toText?`
accepts exactly what it writes.
-/

namespace TraceTimeline

/-- The content of a file or a stream. -/
abbrev Bytes := List UInt8

namespace Bytes

def ofText (s : String) : Bytes :=
  s.toByteArray.data.toList

/-- The text that these bytes spell in UTF-8, or `none` where they spell none. -/
def toText? (bytes : Bytes) : Option String :=
  String.fromUTF8? ⟨bytes.toArray⟩

/-- Bytes are read as a text exactly when they are what that text is written as. -/
theorem toText?_eq_some_iff {bytes : Bytes} {s : String} :
    toText? bytes = some s ↔ bytes = ofText s := by
  unfold toText? ofText String.fromUTF8?
  constructor
  · intro h
    split at h
    · cases h; rfl
    · cases h
  · rintro rfl
    have h : (⟨s.toByteArray.data.toList.toArray⟩ : ByteArray) = s.toByteArray := by simp
    rw [h, dif_pos s.isValidUTF8]
    rfl

@[simp] theorem toText?_ofText (s : String) : toText? (ofText s) = some s :=
  toText?_eq_some_iff.2 rfl

@[simp] theorem ofText_append (s t : String) : ofText (s ++ t) = ofText s ++ ofText t := by
  simp [ofText]

end Bytes
end TraceTimeline
