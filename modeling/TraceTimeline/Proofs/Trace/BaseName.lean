import TraceTimeline.Trace.Layer

/-!
# The last component of a file identifier

`baseName` cuts an identifier at its slashes and takes the last piece. Said without cutting: the
base name holds no slash, and in front of it there is nothing or a slash. Whether an identifier
names a cache file is a matter of its base name alone.
-/

namespace TraceTimeline

namespace Text

theorem afterLast_of_not_mem {separator : Char} {s : List Char} (h : separator ∉ s) :
    afterLast separator s = s := by
  rw [afterLast, List.splitOn_eq_singleton h]
  rfl

theorem afterLast_append_cons {separator : Char} {s : List Char} (front : List Char)
    (h : separator ∉ s) : afterLast separator (front ++ separator :: s) = s := by
  rw [afterLast, List.splitOn_append_cons_self, List.splitOn_eq_singleton h]
  simp

/-- A text with a separator in it can be cut at the last one. -/
theorem exists_last_separator {separator : Char} {s : List Char} (h : separator ∈ s) :
    ∃ front back, s = front ++ separator :: back ∧ separator ∉ back := by
  obtain ⟨back, front, hs, hback⟩ := List.eq_append_cons_of_mem (List.mem_reverse.mpr h)
  refine ⟨front.reverse, back.reverse, ?_, fun hmem => hback (List.mem_reverse.mp hmem)⟩
  rw [← List.reverse_reverse s, hs]
  simp

end Text

namespace Trace

/-- `name` is what stands behind the last slash of an identifier, and all of it where there is no
slash. -/
def IsLastComponent (identifier name : String) : Prop :=
  '/' ∉ name.toList ∧
    (identifier = name ∨ ∃ directory, identifier = directory ++ "/" ++ name)

theorem IsLastComponent.isSuffix {identifier name : String} (h : IsLastComponent identifier name) :
    name.toList <:+ identifier.toList := by
  obtain ⟨-, rfl | ⟨directory, rfl⟩⟩ := h
  · exact List.suffix_rfl
  · rw [String.toList_append]
    exact List.suffix_append _ _

theorem isLastComponent_baseName (identifier : String) :
    IsLastComponent identifier (baseName identifier) := by
  by_cases h : '/' ∈ identifier.toList
  · obtain ⟨front, back, hs, hback⟩ := Text.exists_last_separator h
    have hname : baseName identifier = String.ofList back := by
      rw [baseName, hs, Text.afterLast_append_cons front hback]
    rw [hname]
    refine ⟨by simpa using hback, Or.inr ⟨String.ofList front, ?_⟩⟩
    rw [← String.toList_inj]
    simp [hs]
  · have hname : baseName identifier = identifier := by
      rw [baseName, Text.afterLast_of_not_mem h, String.ofList_toList]
    rw [hname]
    exact ⟨h, Or.inl rfl⟩

theorem baseName_eq_of_isLastComponent {identifier name : String}
    (h : IsLastComponent identifier name) : baseName identifier = name := by
  obtain ⟨hn, rfl | ⟨directory, rfl⟩⟩ := h
  · rw [baseName, Text.afterLast_of_not_mem hn, String.ofList_toList]
  · have hs : (directory ++ "/" ++ name).toList = directory.toList ++ '/' :: name.toList := by
      simp
    rw [baseName, hs, Text.afterLast_append_cons _ hn, String.ofList_toList]

theorem isLastComponent_iff {identifier name : String} :
    IsLastComponent identifier name ↔ baseName identifier = name :=
  ⟨baseName_eq_of_isLastComponent, fun h => h ▸ isLastComponent_baseName identifier⟩

/-- The directories in front of a name do not tell whether it is a cache file. -/
theorem isCacheFile_eq_of_isLastComponent {identifier name : String}
    (h : IsLastComponent identifier name) : isCacheFile identifier = isCacheFile name := by
  have hname : baseName name = name := baseName_eq_of_isLastComponent ⟨h.1, Or.inl rfl⟩
  rw [isCacheFile, isCacheFile, baseName_eq_of_isLastComponent h, hname]

theorem layer_eq_cacheLocal_iff {classifier : Classifier} {identifier : String} :
    classifier.layer identifier = .cacheLocal ↔ isCacheFile identifier = true := by
  rw [Classifier.layer]
  split <;> simp_all

/-- Cache files are drawn on the first track and all other files on the second, whatever the shared
file of the run may be. -/
theorem track_layer (classifier : Classifier) (identifier : String) :
    (classifier.layer identifier).track = if isCacheFile identifier = true then 0 else 1 := by
  rw [Classifier.layer]
  split <;> rfl

end Trace
end TraceTimeline
