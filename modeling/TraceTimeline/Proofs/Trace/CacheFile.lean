import TraceTimeline.Proofs.Trace.BaseName
import TraceTimeline.Proofs.Trace.CacheDirectory

/-!
# The names of cache files

A cache file is told by its name alone: `mmap-`, then something, then `.dat`. The name is not cut
apart to see this. It has to be long enough, begin with the one and end with the other, and as the
two ends have no character in common they cannot overlap. Main statement: the files that are
recognised are exactly those that follow the convention, in whatever directory.
-/

namespace TraceTimeline

namespace Text

variable {c : Char} {front tail s : List Char}

/-- A piece at the end of a text does not reach into a front without its first character. -/
theorem suffix_of_suffix_append (hc : c ∉ front) (h : c :: tail <:+ front ++ s) :
    c :: tail <:+ s := by
  induction front with
  | nil => exact h
  | cons d front ih =>
      rw [List.mem_cons, not_or] at hc
      rcases List.suffix_cons_iff.mp h with heq | h
      · exact absurd (List.cons.inj heq).1 hc.1
      · exact ih hc.2 h

/-- Two ends that cannot overlap have the rest of the text between them. -/
theorem exists_between (hc : c ∉ front) (hfront : front <+: s) (hback : c :: tail <:+ s) :
    ∃ middle, s = front ++ middle ++ c :: tail := by
  obtain ⟨rest, rfl⟩ := hfront
  obtain ⟨middle, rfl⟩ := suffix_of_suffix_append hc hback
  exact ⟨middle, (List.append_assoc _ _ _).symm⟩

end Text

namespace Trace

variable {identifier name : String}

theorem cacheBack_eq : cacheBack = '.' :: "dat".toList := by
  decide

theorem toList_cacheName (rank : String) :
    ("mmap-" ++ rank ++ ".dat").toList = cacheFront ++ rank.toList ++ cacheBack := by
  rw [String.toList_append, String.toList_append]
  rfl

/-- A name with both ends of a cache file has all the rest of it between them. -/
theorem hasCacheEnds_iff :
    cacheFront <+: name.toList ∧ cacheBack <:+ name.toList ↔
      ∃ rank, name = "mmap-" ++ rank ++ ".dat" := by
  constructor
  · rintro ⟨hfront, hback⟩
    rw [cacheBack_eq] at hback
    obtain ⟨middle, hname⟩ := Text.exists_between (by decide) hfront hback
    refine ⟨String.ofList middle, ?_⟩
    rw [← String.toList_inj, toList_cacheName, String.toList_ofList, hname, cacheBack_eq]
  · rintro ⟨rank, rfl⟩
    rw [toList_cacheName]
    exact ⟨(List.prefix_append _ _).trans (List.prefix_append _ _), List.suffix_append _ _⟩

/-- A name with both ends is longer than the two together exactly if there is something between them.
-/
theorem lt_length_iff (rank : String) :
    cacheFront.length + cacheBack.length < ("mmap-" ++ rank ++ ".dat").toList.length ↔
      rank ≠ "" := by
  rw [toList_cacheName, List.length_append, List.length_append, ne_eq, ← String.toList_eq_nil_iff,
    ← List.length_eq_zero_iff]
  omega

/-- The same with bytes in the place of characters. -/
theorem lt_utf8ByteSize_iff (rank : String) :
    "mmap-".utf8ByteSize + ".dat".utf8ByteSize < ("mmap-" ++ rank ++ ".dat").utf8ByteSize ↔
      rank ≠ "" := by
  rw [String.utf8ByteSize_append, String.utf8ByteSize_append, ne_eq, ← String.utf8ByteSize_eq_zero_iff]
  omega

theorem isCacheFile_iff_baseName :
    isCacheFile identifier = true ↔
      ∃ rank, rank ≠ "" ∧ baseName identifier = "mmap-" ++ rank ++ ".dat" := by
  unfold isCacheFile
  dsimp only
  rw [Bool.and_eq_true, Bool.and_eq_true, decide_eq_true_iff, List.isPrefixOf_iff_prefix,
    List.isSuffixOf_iff_suffix, and_assoc, hasCacheEnds_iff]
  constructor
  · rintro ⟨hlength, rank, hname⟩
    rw [hname] at hlength
    exact ⟨rank, (lt_length_iff rank).mp hlength, hname⟩
  · rintro ⟨rank, hrank, hname⟩
    refine ⟨?_, rank, hname⟩
    rw [hname]
    exact (lt_length_iff rank).mpr hrank

/-! ## The convention -/

/-- The convention for cache files: `mmap-` and `.dat`, and between them something without a slash, in
a directory that is left out or ends in a slash. -/
def IsCacheName (identifier : String) : Prop :=
  ∃ directory rank, IsDirectory directory ∧ rank ≠ "" ∧ '/' ∉ rank.toList ∧
    identifier = directory ++ "mmap-" ++ rank ++ ".dat"

theorem isLastComponent_iff_exists_directory :
    IsLastComponent identifier name ↔
      '/' ∉ name.toList ∧ ∃ directory, IsDirectory directory ∧ identifier = directory ++ name := by
  refine and_congr_right fun _ => ?_
  constructor
  · rintro (rfl | ⟨above, rfl⟩)
    · exact ⟨"", .inl rfl, String.empty_append.symm⟩
    · exact ⟨above ++ "/", .inr ⟨above, rfl⟩, rfl⟩
  · rintro ⟨directory, rfl | ⟨above, rfl⟩, rfl⟩
    · exact .inl String.empty_append
    · exact .inr ⟨above, rfl⟩

theorem slash_mem_cacheName_iff (rank : String) :
    '/' ∈ ("mmap-" ++ rank ++ ".dat").toList ↔ '/' ∈ rank.toList := by
  have hfront : '/' ∉ cacheFront := by decide
  have hback : '/' ∉ cacheBack := by decide
  rw [toList_cacheName, List.mem_append, List.mem_append]
  simp only [hfront, hback, false_or, or_false]

theorem isCacheFile_iff_isCacheName : isCacheFile identifier = true ↔ IsCacheName identifier := by
  rw [isCacheFile_iff_baseName]
  constructor
  · rintro ⟨rank, hrank, hname⟩
    obtain ⟨hslash, directory, hdirectory, hidentifier⟩ :=
      isLastComponent_iff_exists_directory.mp (isLastComponent_iff.mpr hname)
    refine ⟨directory, rank, hdirectory, hrank, mt (slash_mem_cacheName_iff rank).mpr hslash, ?_⟩
    rw [hidentifier, ← String.append_assoc, ← String.append_assoc]
  · rintro ⟨directory, rank, hdirectory, hrank, hslash, rfl⟩
    refine ⟨rank, hrank, isLastComponent_iff.mp (isLastComponent_iff_exists_directory.mpr
      ⟨mt (slash_mem_cacheName_iff rank).mp hslash, directory, hdirectory, ?_⟩)⟩
    rw [← String.append_assoc, ← String.append_assoc]

/-- **Which files are cache files.** A file is recognised exactly if it follows the convention, and it
is drawn on the first track if it does and on the second if not, whatever the shared file of the run
may be. The length that is asked for may be counted in bytes as well. Nothing in front of the last
slash makes a difference. -/
theorem isCacheFile_iff_convention (identifier : String) :
    (isCacheFile identifier = true ↔ IsCacheName identifier) ∧
      (isCacheFile identifier = true ↔
        "mmap-".utf8ByteSize + ".dat".utf8ByteSize < (baseName identifier).utf8ByteSize ∧
          "mmap-".toList <+: (baseName identifier).toList ∧
          ".dat".toList <:+ (baseName identifier).toList) ∧
      (∀ classifier : Classifier,
        ((classifier.layer identifier).track = 0 ↔ IsCacheName identifier) ∧
          ((classifier.layer identifier).track = 1 ↔ ¬ IsCacheName identifier)) ∧
      ∀ other name, IsLastComponent identifier name → IsLastComponent other name →
        isCacheFile identifier = isCacheFile other ∧
          ∀ classifier : Classifier, classifier.layer identifier = classifier.layer other := by
  refine ⟨isCacheFile_iff_isCacheName, ?_, fun classifier => ?_, fun other name hname hother => ?_⟩
  · rw [isCacheFile_iff_baseName]
    refine Iff.trans ?_ (and_congr_right fun _ => hasCacheEnds_iff.symm)
    constructor
    · rintro ⟨rank, hrank, hname⟩
      rw [hname]
      exact ⟨(lt_utf8ByteSize_iff rank).mpr hrank, rank, rfl⟩
    · rintro ⟨hlength, rank, hname⟩
      rw [hname] at hlength
      exact ⟨rank, (lt_utf8ByteSize_iff rank).mp hlength, hname⟩
  · rw [track_layer, ← isCacheFile_iff_isCacheName]
    cases isCacheFile identifier
    · exact ⟨by decide, by decide⟩
    · exact ⟨by decide, by decide⟩
  · have heq : isCacheFile identifier = isCacheFile other := by
      rw [isCacheFile_eq_of_isLastComponent hname, isCacheFile_eq_of_isLastComponent hother]
    refine ⟨heq, fun classifier => ?_⟩
    rw [Classifier.layer, Classifier.layer, heq]

/-- What stands for the rank may itself be the name of a cache file, with letters of more than one
byte, and behind any number of slashes. -/
theorem cache_file_within_its_rank :
    let name := "mmap-mmap-é.dat.dat"
    let identifier := "//é//" ++ name
    IsLastComponent identifier name ∧ IsLastComponent name name ∧ IsCacheName identifier ∧
      isCacheFile identifier = isCacheFile name := by
  intro name identifier
  have hidentifier : IsLastComponent identifier name :=
    ⟨by decide +kernel, .inr ⟨"//é/", by decide⟩⟩
  have hname : IsLastComponent name name := ⟨by decide +kernel, .inl rfl⟩
  obtain ⟨hiff, -, -, hsame⟩ := isCacheFile_iff_convention identifier
  exact ⟨hidentifier, hname, hiff.mp (by decide +kernel), (hsame name name hidentifier hname).1⟩

end Trace
end TraceTimeline
