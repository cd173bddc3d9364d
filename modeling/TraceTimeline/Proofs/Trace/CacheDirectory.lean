import TraceTimeline.Proofs.Trace.Description

/-!
# The shared file behind a cache directory

The cache of a shared file `name` lives in a directory `name-cache`. The way back from the directory
to the shared file is to cut its name at the first `-cache`, not to take the one off that it ends
with. Main statement: so the shared file is found again exactly if its own name holds no `-cache`;
if it does, what stands in front of the first one is taken for the shared file.
-/

namespace TraceTimeline

namespace Text

variable {c : Char} {tail s front : List Char}

/-- A piece whose first character does not come again in it does not overlap itself. -/
theorem piece_isPrefix_of_append (hc : c ∉ tail) {between after : List Char} (hne : between ≠ [])
    (h : between ++ c :: tail = c :: tail ++ after) : c :: tail <+: between := by
  obtain ⟨d, between, rfl⟩ := List.exists_cons_of_ne_nil hne
  obtain ⟨rfl, h⟩ := List.cons.inj h
  rcases Nat.lt_or_ge between.length tail.length with hshort | hlong
  · have hinside : between ++ [d] <+: tail := by
      refine List.prefix_of_prefix_length_le (⟨tail, by simpa using h⟩ : _ <+: tail ++ after)
        (List.prefix_append _ _) ?_
      simpa using Nat.succ_le_of_lt hshort
    exact absurd (hinside.subset (by simp)) hc
  · have htail : tail <+: between :=
      List.prefix_of_prefix_length_le ⟨after, h.symm⟩ (List.prefix_append _ _) hlong
    exact List.cons_prefix_cons.mpr ⟨rfl, htail⟩

/-- **A piece that is put behind a text does not come to lie further to the front.** If the first
character of the piece is not in the rest of it, no occurrence can reach across the seam. -/
theorem IsBefore.append_piece (hc : c ∉ tail) (h : IsBefore (c :: tail) s front) :
    IsBefore (c :: tail) (s ++ c :: tail) front := by
  rcases h with ⟨after, rfl, hfirst⟩ | ⟨hnone, rfl⟩
  · refine .inl ⟨after ++ c :: tail, by simp, fun front' after' heq => ?_⟩
    by_contra hlt
    rw [Nat.not_le] at hlt
    -- An occurrence further to the front ends within the text.
    have hinside : front' ++ (c :: tail) <+: front ++ (c :: tail) ++ after := by
      refine List.prefix_of_prefix_length_le (⟨after', heq.symm⟩ : _ <+: _)
        (List.prefix_append _ (c :: tail)) ?_
      simp only [List.length_append]
      omega
    obtain ⟨between, hbetween⟩ := hinside
    have hle := hfirst front' between hbetween.symm
    omega
  · refine .inl ⟨[], by simp, fun front' after' heq => ?_⟩
    by_contra hlt
    rw [Nat.not_le] at hlt
    rw [List.append_assoc, List.cons_append] at heq
    obtain ⟨between, rfl⟩ : front' <+: front :=
      List.prefix_of_prefix_length_le ⟨_, heq.symm⟩ (List.prefix_append _ _) hlt.le
    rw [List.append_assoc, List.append_cancel_left_eq] at heq
    have hne : between ≠ [] := by
      rintro rfl
      simp at hlt
    obtain ⟨more, rfl⟩ := piece_isPrefix_of_append hc hne heq
    exact hnone ⟨front', more, by simp⟩

end Text

namespace Trace

/-- The file that the cache keeps for a shared file and a rank, in a directory that is left out or
ends in a slash. -/
def cacheFileOf (directory name rank : String) : String :=
  directory ++ name ++ "-cache/mmap-" ++ rank ++ ".dat"

def IsDirectory (directory : String) : Prop :=
  directory = "" ∨ ∃ front, directory = front ++ "/"

variable {directory name rank line front : String}

theorem cacheMarker_infix_cacheFileOf (directory name rank : String) :
    cacheMarker <:+: (cacheFileOf directory name rank).toList := by
  rw [cacheMarker_eq]
  exact ⟨(directory ++ name).toList, (rank ++ ".dat").toList, by simp [cacheFileOf]⟩

theorem parentName_cacheFileOf (hdirectory : IsDirectory directory) (hname : '/' ∉ name.toList)
    (hrank : '/' ∉ rank.toList) :
    parentName (cacheFileOf directory name rank) = name ++ "-cache" := by
  have hsplit : cacheFileOf directory name rank =
      (directory ++ (name ++ "-cache")) ++ "/" ++ ("mmap-" ++ rank ++ ".dat") := by
    rw [← String.toList_inj]
    simp [cacheFileOf]
  have hlast : '/' ∉ ("mmap-" ++ rank ++ ".dat").toList := by simpa using hrank
  have hparent : '/' ∉ (name ++ "-cache").toList := by simpa using hname
  rw [hsplit, parentName_append _ hlast]
  refine baseName_eq_of_isLastComponent ⟨hparent, ?_⟩
  rcases hdirectory with rfl | ⟨above, rfl⟩
  · exact .inl String.empty_append
  · exact .inr ⟨above, rfl⟩

/-- Of a file in the cache directory of `name` the shared file is what stands in front of the first
`-cache` in `name`, and all of `name` if there is none. -/
theorem sharedFile?_cacheFileOf (hdirectory : IsDirectory directory) (hname : '/' ∉ name.toList)
    (hrank : '/' ∉ rank.toList) (hfront : Text.IsBefore "-cache".toList name.toList front.toList) :
    sharedFile? (cacheFileOf directory name rank) = if front = "" then none else some front := by
  have hbefore : Text.before cacheDirectoryBack
      (parentName (cacheFileOf directory name rank)).toList = front.toList := by
    rw [parentName_cacheFileOf hdirectory hname hrank, String.toList_append]
    exact Text.before_eq_iff.mpr (hfront.append_piece (by decide))
  ext found
  rw [sharedFile?_of_cached (cacheMarker_infix_cacheFileOf directory name rank), hbefore,
    String.toList_inj, Option.ite_none_left_eq_some, Option.some_inj]
  constructor
  · rintro ⟨hne, rfl⟩
    exact ⟨hne, rfl⟩
  · rintro ⟨hne, rfl⟩
    exact ⟨hne, rfl⟩

/-- What the next header tells of, where it names a file in the cache directory of `name`. -/
theorem Scan.step_primaryFile_of_cacheFile (hline : IsSectionHeader line)
    (hfield : IsField line 5 (cacheFileOf directory name rank)) (hdirectory : IsDirectory directory)
    (hname : '/' ∉ name.toList) (hrank : '/' ∉ rank.toList)
    (hfront : Text.IsBefore "-cache".toList name.toList front.toList) (scan : Scan) :
    (scan.step line).metadata.primaryFile =
      if front = "" then scan.metadata.primaryFile else some front := by
  have hword : sixthWord? line = some (cacheFileOf directory name rank) := isField_iff.mp hfield
  rw [Scan.step_primaryFile_of_isSectionHeader hline, hword, Option.bind_some,
    sharedFile?_cacheFileOf hdirectory hname hrank hfront]
  split <;> simp

theorem Classifier.isPrimary_of_isLastComponent {identifier : String}
    (h : IsLastComponent identifier name) : Classifier.isPrimary ⟨some name⟩ identifier = true := by
  rw [Classifier.isPrimary, baseName_eq_of_isLastComponent h, beq_self_eq_true]

/-- **Which shared files are found again behind their cache.** A section header that names a file in
the cache directory of `name` makes what stands in front of the first `-cache` in `name` the shared
file, and leaves the shared file as it was where nothing stands there. So it is `name` behind every
such header exactly if `name` holds no `-cache`. Whoever knows that `name` is the shared file finds it
under every path that ends in it. -/
theorem Scan.step_cacheHeader (hline : IsSectionHeader line)
    (hfield : IsField line 5 (cacheFileOf directory name rank)) (hdirectory : IsDirectory directory)
    (hname : name ≠ "" ∧ '/' ∉ name.toList) (hrank : '/' ∉ rank.toList) :
    (∀ (scan : Scan) (front : String),
      Text.IsBefore "-cache".toList name.toList front.toList →
        (scan.step line).metadata.primaryFile =
          if front = "" then scan.metadata.primaryFile else some front) ∧
      ((∀ scan : Scan, (scan.step line).metadata.primaryFile = some name) ↔
        ¬ "-cache".toList <:+: name.toList) ∧
      ∀ path, Classifier.isPrimary ⟨some name⟩ (path ++ "/" ++ name) = true := by
  have hstep := fun (scan : Scan) (front : String)
      (hfront : Text.IsBefore "-cache".toList name.toList front.toList) =>
    Scan.step_primaryFile_of_cacheFile hline hfield hdirectory hname.2 hrank hfront scan
  refine ⟨hstep, ⟨fun hall hcache => ?_, fun hfree scan => ?_⟩, fun path => ?_⟩
  · -- A fresh scan knows no shared file, and what it finds is shorter than the name.
    obtain ⟨⟨front, after⟩, hcut⟩ :=
      Option.isSome_iff_exists.mp (Text.contains_iff_infix.mpr hcache)
    have hfirst := Text.cutsFirst_of_cut hcut
    have hfound := hall {}
    rw [hstep {} (String.ofList front) (.inl ⟨after, by simpa using hfirst⟩),
      Option.ite_none_left_eq_some] at hfound
    obtain ⟨-, heq⟩ := hfound
    have hlength := congrArg List.length hfirst.1
    rw [← Option.some.inj heq] at hlength
    simp at hlength
  · rw [hstep scan name (.inr ⟨hfree, rfl⟩), if_neg hname.1]
  · exact Classifier.isPrimary_of_isLastComponent ⟨hname.2, .inr ⟨path, rfl⟩⟩

/-- The cache of a shared file with the name `a-cache` is taken for the one of `a`. -/
theorem shared_file_with_cache_in_its_name :
    let line := "# DXT, file_id: 1, file_name: /x/a-cache-cache/mmap-0.dat"
    IsSectionHeader line ∧ IsField line 5 (cacheFileOf "/x/" "a-cache" "0") ∧
      (({} : Scan).step line).metadata.primaryFile = some "a" ∧
      ¬ ∀ scan : Scan, (scan.step line).metadata.primaryFile = some "a-cache" := by
  intro line
  have hline : IsSectionHeader line := by decide +kernel
  have hfield : IsField line 5 (cacheFileOf "/x/" "a-cache" "0") :=
    isField_iff.mpr (by decide +kernel)
  obtain ⟨hstep, hall, -⟩ := Scan.step_cacheHeader hline hfield (.inr ⟨"/x", by decide⟩)
    ⟨by decide, by decide⟩ (by decide)
  have hfront : Text.IsBefore "-cache".toList "a-cache".toList "a".toList :=
    Text.before_eq_iff.mp (by decide +kernel)
  have hcache : "-cache".toList <:+: "a-cache".toList :=
    Text.contains_iff_infix.mp (by decide +kernel)
  exact ⟨hline, hfield, (hstep {} "a" hfront).trans (if_neg (by decide)),
    fun hevery => hall.mp hevery hcache⟩

end Trace
end TraceTimeline
