import TraceTimeline.Command.Conversion
import TraceTimeline.Proofs.Timeline.InOrder
import TraceTimeline.Proofs.Trace.Description

/-!
# What a scan hands on

Whatever is in a text, the records of its scan are usable: their times are finite and in order, and
their module, operation and file are words. The shared file that the headers tell of is a bare file
name, such as may also be given on the command line. The invariant behind both is `Scan.IsSound`,
which every line preserves. Main statement: this holds of everything that a scan hands on, and the
shared file is recognised under the path that it was last told of by.
-/

namespace TraceTimeline

namespace Trace

open Text

theorem isWord_of_isField {line text : String} {place : Nat} (h : IsField line place text) :
    IsWord text.toList := by
  obtain ⟨fields, hfields, hplace⟩ := h
  exact hfields.isWord (List.mem_map_of_mem (List.mem_of_getElem? hplace))

/-- A record as everything downstream may rely on it. -/
structure Record.IsSound (record : Record) : Prop where
  isTimed : record.IsTimed
  ioModule : IsWord record.ioModule.toList
  operation : IsWord record.operation.toList
  file : IsWord record.file.toList

theorem Record.isSound_of_ofLine {line file : String} {record : Record}
    (h : ofLine line file = .ok record) (hfile : IsWord file.toList) : record.IsSound := by
  obtain ⟨⟨rank, segment, offset, length, start, stop, more, hfields, -⟩, rfl⟩ :=
    ((checks_ofLine line file).of_ok record h).2
  have hmodule : IsField line 0 record.ioModule := ⟨_, hfields, rfl⟩
  have hoperation : IsField line 2 record.operation := ⟨_, hfields, rfl⟩
  exact ⟨isTimed_of_ofLine h, isWord_of_isField hmodule, isWord_of_isField hoperation, hfile⟩

structure IsBareWord (name : String) : Prop where
  isWord : IsWord name.toList
  slash_not_mem : '/' ∉ name.toList

variable {identifier name : String}

/-- An identifier that ends like a shared file does not end in a slash. -/
theorem IsLastComponent.ne_empty (h : IsLastComponent identifier name)
    (hback : "h5".toList <:+ identifier.toList) : name ≠ "" := by
  rintro rfl
  obtain ⟨front, hfront⟩ := hback
  have hlast : identifier.toList.getLast? = some '5' := by
    rw [← hfront, List.getLast?_append]
    rfl
  obtain ⟨-, rfl | ⟨directory, rfl⟩⟩ := h
  · cases hlast
  · rw [String.append_empty, String.toList_append, List.getLast?_append] at hlast
    exact absurd (Option.some.inj hlast) (by decide)

/-- What an identifier without blanks tells of is a bare word. -/
theorem TellsOf.isBareWord (h : TellsOf identifier name) (hword : IsWord identifier.toList) :
    IsBareWord name := by
  cases h with
  | cached _ hparent hbefore hne =>
      have hfront := hbefore.isPrefix
      obtain ⟨hslash, hpart⟩ := hparent.isInfix
      refine ⟨⟨mt String.toList_eq_nil_iff.mp hne, fun c hc => ?_⟩, fun h => ?_⟩
      · exact hword.not_isBlank c (hpart.subset (hfront.subset hc))
      · exact hslash (hfront.subset h)
  | shared _ hback hlast =>
      refine ⟨⟨mt String.toList_eq_nil_iff.mp (hlast.ne_empty hback), fun c hc => ?_⟩, hlast.1⟩
      exact hword.not_isBlank c (hlast.isSuffix.subset hc)

/-! ## What every line preserves -/

structure Scan.IsSound (scan : Scan) : Prop where
  currentFile : ∀ file, scan.currentFile = some file → IsWord file.toList
  records : ∀ record ∈ scan.records.toList, record.IsSound
  primaryFile : ∀ name, scan.metadata.primaryFile = some name → IsBareWord name

theorem sixthWord?_of_classify {line : String} {block : Block} {file? : Option String}
    (h : Line.classify line block = .sectionHeader file?) : file? = sixthWord? line := by
  by_cases hheader : IsSectionHeader line
  · rw [classify_of_isSectionHeader hheader] at h
    exact (Line.sectionHeader.inj h).symm
  · by_cases hb : IsBoundary line
    · rcases hb with hb | hs | hc
      · rw [classify_of_isBlankLine hb] at h
        cases h
      · exact absurd hs hheader
      · rw [classify_of_isColumnHeader hc] at h
        cases h
    · rw [classify_of_not_isBoundary hb] at h
      cases block with
      | inside => cases h
      | outside =>
          cases hentry : Line.keyValue? line.toList <;> rw [hentry] at h <;> cases h

namespace Scan.IsSound

variable {scan : Scan} {line : String}

theorem start : Scan.IsSound {} where
  currentFile := nofun
  records := nofun
  primaryFile := nofun

/-- A section is entered with a file that is a word, and perhaps with a shared file. -/
theorem enterSection (h : scan.IsSound) {file : String} (hfile : IsWord file.toList) :
    (scan.enterSection file).IsSound where
  currentFile := by
    rintro _ ⟨⟩
    exact hfile
  records := h.records
  primaryFile name hname := by
    rcases Option.or_eq_some_iff.mp hname with htold | ⟨-, hbefore⟩
    · exact (sharedFile?_eq_some_iff.mp htold).isBareWord hfile
    · exact h.primaryFile name hbefore

theorem takeData (h : scan.IsSound) (line : String) : (scan.takeData line).IsSound where
  currentFile := by
    rw [Scan.takeData_currentFile]
    exact h.currentFile
  records := by
    rw [Scan.takeData_records, List.forall_mem_append]
    refine ⟨h.records, fun record hrecord => ?_⟩
    obtain ⟨file, hfile, hread⟩ := Option.bind_eq_some_iff.mp (Option.mem_toList.mp hrecord)
    cases hline : Record.ofLine line file with
    | error fault =>
        rw [hline] at hread
        cases hread
    | ok other =>
        rw [hline] at hread
        obtain rfl := Option.some.inj hread
        exact Record.isSound_of_ofLine hline (h.currentFile file hfile)
  primaryFile := by
    rw [Scan.takeData_metadata]
    exact h.primaryFile

/-- Whatever the next line is, what has been gathered stays sound. -/
theorem step (h : scan.IsSound) (line : String) : (scan.step line).IsSound := by
  have hcounted : Scan.IsSound { scan with lineCount := scan.lineCount + 1 } :=
    ⟨h.currentFile, h.records, h.primaryFile⟩
  rw [Scan.step]
  cases hkind : Line.classify line scan.block with
  | blank => exact ⟨h.currentFile, h.records, h.primaryFile⟩
  | columnHeader => exact ⟨h.currentFile, h.records, h.primaryFile⟩
  | ignored => exact hcounted
  | metadata key value => exact ⟨h.currentFile, h.records, h.primaryFile⟩
  | data => exact hcounted.takeData line
  | sectionHeader file? =>
      cases file? with
      | none =>
          refine ⟨?_, h.records, h.primaryFile⟩
          intro file hfile
          cases hfile
      | some file =>
          have hfield : IsField line 5 file := isField_iff.mpr (sixthWord?_of_classify hkind).symm
          exact hcounted.enterSection (isWord_of_isField hfield)

theorem foldl (h : scan.IsSound) (lines : List String) : (lines.foldl Scan.step scan).IsSound := by
  induction lines generalizing scan with
  | nil => exact h
  | cons line lines ih => exact ih (h.step line)

end Scan.IsSound

/-- A section header with a file that tells of a shared file. -/
def Introduces (header identifier : String) : Prop :=
  IsSectionHeader header ∧ IsField header 5 identifier ∧ ∃ name, TellsOf identifier name

/-- The shared file is the one that the last such header tells of. -/
theorem primaryFile_of_introduces {lines : List String}
    (h : LastGives (fun _ header identifier => Introduces header identifier) lines identifier)
    (hname : TellsOf identifier name) : (ofLines lines).metadata.primaryFile = some name := by
  obtain ⟨front, header, hfront, ⟨hheader, hfield, -⟩, hlast⟩ := h
  have hgives : LastGives (fun _ header name => NamesShared header name) lines name := by
    refine ⟨front, header, hfront, ⟨hheader, identifier, hfield, hname⟩, ?_⟩
    rintro front' header' name' hfront' ⟨hheader', identifier', hfield', hname'⟩
    exact hlast front' header' identifier' hfront' ⟨hheader', hfield', name', hname'⟩
  exact (@lastGives_of_step String _ lines name (fun scan => scan.metadata.primaryFile) rfl
    fun _ _ _ => Scan.step_primaryFile).mpr hgives

theorem isPrimary_iff :
    Classifier.isPrimary ⟨some name⟩ identifier = true ↔ baseName identifier = name := by
  rw [Classifier.isPrimary, beq_iff_eq, Option.some_inj, eq_comm]

/-- A file that is no cache file is recognised as the shared file that it told of. -/
theorem isPrimary_of_introduces {lines : List String}
    (h : LastGives (fun _ header identifier => Introduces header identifier) lines identifier)
    (hcache : ¬ "-cache/mmap-".toList <:+: identifier.toList) :
    Classifier.isPrimary ⟨(ofLines lines).metadata.primaryFile⟩ identifier = true := by
  obtain ⟨name, hname⟩ : ∃ name, TellsOf identifier name := by
    obtain ⟨_, _, _, ⟨-, -, htells⟩, -⟩ := h
    exact htells
  rw [primaryFile_of_introduces h hname, isPrimary_iff]
  cases hname with
  | cached hmarker => exact absurd hmarker hcache
  | shared _ _ hlast => exact baseName_eq_of_isLastComponent hlast

end Trace

/-! ## The name on the command line -/

/-- A bare word is never the reason to refuse a conversion. -/
theorem Conversion.validate_of_isBareWord {name : String} (h : Trace.IsBareWord name)
    (conversion : Conversion) :
    { conversion with primaryFile := some name }.validate =
      { conversion with primaryFile := none }.validate := by
  have hbare : isBareName name = true := by
    rw [isBareName, Bool.and_eq_true, decide_eq_true_iff, decide_eq_true_iff]
    exact ⟨mt String.toList_eq_nil_iff.mpr h.isWord.ne_nil, h.slash_not_mem⟩
  unfold Conversion.validate
  dsimp only
  rw [Option.all_some, Option.all_none, hbare]

namespace Trace

/-- **What a scan hands on is sound.** The records of a text have finite times in order, and a module,
an operation and a file that are words. The shared file, if any is known, is a bare word: a conversion
is not refused for it, and it is recognised under every path that ends in it and under no other. So
it is recognised under the path that it was last told of by, unless that is the path of its cache. -/
theorem isSound_ofText (text : String) :
    let lines := (Text.lines text.toList).map String.ofList
    (∀ record ∈ (ofText text).records, record.IsSound) ∧
      (∀ name, (ofText text).metadata.primaryFile = some name →
        IsBareWord name ∧
          (∀ conversion : Conversion, { conversion with primaryFile := some name }.validate =
            { conversion with primaryFile := none }.validate) ∧
          ∀ identifier, Classifier.isPrimary ⟨some name⟩ identifier = true ↔
            identifier = name ∨ ∃ directory, identifier = directory ++ "/" ++ name) ∧
      ∀ identifier,
        LastGives (fun _ header identifier => Introduces header identifier) lines identifier →
        ¬ "-cache/mmap-".toList <:+: identifier.toList →
        Classifier.isPrimary ⟨(ofText text).metadata.primaryFile⟩ identifier = true := by
  intro lines
  have hsound : (lines.foldl Scan.step {}).IsSound := Scan.IsSound.start.foldl lines
  refine ⟨hsound.records, fun name hname => ?_, fun identifier => isPrimary_of_introduces⟩
  have hbare : IsBareWord name := hsound.primaryFile name hname
  refine ⟨hbare, Conversion.validate_of_isBareWord hbare, fun identifier => ?_⟩
  rw [isPrimary_iff, ← isLastComponent_iff]
  exact and_iff_right hbare.slash_not_mem

/-- A cache file tells of `a`, and further down a shared file in a directory with an empty name tells
of `b.h5`, which counts. -/
theorem sound_trace_of_two_files :
    let text := "# DXT, file_id: 1, file_name: /n/a-cache/mmap-0.dat\n" ++
      "# DXT, file_id: 2, file_name: /l//b.h5\n# Module Rank\nX_POSIX 0 write 0 0 8 0.5 0.5\n"
    let lines := (Text.lines text.toList).map String.ofList
    (∃ record ∈ (ofText text).records, record.IsSound) ∧
      (ofText text).metadata.primaryFile = some "b.h5" ∧ IsBareWord "b.h5" ∧
      LastGives (fun _ header identifier => Introduces header identifier) lines "/l//b.h5" ∧
      ¬ "-cache/mmap-".toList <:+: "/l//b.h5".toList ∧
      Classifier.isPrimary ⟨(ofText text).metadata.primaryFile⟩ "/l//b.h5" = true := by
  intro text lines
  have hlines : lines =
      ["# DXT, file_id: 1, file_name: /n/a-cache/mmap-0.dat"] ++
        ["# DXT, file_id: 2, file_name: /l//b.h5"] ++ ["# Module Rank"] ++
        ["X_POSIX 0 write 0 0 8 0.5 0.5"] := by
    decide +kernel
  have hheader : Introduces "# DXT, file_id: 2, file_name: /l//b.h5" "/l//b.h5" :=
    ⟨by decide +kernel, isField_iff.mpr (by decide +kernel), "b.h5",
      sharedFile?_eq_some_iff.mp (by decide +kernel)⟩
  have hcolumns : ¬ IsSectionHeader "# Module Rank" := by decide +kernel
  have hdata : ¬ IsSectionHeader "X_POSIX 0 write 0 0 8 0.5 0.5" := by decide +kernel
  have hlast : LastGives (fun _ header identifier => Introduces header identifier) lines
      "/l//b.h5" := by
    rw [hlines]
    refine lastGives_snoc.mpr (.inr ⟨fun _ h => hdata h.1, ?_⟩)
    refine lastGives_snoc.mpr (.inr ⟨fun _ h => hcolumns h.1, ?_⟩)
    exact lastGives_snoc.mpr (.inl hheader)
  obtain ⟨hname, hcount⟩ : (ofText text).metadata.primaryFile = some "b.h5" ∧
      0 < (ofText text).records.length := by
    decide +kernel
  have hcache : ¬ "-cache/mmap-".toList <:+: "/l//b.h5".toList :=
    mt Text.contains_iff_infix.mpr (by decide +kernel)
  obtain ⟨hsound, hshared, hpath⟩ := isSound_ofText text
  obtain ⟨record, hrecord⟩ := List.exists_mem_of_length_pos hcount
  exact ⟨⟨record, hrecord, hsound record hrecord⟩, hname, (hshared "b.h5" hname).1, hlast, hcache,
    hpath "/l//b.h5" hlast hcache⟩

end Trace
end TraceTimeline
