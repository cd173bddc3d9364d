import TraceTimeline.Proofs.Timeline.Usable
import TraceTimeline.Proofs.Trace.History

/-!
# Lines that are passed over

A data line that is refused, a line of metadata and a line that says nothing do not change what the
other lines mean. This is seen by scanning twice, once with the line and once without it: behind the
line the two scans stay abreast, in the same block and the same section, and gather the same. Main
statement: without the line a trace has the same records, shared file and diagnostics, apart from the
one of the line itself and from the numbers of the lines further down, and so the same timeline.
-/

namespace TraceTimeline.Trace

/-- A scan at this point passes over the line, and this is the fault that it reports if the line is a
data line that is refused. -/
inductive Scan.PassesOver (scan : Scan) (line : String) : Option LineFault → Prop
  | refused {fault : LineFault} : Line.classify line scan.block = .data →
      dataFault? scan.currentFile line = some fault → PassesOver scan line (some fault)
  | metadata {key value : String} : Line.classify line scan.block = .metadata key value →
      PassesOver scan line none
  | ignored : Line.classify line scan.block = .ignored → PassesOver scan line none

theorem Scan.step_of_refused {scan : Scan} {line : String} {fault : LineFault}
    (hkind : Line.classify line scan.block = .data)
    (hfault : dataFault? scan.currentFile line = some fault) :
    scan.step line = { scan with lineCount := scan.lineCount + 1 }.report fault := by
  rw [Scan.step, hkind]
  exact Scan.takeData_eq_report hfault

/-! ## Two scans abreast -/

def Diagnostic.oneDown (diagnostic : Diagnostic) : Diagnostic :=
  { diagnostic with line := diagnostic.line + 1 }

/-- A relation of metadata that outlasts what a scan does to them. -/
structure Metadata.Outlasting (agree : Metadata → Metadata → Prop) : Prop where
  insert {metadata metadata' : Metadata} (key value : String) : agree metadata metadata' →
    agree (metadata.insert key value) (metadata'.insert key value)
  noteFile {metadata metadata' : Metadata} (identifier : String) : agree metadata metadata' →
    agree (metadata.noteFile identifier) (metadata'.noteFile identifier)

/-- From `start` on, the scan `whole` has passed over one line more than the scan `rest`, for which it
has reported `fault?`. Their metadata agree, their diagnostics since then differ in the numbers of the
lines, and all else that they know is the same. -/
structure Scan.Abreast (agree : Metadata → Metadata → Prop) (start : Scan) (fault? : Option LineFault)
    (whole rest : Scan) : Prop where
  block : whole.block = rest.block
  currentFile : whole.currentFile = rest.currentFile
  lineCount : whole.lineCount = rest.lineCount + 1
  behind : start.lineCount ≤ rest.lineCount
  metadata : agree whole.metadata rest.metadata
  records : whole.records = rest.records
  diagnostics : ∃ later : List Diagnostic,
    rest.diagnostics.toList = start.diagnostics.toList ++ later ∧
    whole.diagnostics.toList = start.diagnostics.toList ++
      (fault?.map (Diagnostic.mk (start.lineCount + 1))).toList ++ later.map Diagnostic.oneDown ∧
    ∀ diagnostic ∈ later, start.lineCount < diagnostic.line

namespace Scan.Abreast

variable {agree : Metadata → Metadata → Prop} {start whole rest : Scan} {fault? : Option LineFault}

/-- The line that is passed over leaves the scan abreast of itself. -/
theorem of_passesOver {line : String} (h : start.PassesOver line fault?)
    (hagree : agree (start.step line).metadata start.metadata) :
    Abreast agree start fault? (start.step line) start := by
  cases h with
  | refused hkind hfault =>
      rw [step_of_refused hkind hfault] at hagree ⊢
      exact ⟨rfl, rfl, rfl, Nat.le_refl _, hagree, rfl, [], by simp, by simp [report], nofun⟩
  | metadata hkind =>
      rw [Scan.step, hkind] at hagree ⊢
      exact ⟨rfl, rfl, rfl, Nat.le_refl _, hagree, rfl, [], by simp, by simp [take], nofun⟩
  | ignored hkind =>
      rw [Scan.step, hkind] at hagree ⊢
      exact ⟨rfl, rfl, rfl, Nat.le_refl _, hagree, rfl, [], by simp, by simp [take], nofun⟩

/-- The next line is counted. -/
theorem count (h : Abreast agree start fault? whole rest) :
    Abreast agree start fault? { whole with lineCount := whole.lineCount + 1 }
      { rest with lineCount := rest.lineCount + 1 } :=
  { h with lineCount := congrArg (· + 1) h.lineCount, behind := Nat.le_succ_of_le h.behind }

theorem report (h : Abreast agree start fault? whole rest) (hlt : start.lineCount < rest.lineCount)
    (fault : LineFault) :
    Abreast agree start fault? (whole.report fault) (rest.report fault) := by
  obtain ⟨later, hrest, hwhole, hlater⟩ := h.diagnostics
  refine { h with diagnostics := ⟨later ++ [⟨rest.lineCount, fault⟩], ?_, ?_, ?_⟩ }
  · rw [Scan.report, Array.toList_push, hrest, List.append_assoc]
  · rw [Scan.report, Array.toList_push, hwhole, h.lineCount, List.map_append, List.append_assoc]
    rfl
  · intro diagnostic hmem
    rcases List.mem_append.mp hmem with hmem | hmem
    · exact hlater diagnostic hmem
    · obtain rfl := List.mem_singleton.mp hmem
      exact hlt

theorem enterSection (h : Abreast agree start fault? whole rest)
    (hagree : Metadata.Outlasting agree) (file : String) :
    Abreast agree start fault? (whole.enterSection file) (rest.enterSection file) :=
  { h with block := rfl, currentFile := rfl, metadata := hagree.noteFile file h.metadata }

theorem takeData (h : Abreast agree start fault? whole rest)
    (hlt : start.lineCount < rest.lineCount) (line : String) :
    Abreast agree start fault? (whole.takeData line) (rest.takeData line) := by
  cases hrecord : dataRecord? rest.currentFile line with
  | some record =>
      rw [takeData_eq_push hrecord, takeData_eq_push (h.currentFile ▸ hrecord)]
      exact { h with records := congrArg (·.push record) h.records }
  | none =>
      obtain ⟨fault, hfault⟩ := Option.isSome_iff_exists.mp (dataRecord?_eq_none_iff.mp hrecord)
      rw [takeData_eq_report hfault, takeData_eq_report (h.currentFile ▸ hfault)]
      exact h.report hlt fault

theorem take (h : Abreast agree start fault? whole rest) (hagree : Metadata.Outlasting agree)
    (hlt : start.lineCount < rest.lineCount) (line : String) (kind : Line) :
    Abreast agree start fault? (whole.take line kind) (rest.take line kind) := by
  cases kind with
  | blank => exact { h with block := rfl }
  | sectionHeader file? =>
      cases file? with
      | none =>
          have hleft : Abreast agree start fault?
              { whole with block := .outside, currentFile := none }
              { rest with block := .outside, currentFile := none } :=
            { h with block := rfl, currentFile := rfl }
          exact hleft.report hlt .noFileName
      | some file => exact h.enterSection hagree file
  | columnHeader => exact { h with block := rfl }
  | data => exact h.takeData hlt line
  | metadata key value => exact { h with metadata := hagree.insert key value h.metadata }
  | ignored => exact h

/-- Whatever the next line is, the scans take it for the same and stay abreast. -/
theorem step (h : Abreast agree start fault? whole rest) (hagree : Metadata.Outlasting agree)
    (line : String) : Abreast agree start fault? (whole.step line) (rest.step line) := by
  have hkind : Line.classify line whole.block = Line.classify line rest.block :=
    congrArg (Line.classify line) h.block
  rw [Scan.step, Scan.step, hkind]
  exact h.count.take hagree (Nat.lt_succ_of_le h.behind) line _

/-- The scans stay abreast over all lines that follow. -/
theorem foldl (h : Abreast agree start fault? whole rest) (hagree : Metadata.Outlasting agree)
    (lines : List String) :
    Abreast agree start fault? (lines.foldl Scan.step whole) (lines.foldl Scan.step rest) := by
  induction lines generalizing whole rest with
  | nil => exact h
  | cons line lines ih => exact ih (h.step hagree line)

end Scan.Abreast

/-! ## How far the metadata agree -/

theorem Metadata.outlasting_eq : Metadata.Outlasting Eq where
  insert _ _ h := congrArg (Metadata.insert · _ _) h
  noteFile _ h := congrArg (Metadata.noteFile · _) h

/-- The same shared file, and the same values of the keys with a property. -/
def Metadata.AgreeOn (p : String → Prop) (metadata metadata' : Metadata) : Prop :=
  metadata.primaryFile = metadata'.primaryFile ∧
    ∀ key, p key → metadata.get? key = metadata'.get? key

theorem Metadata.outlasting_agreeOn (p : String → Prop) :
    Metadata.Outlasting (Metadata.AgreeOn p) where
  insert key value h := by
    refine ⟨h.1, fun other hother => ?_⟩
    rw [get?_insert, get?_insert, h.2 other hother]
  noteFile identifier h := ⟨congrArg (Option.or _) h.1, h.2⟩

variable {scan : Scan} {line : String} {fault? : Option LineFault}

/-- A line that is passed over and is no metadata leaves the metadata as they are. -/
theorem Scan.PassesOver.metadata_step (h : scan.PassesOver line fault?)
    (hother : ∀ key value, Line.classify line scan.block ≠ .metadata key value) :
    (scan.step line).metadata = scan.metadata := by
  cases h with
  | refused hkind hfault =>
      rw [Scan.step_of_refused hkind hfault]
      rfl
  | metadata hkind => exact absurd hkind (hother _ _)
  | ignored hkind =>
      rw [Scan.step, hkind]
      rfl

/-- A line that is passed over sets one key at most. -/
theorem Scan.PassesOver.agreeOn_step (h : scan.PassesOver line fault?) :
    Metadata.AgreeOn (fun key => ∀ value, Line.classify line scan.block ≠ .metadata key value)
      (scan.step line).metadata scan.metadata := by
  by_cases hmetadata : ∃ key value, Line.classify line scan.block = .metadata key value
  · obtain ⟨key, value, hkind⟩ := hmetadata
    rw [Scan.step, hkind]
    refine ⟨rfl, fun other hother => ?_⟩
    have hne : key ≠ other := by
      rintro rfl
      exact hother value rfl
    exact (scan.metadata.get?_insert key value other).trans (if_neg hne)
  · have hother : ∀ key value, Line.classify line scan.block ≠ .metadata key value :=
      fun key value hkind => hmetadata ⟨key, value, hkind⟩
    rw [h.metadata_step hother]
    exact ⟨rfl, fun _ _ => rfl⟩

/-! ## Traces with and without the line -/

/-- **A line that is passed over disturbs no other line.** Without it there are the same records and
the same shared file. The diagnostics are those of the lines in front of it, then its own if it is a
data line that is refused, and then those of the lines behind it, which without it stand one line
further up. All keys keep their values but the one that the line sets, if it is metadata; otherwise
the metadata are the same. So the timeline is the same wherever the entries that it needs are. -/
theorem ofLines_passedOver {front : List String}
    (h : (front.foldl Scan.step {}).PassesOver line fault?) (back : List String) :
    let whole := ofLines (front ++ line :: back)
    let rest := ofLines (front ++ back)
    let kind := Line.classify line (front.foldl Scan.step {}).block
    rest.records = whole.records ∧
      rest.metadata.primaryFile = whole.metadata.primaryFile ∧
      (∃ later, rest.diagnostics = (ofLines front).diagnostics ++ later ∧
        whole.diagnostics = (ofLines front).diagnostics ++
          (fault?.map (Diagnostic.mk (front.length + 1))).toList ++ later.map Diagnostic.oneDown ∧
        ∀ diagnostic ∈ later, front.length < diagnostic.line) ∧
      (∀ key, (∀ value, kind ≠ .metadata key value) →
        rest.metadata.get? key = whole.metadata.get? key) ∧
      ((∀ key value, kind ≠ .metadata key value) → rest.metadata = whole.metadata) ∧
      ((∀ required : Requirement,
          rest.metadata.get? required.key = whole.metadata.get? required.key) →
        ∀ classifier, Timeline.ofRecords rest.records rest.metadata classifier =
          Timeline.ofRecords whole.records whole.metadata classifier) := by
  intro whole rest kind
  have hwhole : whole = (back.foldl Scan.step ((front.foldl Scan.step {}).step line)).outcome := by
    show ofLines (front ++ line :: back) = _
    rw [ofLines, List.foldl_append, List.foldl_cons]
  have hrest : rest = (back.foldl Scan.step (front.foldl Scan.step {})).outcome := by
    show ofLines (front ++ back) = _
    rw [ofLines, List.foldl_append]
  -- The scans with and without the line stay abreast over all that is behind it.
  have habreast := (Scan.Abreast.of_passesOver h h.agreeOn_step).foldl
    (Metadata.outlasting_agreeOn _) back
  have hrecords : rest.records = whole.records := by
    rw [hwhole, hrest]
    exact congrArg Array.toList habreast.records.symm
  refine ⟨hrecords, ?_, ?_, fun key hkey => ?_, fun hother => ?_, fun hsame classifier => ?_⟩
  · rw [hwhole, hrest]
    exact habreast.metadata.1.symm
  · rw [hwhole, hrest, ← (recalls_foldl front).lineCount]
    exact habreast.diagnostics
  · rw [hwhole, hrest]
    exact (habreast.metadata.2 key hkey).symm
  · rw [hwhole, hrest]
    exact ((Scan.Abreast.of_passesOver h (h.metadata_step hother)).foldl
      Metadata.outlasting_eq back).metadata.symm
  · rw [hrecords]
    exact Timeline.ofRecords_congr hsame _ classifier

/-- A data line that breaks off is passed over, and the timeline is made as if it were not there. -/
theorem short_line_passedOver :
    let front := ["# start_time: 10", "# end_time: 20", "# nprocs: 2",
      "# DXT, file_id: 1, file_name: /a/b.h5", "# Module Rank"]
    let whole := ofLines (front ++ "X_POSIX 0" :: ["X_POSIX 1 write 0 0 8 0.25 0.5"])
    let rest := ofLines (front ++ ["X_POSIX 1 write 0 0 8 0.25 0.5"])
    (front.foldl Scan.step {}).PassesOver "X_POSIX 0" (some (.tooFewFields 2)) ∧
      rest.metadata = whole.metadata ∧
      Timeline.ofRecords rest.records rest.metadata ⟨none⟩ =
        Timeline.ofRecords whole.records whole.metadata ⟨none⟩ := by
  intro front whole rest
  have hkind : Line.classify "X_POSIX 0" (front.foldl Scan.step {}).block = .data := by
    decide +kernel
  have hfile : (front.foldl Scan.step {}).currentFile = some "/a/b.h5" := by decide +kernel
  have hcolumns : Record.columns "X_POSIX 0" = ["X_POSIX", "0"] := by decide +kernel
  have hfault : dataFault? (front.foldl Scan.step {}).currentFile "X_POSIX 0" =
      some (.tooFewFields 2) := by
    rw [hfile]
    simp only [dataFault?, Record.ofLine, hcolumns]
    rfl
  have hpassed := Scan.PassesOver.refused hkind hfault
  obtain ⟨-, -, -, -, hmetadata, htimeline⟩ :=
    ofLines_passedOver hpassed ["X_POSIX 1 write 0 0 8 0.25 0.5"]
  have hsame : rest.metadata = whole.metadata := by
    refine hmetadata fun key value hmetadata => ?_
    rw [hkind] at hmetadata
    cases hmetadata
  exact ⟨hpassed, hsame, htimeline (fun required => congrArg (·.get? required.key) hsame) ⟨none⟩⟩

end TraceTimeline.Trace
