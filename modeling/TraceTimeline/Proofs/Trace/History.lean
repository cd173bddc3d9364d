import TraceTimeline.Trace.Scan
import TraceTimeline.Proofs.Trace.LineKind
import Mathlib.Data.List.Basic
import Mathlib.Data.List.Induction

/-!
# What a line contributes, said by the lines before it

A scan carries two things from line to line, whether it stands inside a block and which file is
current. Both can be read off the lines before: the first from the last boundary, the second from
the last section header. So what a line contributes is a function of the lines in front of it and
its own text, and a trace is these contributions in the order of the lines. The state of the scan
does not occur in the main statement, only in the invariant `Scan.Recalls` behind it.
-/

namespace TraceTimeline.Trace

def last? (p : String → Prop) [DecidablePred p] (lines : List String) : Option String :=
  lines.reverse.find? fun line => decide (p line)

/-- Behind these lines data lines are expected: the last boundary is a column header. -/
def InBlock (earlier : List String) : Prop :=
  ∃ header, last? IsBoundary earlier = some header ∧ IsColumnHeader header

instance (earlier : List String) : Decidable (InBlock earlier) :=
  decidable_of_iff
    ((last? IsBoundary earlier).any (fun header => decide (IsColumnHeader header)) = true)
    (by simp [InBlock, Option.any_eq_true])

/-- A line that has to be a record: it stands in a block, is not blank and has neither mark. -/
def IsData (earlier : List String) (line : String) : Prop :=
  ¬ IsBlankLine line ∧ ¬ Line.sectionMarker <:+: line.toList ∧
    ¬ Line.columnMarker <:+: line.toList ∧ InBlock earlier

def file? (earlier : List String) : Option String :=
  (last? IsSectionHeader earlier).bind sixthWord?

def IsShortHeader (line : String) : Prop :=
  IsSectionHeader line ∧ (Record.columns line).length < 6

theorem isData_iff {earlier : List String} {line : String} :
    IsData earlier line ↔ ¬ IsBoundary line ∧ InBlock earlier := by
  constructor
  · rintro ⟨hb, hs, hc, hi⟩
    refine ⟨?_, hi⟩
    rintro (h | h | h)
    · exact hb h
    · exact hs h
    · exact hc h.2
  · rintro ⟨h, hi⟩
    have hs : ¬ IsSectionHeader line := fun hs => h (Or.inr (Or.inl hs))
    exact ⟨fun hb => h (Or.inl hb), hs, fun hc => h (Or.inr (Or.inr ⟨hs, hc⟩)), hi⟩

instance (earlier : List String) (line : String) : Decidable (IsData earlier line) :=
  decidable_of_iff _ isData_iff.symm

instance (line : String) : Decidable (IsShortHeader line) :=
  inferInstanceAs (Decidable (_ ∧ _))

def dataRecord? (file : Option String) (line : String) : Option Record :=
  file.bind fun file => (Record.ofLine line file).toOption

def dataFault? (file : Option String) (line : String) : Option LineFault :=
  match file with
  | none => some .noActiveFile
  | some file =>
    match Record.ofLine line file with
    | .ok _ => none
    | .error fault => some fault

def record? (earlier : List String) (line : String) : Option Record :=
  if IsData earlier line then dataRecord? (file? earlier) line else none

def fault? (earlier : List String) (line : String) : Option LineFault :=
  if IsShortHeader line then some .noFileName
  else if IsData earlier line then dataFault? (file? earlier) line
  else none

/-- A data line gives a record or a fault, and never both. -/
theorem dataRecord?_eq_none_iff {file : Option String} {line : String} :
    dataRecord? file line = none ↔ (dataFault? file line).isSome = true := by
  cases file with
  | none => simp [dataRecord?, dataFault?]
  | some file =>
      cases h : Record.ofLine line file <;> simp [dataRecord?, dataFault?, Except.toOption, h]

/-! ## One more line -/

theorem last?_snoc (p : String → Prop) [DecidablePred p] (lines : List String) (line : String) :
    last? p (lines ++ [line]) = if p line then some line else last? p lines := by
  by_cases h : p line
  · simp [last?, h]
  · simp [last?, h]

theorem inBlock_snoc_of_not_isBoundary {lines : List String} {line : String}
    (h : ¬ IsBoundary line) : InBlock (lines ++ [line]) ↔ InBlock lines := by
  rw [InBlock, last?_snoc, if_neg h]
  rfl

theorem inBlock_snoc_of_isBoundary {lines : List String} {line : String} (h : IsBoundary line) :
    InBlock (lines ++ [line]) ↔ IsColumnHeader line := by
  rw [InBlock, last?_snoc, if_pos h]
  simp

theorem file?_snoc_of_not_isSectionHeader {lines : List String} {line : String}
    (h : ¬ IsSectionHeader line) : file? (lines ++ [line]) = file? lines := by
  rw [file?, last?_snoc, if_neg h]
  rfl

theorem file?_snoc_of_isSectionHeader {lines : List String} {line : String}
    (h : IsSectionHeader line) : file? (lines ++ [line]) = sixthWord? line := by
  rw [file?, last?_snoc, if_pos h]
  rfl

theorem record?_of_isBoundary {earlier : List String} {line : String} (h : IsBoundary line) :
    record? earlier line = none :=
  if_neg fun hd => (isData_iff.mp hd).1 h

theorem fault?_of_not_isData {earlier : List String} {line : String}
    (hs : ¬ IsShortHeader line) (hd : ¬ IsData earlier line) : fault? earlier line = none := by
  rw [fault?, if_neg hs, if_neg hd]

/-- Goes along the lines: what is made of each line, its number counted from zero and the lines in
front of it. -/
def along {α : Type} (f : Nat → List String → String → Option α) (lines : List String) : List α :=
  lines.zipIdx.filterMap fun (line, i) => f i (lines.take i) line

theorem along_snoc {α : Type} (f : Nat → List String → String → Option α) (lines : List String)
    (line : String) :
    along f (lines ++ [line]) = along f lines ++ (f lines.length lines line).toList := by
  have hfront : lines.zipIdx.filterMap (fun (l, i) => f i ((lines ++ [line]).take i) l) =
      along f lines := by
    apply List.filterMap_congr
    rintro ⟨l, i⟩ hmem
    have hi : i < lines.length :=
      (List.getElem?_eq_some_iff.mp (List.mk_mem_zipIdx_iff_getElem?.mp hmem)).1
    show f i ((lines ++ [line]).take i) l = f i (lines.take i) l
    rw [List.take_append_of_le_length (Nat.le_of_lt hi)]
  rw [along, List.zipIdx_append, List.filterMap_append, hfront]
  congr 1
  cases h : f lines.length lines line <;> simp [h]

def recordsOn (lines : List String) : List Record :=
  along (fun _ earlier line => record? earlier line) lines

/-- The faults on these lines, with the numbers of their lines counted from one. -/
def diagnosticsOn (lines : List String) : List Diagnostic :=
  along (fun i earlier line => (fault? earlier line).map (Diagnostic.mk (i + 1))) lines

theorem recordsOn_snoc (lines : List String) (line : String) :
    recordsOn (lines ++ [line]) = recordsOn lines ++ (record? lines line).toList :=
  along_snoc _ lines line

theorem diagnosticsOn_snoc (lines : List String) (line : String) :
    diagnosticsOn (lines ++ [line]) =
      diagnosticsOn lines ++
        ((fault? lines line).map (Diagnostic.mk (lines.length + 1))).toList :=
  along_snoc _ lines line

/-! ## The state of a scan -/

theorem Metadata.get?_insert (metadata : Metadata) (key value other : String) :
    (metadata.insert key value).get? other = if key = other then some value else
      metadata.get? other := by
  rw [get?, insert, Std.TreeMap.getElem?_insert, get?]
  simp only [Std.LawfulEqCmp.compare_eq_iff_eq]

section takeData

variable (scan : Scan) (line : String)

@[simp] theorem Scan.takeData_block : (scan.takeData line).block = scan.block := by
  unfold Scan.takeData
  repeat' split
  all_goals rfl

@[simp] theorem Scan.takeData_currentFile :
    (scan.takeData line).currentFile = scan.currentFile := by
  unfold Scan.takeData
  repeat' split
  all_goals simp [*, Scan.report]

@[simp] theorem Scan.takeData_lineCount : (scan.takeData line).lineCount = scan.lineCount := by
  unfold Scan.takeData
  repeat' split
  all_goals rfl

@[simp] theorem Scan.takeData_metadata : (scan.takeData line).metadata = scan.metadata := by
  unfold Scan.takeData
  repeat' split
  all_goals rfl

theorem Scan.takeData_records :
    (scan.takeData line).records.toList =
      scan.records.toList ++ (dataRecord? scan.currentFile line).toList := by
  unfold Scan.takeData dataRecord?
  cases scan.currentFile with
  | none => simp [Scan.report]
  | some file => cases h : Record.ofLine line file <;> simp [Scan.report, Except.toOption, h]

theorem Scan.takeData_diagnostics :
    (scan.takeData line).diagnostics.toList =
      scan.diagnostics.toList ++
        ((dataFault? scan.currentFile line).map (Diagnostic.mk scan.lineCount)).toList := by
  unfold Scan.takeData dataFault?
  cases scan.currentFile with
  | none => simp [Scan.report]
  | some file => cases h : Record.ofLine line file <;> simp [Scan.report, h]

/-- A line that sets no key leaves all keys as they are. -/
theorem Scan.step_entries_of_ne_metadata
    (h : ∀ key value, Line.classify line scan.block ≠ .metadata key value) :
    (scan.step line).metadata.entries = scan.metadata.entries := by
  unfold Scan.step
  cases hkind : Line.classify line scan.block with
  | metadata key value => exact absurd hkind (h key value)
  | data => exact congrArg Metadata.entries (Scan.takeData_metadata _ line)
  | sectionHeader file? => cases file? <;> rfl
  | blank | columnHeader | ignored => rfl

end takeData

theorem Scan.takeData_eq_push {scan : Scan} {line : String} {record : Record}
    (h : dataRecord? scan.currentFile line = some record) :
    scan.takeData line = { scan with records := scan.records.push record } := by
  obtain ⟨file, hfile, hrecord⟩ := Option.bind_eq_some_iff.mp h
  cases hread : Record.ofLine line file with
  | ok other =>
      rw [hread] at hrecord
      obtain rfl := Option.some.inj hrecord
      simp only [Scan.takeData, hfile, hread]
  | error fault =>
      rw [hread] at hrecord
      cases hrecord

theorem Scan.takeData_eq_report {scan : Scan} {line : String} {fault : LineFault}
    (h : dataFault? scan.currentFile line = some fault) :
    scan.takeData line = scan.report fault := by
  unfold Scan.takeData
  unfold dataFault? at h
  cases hfile : scan.currentFile with
  | none =>
      rw [hfile] at h
      obtain rfl := Option.some.inj h
      rfl
  | some file =>
      simp only [hfile] at h ⊢
      cases hread : Record.ofLine line file with
      | ok record =>
          rw [hread] at h
          cases h
      | error other =>
          rw [hread] at h
          obtain rfl := Option.some.inj h
          rfl

/-- The state of a scan is what the lines taken so far say. -/
structure Scan.Recalls (lines : List String) (scan : Scan) : Prop where
  block : scan.block = .inside ↔ InBlock lines
  currentFile : scan.currentFile = file? lines
  lineCount : scan.lineCount = lines.length
  records : scan.records.toList = recordsOn lines
  diagnostics : scan.diagnostics.toList = diagnosticsOn lines

namespace Scan.Recalls

variable {lines : List String} {scan : Scan} {line : String}

theorem start : Scan.Recalls [] {} where
  block := by simp [InBlock, last?]
  currentFile := rfl
  lineCount := rfl
  records := rfl
  diagnostics := rfl

/-- One more line, where the state grows by what the line gives. -/
theorem snoc (h : scan.Recalls lines) {next : Scan}
    (hblock : next.block = .inside ↔ InBlock (lines ++ [line]))
    (hfile : next.currentFile = file? (lines ++ [line]))
    (hcount : next.lineCount = scan.lineCount + 1)
    (hrecords : next.records.toList = scan.records.toList ++ (record? lines line).toList)
    (hdiagnostics : next.diagnostics.toList = scan.diagnostics.toList ++
      ((fault? lines line).map (Diagnostic.mk (scan.lineCount + 1))).toList) :
    next.Recalls (lines ++ [line]) where
  block := hblock
  currentFile := hfile
  lineCount := by rw [hcount, h.lineCount, List.length_append, List.length_singleton]
  records := by rw [hrecords, h.records, recordsOn_snoc]
  diagnostics := by rw [hdiagnostics, h.diagnostics, h.lineCount, diagnosticsOn_snoc]

/-- A boundary that enters no section only settles whether data lines follow. -/
theorem snoc_of_isBoundary (h : scan.Recalls lines) (hb : IsBoundary line)
    (hs : ¬ IsSectionHeader line) {block : Block} (hblock : block = .inside ↔ IsColumnHeader line) :
    Scan.Recalls (lines ++ [line]) { scan with block, lineCount := scan.lineCount + 1 } := by
  apply h.snoc
  · rw [inBlock_snoc_of_isBoundary hb]
    exact hblock
  · rw [file?_snoc_of_not_isSectionHeader hs]
    exact h.currentFile
  · rfl
  · rw [record?_of_isBoundary hb]
    exact (List.append_nil _).symm
  · rw [fault?_of_not_isData (fun hshort => hs hshort.1) fun hd => (isData_iff.mp hd).1 hb]
    exact (List.append_nil _).symm

theorem step_blank (h : scan.Recalls lines) (hl : IsBlankLine line) :
    (scan.step line).Recalls (lines ++ [line]) := by
  rw [Scan.step, classify_of_isBlankLine hl]
  exact h.snoc_of_isBoundary (Or.inl hl) (not_isSectionHeader_of_isBlankLine hl)
    (iff_of_false Block.noConfusion (not_isColumnHeader_of_isBlankLine hl))

theorem step_columnHeader (h : scan.Recalls lines) (hl : IsColumnHeader line) :
    (scan.step line).Recalls (lines ++ [line]) := by
  rw [Scan.step, classify_of_isColumnHeader hl]
  exact h.snoc_of_isBoundary (Or.inr (Or.inr hl)) hl.1 (iff_of_true rfl hl)

/-- A section header closes the block. One without a sixth word leaves no file current, so that the
lines below it are not taken for the file of the section above. -/
theorem step_sectionHeader (h : scan.Recalls lines) (hl : IsSectionHeader line) :
    (scan.step line).Recalls (lines ++ [line]) := by
  have hb : IsBoundary line := Or.inr (Or.inl hl)
  have hd : ¬ IsData lines line := fun hd => hd.2.1 hl
  have hout : ¬ IsColumnHeader line := not_isColumnHeader_of_isSectionHeader hl
  rw [Scan.step, classify_of_isSectionHeader hl]
  cases hw : sixthWord? line with
  | none =>
      have hshort : IsShortHeader line :=
        ⟨hl, Nat.lt_succ_of_le (List.getElem?_eq_none_iff.mp hw)⟩
      apply h.snoc
      · rw [inBlock_snoc_of_isBoundary hb]
        simpa [Scan.take, Scan.enterNamelessSection, Scan.report] using hout
      · rw [file?_snoc_of_isSectionHeader hl, hw]
        rfl
      · rfl
      · rw [record?_of_isBoundary hb]
        exact (List.append_nil _).symm
      · rw [fault?, if_pos hshort]
        exact Array.toList_push
  | some file =>
      have hlong : ¬ IsShortHeader line := by
        rintro ⟨_, hlt⟩
        have hge := (List.getElem?_eq_some_iff.mp hw).1
        omega
      apply h.snoc
      · rw [inBlock_snoc_of_isBoundary hb]
        simpa [Scan.take, Scan.enterSection] using hout
      · rw [file?_snoc_of_isSectionHeader hl, hw]
        rfl
      · rfl
      · rw [record?_of_isBoundary hb]
        exact (List.append_nil _).symm
      · rw [fault?_of_not_isData hlong hd]
        exact (List.append_nil _).symm

/-- Inside a block every other line is a data line, and becomes a record or a fault. -/
theorem step_data (h : scan.Recalls lines) (hl : IsData lines line) :
    (scan.step line).Recalls (lines ++ [line]) := by
  have hb : ¬ IsBoundary line := (isData_iff.mp hl).1
  have hs : ¬ IsSectionHeader line := hl.2.1
  have hi : InBlock lines := hl.2.2.2
  have hstep : scan.step line =
      Scan.takeData { scan with lineCount := scan.lineCount + 1 } line := by
    rw [Scan.step, classify_of_not_isBoundary hb, h.block.mpr hi]
    rfl
  rw [hstep]
  apply h.snoc
  · rw [inBlock_snoc_of_not_isBoundary hb, Scan.takeData_block]
    exact h.block
  · rw [file?_snoc_of_not_isSectionHeader hs, Scan.takeData_currentFile]
    exact h.currentFile
  · rw [Scan.takeData_lineCount]
  · rw [record?, if_pos hl, ← h.currentFile]
    exact Scan.takeData_records _ _
  · rw [fault?, if_neg fun h => hs h.1, if_pos hl, ← h.currentFile]
    exact Scan.takeData_diagnostics _ _

/-- Outside a block a line can only be metadata, which touches nothing that is recalled here. -/
theorem step_outside (h : scan.Recalls lines) (hb : ¬ IsBoundary line) (hi : ¬ InBlock lines) :
    (scan.step line).Recalls (lines ++ [line]) := by
  have hs : ¬ IsSectionHeader line := fun hs => hb (Or.inr (Or.inl hs))
  have hd : ¬ IsData lines line := fun hd => hi hd.2.2.2
  have hout : scan.block = .outside := by
    cases hblock : scan.block with
    | outside => rfl
    | inside => exact absurd (h.block.mp hblock) hi
  have hstep : ∃ metadata, scan.step line =
      { scan with lineCount := scan.lineCount + 1, metadata } := by
    rw [Scan.step, classify_of_not_isBoundary hb, hout]
    cases Line.keyValue? line.toList with
    | none => exact ⟨scan.metadata, rfl⟩
    | some entry => exact ⟨scan.metadata.insert entry.1 entry.2, rfl⟩
  obtain ⟨metadata, hstep⟩ := hstep
  rw [hstep]
  apply h.snoc
  · rw [inBlock_snoc_of_not_isBoundary hb]
    exact h.block
  · rw [file?_snoc_of_not_isSectionHeader hs]
    exact h.currentFile
  · rfl
  · rw [record?, if_neg hd]
    exact (List.append_nil _).symm
  · rw [fault?_of_not_isData (fun h => hs h.1) hd]
    exact (List.append_nil _).symm

/-- Whatever the next line is, the state goes on saying what the lines say. -/
theorem step (h : scan.Recalls lines) (line : String) :
    (scan.step line).Recalls (lines ++ [line]) := by
  by_cases hb : IsBoundary line
  · rcases hb with hl | hl | hl
    · exact h.step_blank hl
    · exact h.step_sectionHeader hl
    · exact h.step_columnHeader hl
  · by_cases hi : InBlock lines
    · exact h.step_data (isData_iff.mpr ⟨hb, hi⟩)
    · exact h.step_outside hb hi

end Scan.Recalls

/-- The state of a fresh scan after all of these lines. -/
theorem recalls_foldl (lines : List String) : (lines.foldl Scan.step {}).Recalls lines := by
  induction lines using List.reverseRecOn with
  | nil => exact Scan.Recalls.start
  | append_singleton lines line ih =>
      rw [List.foldl_append]
      exact ih.step line

/-! ## The order of diagnostics -/

theorem mem_diagnosticsOn {lines : List String} {diagnostic : Diagnostic} :
    diagnostic ∈ diagnosticsOn lines ↔
      ∃ i line, lines[i]? = some line ∧ diagnostic.line = i + 1 ∧
        fault? (lines.take i) line = some diagnostic.fault := by
  rw [diagnosticsOn, along, List.mem_filterMap]
  constructor
  · rintro ⟨⟨line, i⟩, hmem, hmap⟩
    obtain ⟨fault, hf, rfl⟩ := Option.map_eq_some_iff.mp hmap
    exact ⟨i, line, List.mk_mem_zipIdx_iff_getElem?.mp hmem, rfl, hf⟩
  · rintro ⟨i, line, hline, hi, hf⟩
    refine ⟨(line, i), List.mk_mem_zipIdx_iff_getElem?.mpr hline, ?_⟩
    show (fault? (lines.take i) line).map (Diagnostic.mk (i + 1)) = some diagnostic
    rw [hf, ← hi]
    rfl

/-- Line numbers only grow. -/
theorem pairwise_diagnosticsOn (lines : List String) :
    (diagnosticsOn lines).Pairwise (fun a b => a.line < b.line) := by
  induction lines using List.reverseRecOn with
  | nil => exact List.Pairwise.nil
  | append_singleton lines line ih =>
      rw [diagnosticsOn_snoc, List.pairwise_append]
      refine ⟨ih, ?_, ?_⟩
      · cases fault? lines line with
        | none => exact List.Pairwise.nil
        | some fault => exact List.pairwise_singleton _ _
      · intro a ha b hb
        obtain ⟨i, l, hl, hi, -⟩ := mem_diagnosticsOn.mp ha
        obtain ⟨hlt, -⟩ := List.getElem?_eq_some_iff.mp hl
        obtain ⟨fault, -, rfl⟩ := Option.map_eq_some_iff.mp (Option.mem_toList.mp hb)
        show a.line < lines.length + 1
        omega

/-- On a data line there is a record exactly when there is no diagnostic. -/
theorem record?_isSome_iff {lines : List String} {i : Nat} {line : String}
    (hline : lines[i]? = some line) (hd : IsData (lines.take i) line) :
    (record? (lines.take i) line).isSome = true ↔
      ∀ diagnostic ∈ diagnosticsOn lines, diagnostic.line ≠ i + 1 := by
  have hrecord : record? (lines.take i) line = dataRecord? (file? (lines.take i)) line :=
    if_pos hd
  have hfault : fault? (lines.take i) line = dataFault? (file? (lines.take i)) line :=
    (if_neg fun hs => hd.2.1 hs.1).trans (if_pos hd)
  constructor
  · intro hsome diagnostic hmem hnumber
    obtain ⟨j, other, hother, hj, hf⟩ := mem_diagnosticsOn.mp hmem
    obtain rfl : j = i := by omega
    obtain rfl : line = other := Option.some.inj (hline.symm.trans hother)
    have hnone := dataRecord?_eq_none_iff.mpr (Option.isSome_of_eq_some (hfault.symm.trans hf))
    rw [hrecord, hnone] at hsome
    cases hsome
  · intro hfree
    by_contra hnone
    rw [Option.not_isSome_iff_eq_none, hrecord, dataRecord?_eq_none_iff, ← hfault] at hnone
    obtain ⟨fault, hf⟩ := Option.isSome_iff_exists.mp hnone
    exact hfree ⟨i + 1, fault⟩ (mem_diagnosticsOn.mpr ⟨i, line, hline, rfl, hf⟩) rfl

/-- **A trace is what its lines contribute.** Records and diagnostics come in the order of their
lines, each decided by its own line and the lines before. Diagnostics are numbered upwards, and a
data line without a record has one, while a data line with a record has none. -/
theorem ofLines_eq_contributions (lines : List String) :
    (ofLines lines).records = recordsOn lines ∧
      (ofLines lines).diagnostics = diagnosticsOn lines ∧
      (ofLines lines).diagnostics.Pairwise (fun a b => a.line < b.line) ∧
      ∀ i line, lines[i]? = some line → IsData (lines.take i) line →
        ((record? (lines.take i) line).isSome = true ↔
          ∀ diagnostic ∈ (ofLines lines).diagnostics, diagnostic.line ≠ i + 1) := by
  have h := recalls_foldl lines
  have hdiagnostics : (ofLines lines).diagnostics = diagnosticsOn lines := h.diagnostics
  refine ⟨h.records, hdiagnostics, ?_, ?_⟩
  · rw [hdiagnostics]
    exact pairwise_diagnosticsOn lines
  · intro i line hline hd
    rw [hdiagnostics]
    exact record?_isSome_iff hline hd

/-- A data line whose operation ends before it starts is reported on its own line. -/
theorem inverted_times_reported :
    let lines := ["# DXT, file_id: 1, file_name: /a/b.h5", "# Module Rank",
      "X_POSIX 0 write 0 0 8 0.5 0.25"]
    IsData (lines.take 2) "X_POSIX 0 write 0 0 8 0.5 0.25" ∧
      ∃ diagnostic ∈ (ofLines lines).diagnostics, diagnostic.line = 3 := by
  intro lines
  have hd : IsData (lines.take 2) "X_POSIX 0 write 0 0 8 0.5 0.25" := by decide +kernel
  have hnone : ¬ (record? (lines.take 2) "X_POSIX 0 write 0 0 8 0.5 0.25").isSome = true := by
    decide +kernel
  refine ⟨hd, ?_⟩
  by_contra hfree
  apply hnone
  apply ((ofLines_eq_contributions lines).2.2.2 2 _ rfl hd).mpr
  intro diagnostic hmem hnumber
  exact hfree ⟨diagnostic, hmem, hnumber⟩

end TraceTimeline.Trace
