import TraceTimeline.Proofs.Trace.History
import TraceTimeline.Proofs.Trace.Printed

/-!
# Printed traces are read back

The lines of a printed trace are the lines that were printed, apart from carriage returns at the ends
of column headers and of the lines that end sections. What the scan makes of them is said part by
part: a pair adds a key, a section adds its records. Main statement: a printed trace is read as what
it was printed from, without any diagnostic.
-/

namespace TraceTimeline.Trace

open Text

/-- A line as it is read where a newline stands behind it. -/
def readLine (line : List Char) : String :=
  String.ofList (dropReturn '\r' line)

theorem readLine_of_getLast?_ne {line : List Char} (h : line.getLast? ≠ some '\r') :
    readLine line = String.ofList line := by
  rw [readLine, dropReturn_of_getLast?_ne h]

theorem Part.newline_not_mem_lines (part : Part) : ∀ line ∈ part.lines, '\n' ∉ line := by
  cases part with
  | entry pair => exact List.forall_mem_singleton.mpr pair.newline_not_mem_line
  | file printed =>
      intro line h
      simp only [lines, PrintedSection.lines, List.cons_append, List.mem_cons, List.mem_append,
        List.mem_map, List.not_mem_nil, or_false] at h
      rcases h with rfl | rfl | ⟨record, -, rfl⟩ | rfl
      · exact printed.newline_not_mem_firstLine
      · exact printed.newline_not_mem_header
      · exact record.newline_not_mem_line
      · exact printed.newline_not_mem_ending

/-- The lines of a printed trace are the printed lines. -/
theorem lines_print (parts : List Part) :
    (Text.lines (print parts).toList).map String.ofList =
      (parts.flatMap Part.lines).map readLine := by
  have hlines : ∀ line ∈ parts.flatMap Part.lines, '\n' ∉ line := by
    intro line h
    obtain ⟨part, -, h⟩ := List.mem_flatMap.mp h
    exact part.newline_not_mem_lines line h
  have hnil : '\n' ∉ ([] : List Char) := List.not_mem_nil
  rw [print, String.toList_ofList, Text.lines, ← List.append_nil (terminated _ _),
    linesBy_terminated '\r' hlines hnil, List.map_append, List.map_map]
  exact List.append_nil _

/-! ## What the scan makes of a part -/

namespace Scan

variable {scan : Scan}

theorem step_entry (hblock : scan.block = .outside) (pair : Entry) :
    scan.step (readLine pair.line) =
      { scan with
        lineCount := scan.lineCount + 1
        metadata := scan.metadata.insert pair.key pair.value } := by
  have hpair : Line.classify (String.ofList pair.line) scan.block =
      .metadata pair.key pair.value := by
    rw [classify_of_not_isBoundary pair.not_isBoundary_line, hblock, String.toList_ofList,
      pair.keyValue?_line]
  rw [readLine_of_getLast?_ne pair.getLast?_line_ne, step, hpair]
  rfl

theorem step_firstLine (scan : Scan) (printed : PrintedSection) :
    scan.step (readLine printed.firstLine) =
      { scan with
        block := .outside
        currentFile := some printed.path
        lineCount := scan.lineCount + 1
        metadata := scan.metadata.noteFile printed.path } := by
  rw [readLine_of_getLast?_ne printed.getLast?_firstLine_ne, step,
    classify_of_isSectionHeader printed.isSectionHeader_firstLine, printed.sixthWord?_firstLine]
  rfl

theorem step_header (scan : Scan) (printed : PrintedSection) :
    scan.step (readLine printed.header) =
      { scan with block := .inside, lineCount := scan.lineCount + 1 } := by
  rw [readLine, step, classify_of_isColumnHeader printed.isColumnHeader_header]
  rfl

theorem step_ending (scan : Scan) (printed : PrintedSection) :
    scan.step (readLine printed.ending) =
      { scan with block := .outside, lineCount := scan.lineCount + 1 } := by
  rw [readLine, step, classify_of_isBlankLine printed.isBlankLine_ending]
  rfl

theorem step_record {file : String} (hblock : scan.block = .inside)
    (hfile : scan.currentFile = some file) (printed : PrintedRecord) :
    scan.step (readLine printed.line) =
      { scan with
        lineCount := scan.lineCount + 1
        records := scan.records.push (printed.record file) } := by
  have hdata : Line.classify (String.ofList printed.line) scan.block = .data := by
    rw [classify_of_not_isBoundary printed.not_isBoundary_line, hblock]
  rw [readLine_of_getLast?_ne printed.getLast?_line_ne, step, hdata, take, takeData]
  dsimp only
  rw [hfile]
  dsimp only
  rw [printed.ofLine_line]

/-- Inside a block, line by line, the records are taken. -/
theorem foldl_records {file : String} (hblock : scan.block = .inside)
    (hfile : scan.currentFile = some file) (printed : List PrintedRecord) :
    ((printed.map PrintedRecord.line).map readLine).foldl step scan =
      { scan with
        lineCount := scan.lineCount + printed.length
        records := scan.records ++ (printed.map (PrintedRecord.record file)).toArray } := by
  induction printed generalizing scan with
  | nil => simp
  | cons record printed ih =>
      rw [List.map_cons, List.map_cons, List.foldl_cons, step_record hblock hfile, ih]
      · simp [Nat.add_right_comm, Nat.add_assoc]
      · exact hblock
      · exact hfile

theorem foldl_section (scan : Scan) (printed : PrintedSection) :
    (printed.lines.map readLine).foldl step scan =
      { scan with
        block := .outside
        currentFile := some printed.path
        lineCount := scan.lineCount + printed.lines.length
        metadata := scan.metadata.noteFile printed.path
        records :=
          scan.records ++ (printed.records.map (PrintedRecord.record printed.path)).toArray } := by
  rw [PrintedSection.lines, List.map_append, List.map_cons, List.map_cons, List.foldl_append,
    List.foldl_cons, List.foldl_cons, step_firstLine, step_header,
    foldl_records rfl rfl, List.map_singleton, List.foldl_cons, List.foldl_nil, step_ending]
  simp only [List.length_append, List.length_cons, List.length_map, List.length_nil]
  congr 1
  omega

structure HasRead (parts : List Part) (scan : Scan) : Prop where
  block : scan.block = .outside
  metadata : scan.metadata = parts.foldl Part.note {}
  records : scan.records.toList = parts.flatMap Part.records
  diagnostics : scan.diagnostics = #[]

theorem hasRead_nil : HasRead [] {} :=
  ⟨rfl, rfl, rfl, rfl⟩

theorem HasRead.concat {parts : List Part} (h : HasRead parts scan) (part : Part) :
    HasRead (parts ++ [part]) ((part.lines.map readLine).foldl step scan) := by
  cases part with
  | entry pair =>
      rw [Part.lines, List.map_singleton, List.foldl_cons, List.foldl_nil, step_entry h.block]
      refine ⟨h.block, ?_, ?_, h.diagnostics⟩
      · rw [List.foldl_append, ← h.metadata]
        rfl
      · rw [List.flatMap_append, ← h.records]
        exact (List.append_nil _).symm
  | file printed =>
      rw [Part.lines, foldl_section]
      refine ⟨rfl, ?_, ?_, h.diagnostics⟩
      · rw [List.foldl_append, ← h.metadata]
        rfl
      · rw [List.flatMap_append, ← h.records, Array.toList_append, List.flatMap_singleton]
        rfl

/-- Behind a printed trace the scan has read all its parts. -/
theorem hasRead_foldl (parts : List Part) :
    HasRead parts (((parts.flatMap Part.lines).map readLine).foldl step {}) := by
  induction parts using List.reverseRecOn with
  | nil => exact hasRead_nil
  | append_singleton parts part ih =>
      rw [List.flatMap_append, List.flatMap_singleton, List.map_append, List.foldl_append]
      exact ih.concat part

end Scan

/-! ## What the parts say of the run -/

/-- Of what is looked up in metadata, where a part may set it anew, the last part that does counts. -/
theorem foldl_note_eq_or {α : Type} (get : Metadata → Option α) (set? : Part → Option α)
    (h : ∀ metadata part, get (part.note metadata) = (set? part).or (get metadata))
    (parts : List Part) (metadata : Metadata) :
    get (parts.foldl Part.note metadata) = (parts.reverse.findSome? set?).or (get metadata) := by
  induction parts generalizing metadata with
  | nil => rfl
  | cons part parts ih =>
      rw [List.foldl_cons, ih, h, List.reverse_cons, List.findSome?_append, List.findSome?_singleton,
        Option.or_assoc]

theorem get?_note (key : String) (metadata : Metadata) (part : Part) :
    (Part.note metadata part).get? key = (part.value? key).or (metadata.get? key) := by
  cases part with
  | entry pair =>
      rw [Part.note, Metadata.get?_insert, Part.value?]
      by_cases hkey : pair.key = key
      · rw [if_pos hkey, if_pos hkey, Option.some_or]
      · rw [if_neg hkey, if_neg hkey]
        rfl
  | file printed => rfl

theorem primaryFile_note (metadata : Metadata) (part : Part) :
    (Part.note metadata part).primaryFile = part.sharedFile?.or metadata.primaryFile := by
  cases part <;> rfl

/-- **A printed trace is read back.** Whatever key-value pairs and sections a trace is printed from,
in whatever order, it has just the printed records, each with the file of its section, in the order
in which they were printed. Each key has the value that it was given last, other keys have none, the
shared file is the one that the last section with such a file tells of, and no line is complained
about. -/
theorem ofText_print (parts : List Part) :
    (ofText (print parts)).records = parts.flatMap Part.records ∧
      (ofText (print parts)).diagnostics = [] ∧
      (∀ key, (ofText (print parts)).metadata.get? key =
        parts.reverse.findSome? (Part.value? key)) ∧
      (ofText (print parts)).metadata.primaryFile = parts.reverse.findSome? Part.sharedFile? := by
  have h := Scan.hasRead_foldl parts
  rw [ofText, lines_print, ofLines, Scan.outcome]
  refine ⟨h.records, congrArg Array.toList h.diagnostics, fun key => ?_, ?_⟩
  · show Metadata.get? _ key = _
    rw [h.metadata, foldl_note_eq_or (Metadata.get? · key) (Part.value? key) (get?_note key)]
    exact Option.or_none
  · show Metadata.primaryFile _ = _
    rw [h.metadata, foldl_note_eq_or Metadata.primaryFile Part.sharedFile? primaryFile_note]
    exact Option.or_none

/-- A trace of a section and a pair behind it. The greatest rank and the greatest offset are read
back, although several blanks stand between the columns and a carriage return behind their header. -/
theorem ofText_of_awkward_print :
    let text :=
      "# DXT, file_id: 7, file_name: /a/b.h5\n# Module\r\n" ++
        "X\t 4294967295\t write\t 0\t 18446744073709551615\t 512\t 5e-1\t +.75\n\n# nprocs: 1\n"
    (∃ parts, text = print parts) ∧
      (ofText text).records.map (fun record => (record.file, record.rank, record.offset)) =
        [("/a/b.h5", 4294967295, 18446744073709551615)] ∧
      (ofText text).diagnostics = [] ∧
      (ofText text).metadata.get? "nprocs" = some "1" ∧
      (ofText text).metadata.primaryFile = some "b.h5" := by
  intro text
  let printed : PrintedRecord :=
    { ioModule := "X", rank := 4294967295, operation := "write"
      segment := 0, offset := 18446744073709551615, length := 512
      startText := "5e-1", start := 0.5, stopText := "+.75", stop := 0.75
      gap := fun _ => "\t ".toList
      ioModule_isName := ⟨by decide, by decide⟩
      operation_isName := ⟨by decide, by decide⟩
      startText_reads := by decide +kernel
      start_isFinite := by decide +kernel
      stopText_reads := by decide +kernel
      stop_isFinite := by decide +kernel
      inOrder := by decide +kernel
      gap_isGap := fun _ => by decide
      newline_not_mem_gap := by decide }
  let traced : PrintedSection :=
    { identifier := "7", path := "/a/b.h5", header := "# Module\r".toList
      records := [printed], ending := []
      identifier_not_isBlank := (by decide : IsWord "7".toList).not_isBlank
      path_isWord := by decide
      newline_not_mem_header := by decide
      header_columns := by decide
      header_not_section := by decide
      newline_not_mem_ending := by decide
      ending_isBlank := fun _ h => absurd h List.not_mem_nil }
  let pair : Entry :=
    { key := "nprocs", value := "1"
      newline_not_mem_key := by decide
      separator_not_infix := by decide
      newline_not_mem_value := by decide
      value_getLast? := by decide
      not_section := by decide
      not_columns := by decide }
  have htext : text = print [.file traced, .entry pair] := by decide +kernel
  obtain ⟨hrecords, hdiagnostics, hentries, hshared⟩ := ofText_print [.file traced, .entry pair]
  refine ⟨⟨_, htext⟩, ?_⟩
  rw [htext, hrecords, hentries, hshared]
  exact ⟨rfl, hdiagnostics, rfl, by decide +kernel⟩

end TraceTimeline.Trace
