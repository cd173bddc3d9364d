import TraceTimeline.Proofs.Number.FloatArithmetic
import TraceTimeline.Proofs.Number.Grammar
import TraceTimeline.Proofs.Text.Lines
import TraceTimeline.Proofs.Text.Words
import TraceTimeline.Proofs.Trace.LineKind
import TraceTimeline.Trace.Scan

/-!
# Printed traces

A trace is printed from key-value pairs and from sections: one line for a pair, and for a section its
header, a column header, a line for each record and a blank line. The pairs may stand before, between
and behind the sections. What the printed things are made of is free wherever the format leaves it
free, as the blanks between the columns of a record, the texts of its times and the column header.
Main statements: the line of a pair is cut into this pair, the first line of a section names its file,
and the line of a record is no boundary and is read as this record. The marks that boundaries have do
not come about where the pieces of such a line meet.
-/

namespace TraceTimeline.Trace

open Text

def entryLine (key value : String) : List Char :=
  "# ".toList ++ key.toList ++ ": ".toList ++ value.toList

structure Entry where
  key : String
  value : String
  newline_not_mem_key : '\n' ∉ key.toList
  separator_not_infix : ¬ ": ".toList <:+: key.toList
  newline_not_mem_value : '\n' ∉ value.toList
  value_getLast? : value.toList.getLast? ≠ some '\r'
  not_section : ¬ "DXT, file_id".toList <:+: entryLine key value
  not_columns : ¬ "Module".toList <:+: entryLine key value

def Entry.line (entry : Entry) : List Char :=
  entryLine entry.key entry.value

structure IsName (name : String) : Prop where
  isWord : IsWord name.toList
  not_columns : ¬ "Module".toList <:+: name.toList

/-- A record as it is printed, with its times as texts and the blanks between its eight columns. -/
structure PrintedRecord where
  ioModule : String
  rank : UInt32
  operation : String
  segment : UInt64
  offset : UInt64
  length : UInt64
  startText : String
  start : Float
  stopText : String
  stop : Float
  gap : Fin 7 → List Char
  ioModule_isName : IsName ioModule
  operation_isName : IsName operation
  startText_reads : Number.float? startText = some start
  start_isFinite : start.isFinite = true
  stopText_reads : Number.float? stopText = some stop
  stop_isFinite : stop.isFinite = true
  inOrder : start ≤ stop
  gap_isGap : ∀ i, IsGap (gap i)
  newline_not_mem_gap : ∀ i, '\n' ∉ gap i

namespace PrintedRecord

def columns (printed : PrintedRecord) : List (List Char × List Char) :=
  [(printed.gap 0, Number.naturalText printed.rank.toNat),
    (printed.gap 1, printed.operation.toList),
    (printed.gap 2, Number.naturalText printed.segment.toNat),
    (printed.gap 3, Number.naturalText printed.offset.toNat),
    (printed.gap 4, Number.naturalText printed.length.toNat),
    (printed.gap 5, printed.startText.toList),
    (printed.gap 6, printed.stopText.toList)]

def line (printed : PrintedRecord) : List Char :=
  joined printed.ioModule.toList printed.columns

def record (file : String) (printed : PrintedRecord) : Record where
  ioModule := printed.ioModule
  file
  rank := printed.rank
  operation := printed.operation
  segment := printed.segment
  offset := printed.offset
  length := printed.length
  start := printed.start
  stop := printed.stop

end PrintedRecord

/-- A section as it is printed, with the line of its column header and the one that ends it. -/
structure PrintedSection where
  identifier : String
  path : String
  header : List Char
  records : List PrintedRecord
  ending : List Char
  identifier_not_isBlank : ∀ c ∈ identifier.toList, isBlank c = false
  path_isWord : IsWord path.toList
  newline_not_mem_header : '\n' ∉ header
  header_columns : "Module".toList <:+: header
  header_not_section : ¬ "DXT, file_id".toList <:+: header
  newline_not_mem_ending : '\n' ∉ ending
  ending_isBlank : ∀ c ∈ ending, isBlank c = true

namespace PrintedSection

def firstLine (printed : PrintedSection) : List Char :=
  "# DXT, file_id: ".toList ++ printed.identifier.toList ++ ", file_name: ".toList ++
    printed.path.toList

def lines (printed : PrintedSection) : List (List Char) :=
  printed.firstLine :: printed.header :: printed.records.map PrintedRecord.line ++ [printed.ending]

end PrintedSection

inductive Part where
  | entry (pair : Entry)
  | file (printed : PrintedSection)

namespace Part

def lines : Part → List (List Char)
  | .entry pair => [pair.line]
  | .file printed => printed.lines

def records : Part → List Record
  | .entry _ => []
  | .file printed => printed.records.map (PrintedRecord.record printed.path)

def value? (key : String) : Part → Option String
  | .entry pair => if pair.key = key then some pair.value else none
  | .file _ => none

def sharedFile? : Part → Option String
  | .entry _ => none
  | .file printed => Trace.sharedFile? printed.path

def note (metadata : Metadata) : Part → Metadata
  | .entry pair => metadata.insert pair.key pair.value
  | .file printed => metadata.noteFile printed.path

end Part

/-- The text of a trace that is printed part by part, each line with a newline behind it. -/
def print (parts : List Part) : String :=
  String.ofList (terminated '\n' (parts.flatMap Part.lines))

/-! ## Key-value pairs -/

theorem cut_separator {key : List Char} (h : ¬ [':', ' '] <:+: key) (value : List Char) :
    cut [':', ' '] (key ++ [':', ' '] ++ value) = some (key, value) := by
  induction key with
  | nil => rfl
  | cons c key ih =>
      have hkey : ¬ [':', ' '] <:+: key := fun hkey => h (List.infix_cons hkey)
      have hprefix : ¬ [':', ' '].isPrefixOf (c :: key ++ [':', ' '] ++ value) = true := by
        rw [List.isPrefixOf_iff_prefix]
        intro hp
        obtain ⟨rfl, hspace⟩ := List.cons_prefix_cons.mp hp
        -- A space behind the first character belongs to the key.
        cases key with
        | nil => exact absurd (List.cons_prefix_cons.mp hspace).1 (by decide)
        | cons d key =>
            obtain ⟨rfl, -⟩ := List.cons_prefix_cons.mp hspace
            exact h ⟨[], key, rfl⟩
      rw [cut.eq_def, if_neg hprefix]
      show (cut [':', ' '] (key ++ [':', ' '] ++ value)).map _ = _
      rw [ih hkey]
      rfl

namespace Entry

variable (entry : Entry)

theorem keyValue?_line : Line.keyValue? entry.line = some (entry.key, entry.value) := by
  have hmarker : Line.metadataMarker.isPrefixOf entry.line = true := rfl
  have hcut : cut Line.metadataSeparator (entry.line.drop Line.metadataMarker.length) =
      some (entry.key.toList, entry.value.toList) :=
    cut_separator entry.separator_not_infix entry.value.toList
  rw [Line.keyValue?, if_pos hmarker, hcut]
  show some (String.ofList entry.key.toList, String.ofList entry.value.toList) = _
  rw [String.ofList_toList, String.ofList_toList]

theorem newline_not_mem_line : '\n' ∉ entry.line := by
  simp [line, entryLine, entry.newline_not_mem_key, entry.newline_not_mem_value]

theorem getLast?_line_ne : entry.line.getLast? ≠ some '\r' := by
  rw [line, entryLine, List.getLast?_append]
  intro h
  rcases Option.or_eq_some_iff.mp h with h | ⟨-, h⟩
  · exact entry.value_getLast? h
  · rw [List.getLast?_append] at h
    cases h

theorem not_isBoundary_line : ¬ IsBoundary (String.ofList entry.line) := by
  rintro (h | h | h)
  · have hmark : isBlank '#' = true := h '#' (by rw [String.toList_ofList]; exact List.mem_cons_self)
    exact absurd hmark (by decide)
  · rw [IsSectionHeader, String.toList_ofList] at h
    exact entry.not_section h
  · rw [IsColumnHeader, String.toList_ofList] at h
    exact entry.not_columns h.2

end Entry

/-! ## Records -/

theorem isWord_columnMarker : IsWord Line.columnMarker := by
  decide

theorem not_columns_of_isNumberWord {w : List Char} (h : Number.IsNumberWord w) :
    ¬ Line.columnMarker <:+: w := fun hw =>
  absurd (h.isNumberChar 'M' (hw.subset (by decide))) (by unfold Number.IsNumberChar; decide)

namespace PrintedRecord

variable (printed : PrintedRecord)

theorem isNumberWord_startText : Number.IsNumberWord printed.startText.toList :=
  Number.isNumberWord_of_float? printed.startText_reads printed.start_isFinite

theorem isNumberWord_stopText : Number.IsNumberWord printed.stopText.toList :=
  Number.isNumberWord_of_float? printed.stopText_reads printed.stop_isFinite

/-- Apart from the module and the operation the columns are numbers. -/
theorem columns_cases {next : List Char × List Char} (h : next ∈ printed.columns) :
    (∃ i, next.1 = printed.gap i) ∧
      (next.2 = printed.operation.toList ∨ Number.IsNumberWord next.2) := by
  simp only [columns, List.mem_cons, List.not_mem_nil, or_false] at h
  rcases h with rfl | rfl | rfl | rfl | rfl | rfl | rfl
  · exact ⟨⟨0, rfl⟩, Or.inr (Number.isNumberWord_naturalText _)⟩
  · exact ⟨⟨1, rfl⟩, Or.inl rfl⟩
  · exact ⟨⟨2, rfl⟩, Or.inr (Number.isNumberWord_naturalText _)⟩
  · exact ⟨⟨3, rfl⟩, Or.inr (Number.isNumberWord_naturalText _)⟩
  · exact ⟨⟨4, rfl⟩, Or.inr (Number.isNumberWord_naturalText _)⟩
  · exact ⟨⟨5, rfl⟩, Or.inr printed.isNumberWord_startText⟩
  · exact ⟨⟨6, rfl⟩, Or.inr printed.isNumberWord_stopText⟩

theorem isGap_of_mem_columns {next : List Char × List Char} (h : next ∈ printed.columns) :
    IsGap next.1 := by
  obtain ⟨⟨i, hi⟩, -⟩ := printed.columns_cases h
  exact hi ▸ printed.gap_isGap i

theorem isWord_of_mem_columns {next : List Char × List Char} (h : next ∈ printed.columns) :
    IsWord next.2 := by
  rcases (printed.columns_cases h).2 with hoperation | hnumber
  · exact hoperation ▸ printed.operation_isName.isWord
  · exact hnumber.isWord

theorem words_line : words printed.line = printed.ioModule.toList :: printed.columns.map Prod.snd :=
  words_joined printed.ioModule_isName.isWord fun _ h =>
    ⟨printed.isGap_of_mem_columns h, printed.isWord_of_mem_columns h⟩

theorem newline_not_mem_line : '\n' ∉ printed.line := by
  refine not_mem_joined (printed.ioModule_isName.isWord.not_mem rfl) fun next h => ⟨?_, ?_⟩
  · obtain ⟨⟨i, hi⟩, -⟩ := printed.columns_cases h
    exact hi ▸ printed.newline_not_mem_gap i
  · exact (printed.isWord_of_mem_columns h).not_mem rfl

theorem getLast?_line_ne : printed.line.getLast? ≠ some '\r' :=
  getLast?_joined_ne rfl printed.ioModule_isName.isWord fun _ => printed.isWord_of_mem_columns

/-- Of two words that stand next to each other one is a number, in which there are neither commas
nor letters of names. So the mark of section headers does not come about between two columns. -/
theorem not_section_line : ¬ Line.sectionMarker <:+: printed.line := by
  intro h
  have hacross : [',', ' ', 'f'] <:+: Line.sectionMarker :=
    ⟨"DXT".toList, "ile_id".toList, by decide⟩
  have hcomma : ∀ {w : List Char}, Number.IsNumberWord w → ',' ∉ w := fun hw hmem =>
    absurd (hw.isNumberChar ',' hmem) (by unfold Number.IsNumberChar; decide)
  have hletter : ∀ {w : List Char}, Number.IsNumberWord w → 'f' ∉ w := fun hw hmem =>
    absurd (hw.isNumberChar 'f' hmem) (by unfold Number.IsNumberChar; decide)
  have hnatural : ∀ n, Number.IsNumberWord (Number.naturalText n) := Number.isNumberWord_naturalText
  refine not_infix_of_isChain (s := printed.line) rfl rfl rfl ?_ (hacross.trans h)
  rw [words_line, columns]
  simp only [List.map_cons, List.map_nil, List.isChain_cons_cons, List.isChain_singleton, and_true]
  exact ⟨fun h => hletter (hnatural _) h.2, fun h => hcomma (hnatural _) h.1,
    fun h => hletter (hnatural _) h.2, fun h => hletter (hnatural _) h.2,
    fun h => hletter (hnatural _) h.2, fun h => hletter printed.isNumberWord_startText h.2,
    fun h => hletter printed.isNumberWord_stopText h.2⟩

theorem not_columns_line : ¬ Line.columnMarker <:+: printed.line := by
  intro h
  rcases infix_joined isWord_columnMarker (fun _ => printed.isGap_of_mem_columns) h with
    h | ⟨next, hnext, h⟩
  · exact printed.ioModule_isName.not_columns h
  · rcases (printed.columns_cases hnext).2 with hoperation | hnumber
    · rw [hoperation] at h
      exact printed.operation_isName.not_columns h
    · exact not_columns_of_isNumberWord hnumber h

theorem not_isBoundary_line : ¬ IsBoundary (String.ofList printed.line) := by
  rintro (h | h | h)
  · rw [IsBlankLine, String.toList_ofList] at h
    obtain ⟨c, w, hw⟩ := List.exists_cons_of_ne_nil printed.ioModule_isName.isWord.ne_nil
    have hc : c ∈ printed.ioModule.toList := hw ▸ List.mem_cons_self
    have hblank : isBlank c = true := h c (List.mem_append_left _ (List.mem_append_left _ hc))
    exact Bool.false_ne_true ((printed.ioModule_isName.isWord.not_isBlank c hc).symm.trans hblank)
  · rw [IsSectionHeader, String.toList_ofList] at h
    exact printed.not_section_line h
  · rw [IsColumnHeader, String.toList_ofList] at h
    exact printed.not_columns_line h.2

theorem columns_line :
    Record.columns (String.ofList printed.line) =
      [printed.ioModule, String.ofList (Number.naturalText printed.rank.toNat), printed.operation,
        String.ofList (Number.naturalText printed.segment.toNat),
        String.ofList (Number.naturalText printed.offset.toNat),
        String.ofList (Number.naturalText printed.length.toNat), printed.startText,
        printed.stopText] := by
  rw [Record.columns, String.toList_ofList, words_line, columns]
  simp only [List.map_cons, List.map_nil, String.ofList_toList]

theorem time_eq_ok {text : String} {x : Float} (h : Number.float? text = some x)
    (hx : x.isFinite = true) (column : Column) : Record.time column text = .ok x := by
  rw [Record.time, h, Option.filter_some_pos hx]

/-- A printed record is read back. -/
theorem ofLine_line (file : String) :
    Record.ofLine (String.ofList printed.line) file = .ok (printed.record file) := by
  have hrank : Record.integer Number.uint32? .rank
      (String.ofList (Number.naturalText printed.rank.toNat)) = .ok printed.rank := by
    rw [Record.integer,
      Number.uint32?_eq_some_iff.mpr (Number.naturalText_naturalText printed.rank.toNat)]
  have hinteger : ∀ column n, Record.integer Number.uint64? column
      (String.ofList (Number.naturalText n.toNat)) = .ok n := fun column n => by
    rw [Record.integer, Number.uint64?_eq_some_iff.mpr (Number.naturalText_naturalText n.toNat)]
  rw [Record.ofLine, columns_line]
  simp only [time_eq_ok printed.startText_reads printed.start_isFinite,
    time_eq_ok printed.stopText_reads printed.stop_isFinite, hrank, hinteger]
  show (if printed.stop < printed.start then _ else _) = _
  rw [if_neg (Number.not_lt_of_le printed.inOrder)]
  rfl

end PrintedRecord

/-! ## Sections -/

namespace PrintedSection

variable (printed : PrintedSection)

def firstColumns : List (List Char × List Char) :=
  [(" ".toList, "DXT,".toList), (" ".toList, "file_id:".toList),
    (" ".toList, printed.identifier.toList ++ ",".toList), (" ".toList, "file_name:".toList),
    (" ".toList, printed.path.toList)]

theorem firstLine_eq_joined : printed.firstLine = joined "#".toList printed.firstColumns := by
  have hmark : "# DXT, file_id: ".toList =
      "#".toList ++ " ".toList ++ "DXT,".toList ++ " ".toList ++ "file_id:".toList ++ " ".toList := by
    decide
  have hname : ", file_name: ".toList =
      ",".toList ++ " ".toList ++ "file_name:".toList ++ " ".toList := by
    decide
  unfold firstLine
  simp only [firstColumns, joined, hmark, hname, List.append_assoc]

theorem isWord_identifier : IsWord (printed.identifier.toList ++ ",".toList) where
  ne_nil := by simp
  not_isBlank := List.forall_mem_append.mpr
    ⟨printed.identifier_not_isBlank, (by decide : IsWord ",".toList).not_isBlank⟩

theorem firstColumns_spec : ∀ next ∈ printed.firstColumns, IsGap next.1 ∧ IsWord next.2 := by
  have hgap : IsGap " ".toList := by decide
  have hfileId : IsWord "file_id:".toList := by decide
  have hfileName : IsWord "file_name:".toList := by decide
  have hmark : IsWord "DXT,".toList := by decide
  simp only [firstColumns, List.forall_mem_cons, List.not_mem_nil, false_implies, implies_true,
    and_true]
  exact ⟨⟨hgap, hmark⟩, ⟨hgap, hfileId⟩, ⟨hgap, printed.isWord_identifier⟩, ⟨hgap, hfileName⟩,
    hgap, printed.path_isWord⟩

theorem words_firstLine :
    words printed.firstLine = "#".toList :: printed.firstColumns.map Prod.snd := by
  rw [firstLine_eq_joined]
  exact words_joined (by decide) printed.firstColumns_spec

theorem sixthWord?_firstLine :
    sixthWord? (String.ofList printed.firstLine) = some printed.path := by
  rw [sixthWord?, Record.columns, String.toList_ofList, words_firstLine]
  exact congrArg some String.ofList_toList

theorem isSectionHeader_firstLine : IsSectionHeader (String.ofList printed.firstLine) := by
  rw [IsSectionHeader, String.toList_ofList]
  refine ⟨"# ".toList,
    ": ".toList ++ printed.identifier.toList ++ ", file_name: ".toList ++ printed.path.toList, ?_⟩
  have hmark : "# ".toList ++ Line.sectionMarker ++ ": ".toList = "# DXT, file_id: ".toList := by
    decide
  unfold firstLine
  rw [← hmark]
  simp only [List.append_assoc]

theorem newline_not_mem_firstLine : '\n' ∉ printed.firstLine := by
  rw [firstLine_eq_joined]
  refine not_mem_joined (by decide) fun next h => ⟨?_, ?_⟩
  · simp only [firstColumns, List.mem_cons, List.not_mem_nil, or_false] at h
    rcases h with rfl | rfl | rfl | rfl | rfl <;> exact (by decide : '\n' ∉ " ".toList)
  · exact (printed.firstColumns_spec next h).2.not_mem rfl

theorem getLast?_firstLine_ne : printed.firstLine.getLast? ≠ some '\r' := by
  rw [firstLine_eq_joined]
  exact getLast?_joined_ne rfl (by decide) fun next h => (printed.firstColumns_spec next h).2

/-- The column header is one even if a carriage return at its end is lost. -/
theorem isColumnHeader_header :
    IsColumnHeader (String.ofList (dropReturn '\r' printed.header)) := by
  rw [IsColumnHeader, IsSectionHeader, String.toList_ofList]
  have hcolumns := printed.header_columns
  have hsection := printed.header_not_section
  rcases eq_dropReturn_or '\r' printed.header with h | h
  · rw [← h]
    exact ⟨hsection, hcolumns⟩
  · rw [h] at hcolumns hsection
    refine ⟨fun hs => hsection (List.infix_append_of_infix_left hs), ?_⟩
    rcases infix_append_cons (by decide) hcolumns with hc | hc
    · exact hc
    · exact absurd (List.eq_nil_of_infix_nil hc) isWord_columnMarker.ne_nil

theorem isBlankLine_ending :
    IsBlankLine (String.ofList (dropReturn '\r' printed.ending)) := by
  rw [IsBlankLine, String.toList_ofList]
  intro c hc
  refine printed.ending_isBlank c ?_
  rcases eq_dropReturn_or '\r' printed.ending with h | h
  · rwa [h]
  · rw [h]
    exact List.mem_append_left _ hc

end PrintedSection

end TraceTimeline.Trace
