import TraceTimeline.Proofs.Trace.DataLine
import TraceTimeline.Proofs.Trace.History

/-!
# Columns behind the eighth

Newer tools write more columns behind the eight that make a record. The record does not depend on
them, but what the line is does: the marks of headers are looked for in all of it. Main statement: a
data line with more text behind a blank is taken like the line without it exactly if no mark lies in
that text or across the blank; otherwise the line is taken for a header, and its operation is lost
without a diagnostic.
-/

namespace TraceTimeline

namespace Text

/-- A piece with one blank in it lies on one side of a blank or across it. -/
theorem infix_around_iff {α : Type} {p q s t : List α} {b : α} (hp : b ∉ p) (hq : b ∉ q) :
    p ++ b :: q <:+: s ++ b :: t ↔ p ++ b :: q <:+: s ∨ p ++ b :: q <:+: t ∨ p <:+ s ∧ q <+: t := by
  constructor
  · intro h
    rcases List.infix_append_iff.mp h with h | h | ⟨front, back, heq, hfront, hback⟩
    · exact .inl h
    · rcases List.infix_cons_iff.mp h with h | h
      · cases p with
        | nil => exact .inr (.inr ⟨List.nil_suffix, (List.cons_prefix_cons.mp h).2⟩)
        | cons a p =>
            obtain ⟨rfl, -⟩ := List.cons_prefix_cons.mp h
            exact absurd List.mem_cons_self hp
      · exact .inr (.inl h)
    · cases back with
      | nil =>
          rw [heq, List.append_nil]
          exact .inl hfront.isInfix
      | cons a back =>
          obtain ⟨rfl, hbehind⟩ := List.cons_prefix_cons.mp hback
          obtain ⟨rfl, -, rfl⟩ := (List.append_cons_inj_of_notMem hp hq).mp heq
          exact .inr (.inr ⟨hfront, hbehind⟩)
  · rintro (h | h | ⟨⟨front, rfl⟩, ⟨back, rfl⟩⟩)
    · exact h.trans (List.prefix_append _ _).isInfix
    · exact h.trans ((List.suffix_cons b t).trans (List.suffix_append _ _)).isInfix
    · exact ⟨front, back, by simp⟩

end Text

namespace Trace

variable {line more file : String} {record : Record}

theorem toList_append_blank (line more : String) :
    (line ++ " " ++ more).toList = line.toList ++ ' ' :: more.toList := by
  simp

theorem columns_append_blank (line more : String) :
    Record.columns (line ++ " " ++ more) = Record.columns line ++ Record.columns more := by
  rw [Record.columns, toList_append_blank, Text.words_append_cons (by decide), List.map_append]
  rfl

/-- More columns behind a record do not change it. -/
theorem Record.IsOn.append_blank (h : record.IsOn line) (more : String) :
    record.IsOn (line ++ " " ++ more) := by
  obtain ⟨rank, segment, offset, length, start, stop, others, hfields, hnumbers⟩ := h
  refine ⟨rank, segment, offset, length, start, stop, others ++ Record.columns more, ?_, hnumbers⟩
  rw [hasFields_iff, columns_append_blank, hasFields_iff.mp hfields]
  rfl

theorem Record.ofLine_append_blank (h : Record.ofLine line file = .ok record) (more : String) :
    Record.ofLine (line ++ " " ++ more) file = .ok record := by
  obtain ⟨hrecord, rfl⟩ := ((checks_ofLine line file).of_ok record h).2
  exact (hrecord.append_blank more).ofLine_eq

/-- What stands in the columns that are added lets the line be taken for a header: one of the marks,
or the end of the mark of section headers, where the line ends in its beginning. -/
def TurnsIntoHeader (line more : String) : Prop :=
  "Module".toList <:+: more.toList ∨ "DXT, file_id".toList <:+: more.toList ∨
    "DXT,".toList <:+ line.toList ∧ "file_id".toList <+: more.toList

instance (line more : String) : Decidable (TurnsIntoHeader line more) :=
  inferInstanceAs (Decidable (_ ∨ _ ∨ _ ∧ _))

theorem isSectionHeader_append_blank_iff (h : ¬ Line.sectionMarker <:+: line.toList) :
    IsSectionHeader (line ++ " " ++ more) ↔
      "DXT, file_id".toList <:+: more.toList ∨
        "DXT,".toList <:+ line.toList ∧ "file_id".toList <+: more.toList := by
  have hmark : Line.sectionMarker = "DXT,".toList ++ ' ' :: "file_id".toList := by decide
  have haround := @Text.infix_around_iff Char _ _ line.toList more.toList ' '
    (show ' ' ∉ "DXT,".toList by decide) (show ' ' ∉ "file_id".toList by decide)
  rw [← hmark, or_iff_right h, ← toList_append_blank] at haround
  exact haround

theorem columnMarker_infix_append_blank_iff (h : ¬ Line.columnMarker <:+: line.toList) :
    Line.columnMarker <:+: (line ++ " " ++ more).toList ↔ "Module".toList <:+: more.toList := by
  rw [toList_append_blank]
  refine ⟨fun hmark => (Text.infix_append_cons (by decide) hmark).resolve_left h, fun hmark => ?_⟩
  exact hmark.trans ((List.suffix_cons _ _).trans (List.suffix_append _ _)).isInfix

theorem not_isBlankLine_append_blank (h : ¬ IsBlankLine line) (more : String) :
    ¬ IsBlankLine (line ++ " " ++ more) := by
  intro hblank
  refine h fun c hc => hblank c ?_
  rw [toList_append_blank]
  exact List.mem_append_left _ hc

theorem isBoundary_append_blank_iff (h : ¬ IsBoundary line) :
    IsBoundary (line ++ " " ++ more) ↔ TurnsIntoHeader line more := by
  obtain ⟨hblank, hsection, hcolumn⟩ := not_isBoundary_iff.mp h
  rw [← not_iff_not, not_isBoundary_iff, and_iff_right (not_isBlankLine_append_blank hblank more),
    columnMarker_infix_append_blank_iff hcolumn, TurnsIntoHeader, not_or, and_comm]
  exact and_congr_right fun _ => not_congr (isSectionHeader_append_blank_iff hsection)

/-! ## The step of the scan -/

variable {scan : Scan}

/-- A data line with a record adds the record and nothing else. -/
theorem Scan.step_eq_push (hblock : scan.block = .inside) (hfile : scan.currentFile = some file)
    (hline : ¬ IsBoundary line) (hrecord : Record.ofLine line file = .ok record) :
    scan.step line =
      { scan with lineCount := scan.lineCount + 1, records := scan.records.push record } := by
  have hdata : dataRecord? scan.currentFile line = some record := by
    rw [hfile, dataRecord?, Option.bind_some, hrecord]
    rfl
  have hkind : Line.classify line scan.block = .data := by
    rw [classify_of_not_isBoundary hline, hblock]
  rw [Scan.step, hkind]
  show Scan.takeData _ line = _
  exact Scan.takeData_eq_push hdata

/-- A boundary adds neither a record nor a diagnostic, unless it is a header without a file. -/
theorem Scan.step_of_isBoundary (hline : IsBoundary line) (hword : (sixthWord? line).isSome = true) :
    (scan.step line).records = scan.records ∧ (scan.step line).diagnostics = scan.diagnostics := by
  rcases hline with hb | hs | hc
  · rw [Scan.step, classify_of_isBlankLine hb]
    exact ⟨rfl, rfl⟩
  · obtain ⟨other, hother⟩ := Option.isSome_iff_exists.mp hword
    rw [Scan.step, classify_of_isSectionHeader hs, hother]
    exact ⟨rfl, rfl⟩
  · rw [Scan.step, classify_of_isColumnHeader hc]
    exact ⟨rfl, rfl⟩

theorem Record.IsOn.isSome_sixthWord? (h : record.IsOn line) :
    (sixthWord? line).isSome = true := by
  obtain ⟨rank, segment, offset, length, start, stop, others, hfields, -⟩ := h
  rw [sixthWord?, hasFields_iff.mp hfields]
  rfl

/-- **Columns behind the eighth are ignored unless they look like a header.** Inside a block with a
current file, a data line with a record adds that record and nothing else. With more text behind a
blank it does the same exactly if no mark of a header lies in that text or across the blank. If one
does, the line is taken for the header, and neither the record nor a diagnostic is added. -/
theorem Scan.step_extraColumns (hblock : scan.block = .inside)
    (hfile : scan.currentFile = some file) (hdata : Line.classify line .inside = .data)
    (hrecord : Record.ofLine line file = .ok record) (more : String) :
    scan.step line =
        { scan with lineCount := scan.lineCount + 1, records := scan.records.push record } ∧
      (scan.step (line ++ " " ++ more) = scan.step line ↔ ¬ TurnsIntoHeader line more) ∧
      (TurnsIntoHeader line more →
        (scan.step (line ++ " " ++ more)).records = scan.records ∧
          (scan.step (line ++ " " ++ more)).diagnostics = scan.diagnostics) := by
  have hline : ¬ IsBoundary line := fun hboundary =>
    (classify_ne_of_isBoundary hboundary .inside).1 hdata
  have hstep := Scan.step_eq_push hblock hfile hline hrecord
  have hlost : TurnsIntoHeader line more →
      (scan.step (line ++ " " ++ more)).records = scan.records ∧
        (scan.step (line ++ " " ++ more)).diagnostics = scan.diagnostics := fun hheader => by
    have hon := ((checks_ofLine line file).of_ok record hrecord).2.1
    exact Scan.step_of_isBoundary ((isBoundary_append_blank_iff hline).mpr hheader)
      (hon.append_blank more).isSome_sixthWord?
  refine ⟨hstep, ⟨fun hsame hheader => ?_, fun hfree => ?_⟩, hlost⟩
  · have hsize := congrArg (fun next => next.records.size) hsame
    simp only [hstep, (hlost hheader).1, Array.size_push] at hsize
    omega
  · have hjoined : ¬ IsBoundary (line ++ " " ++ more) := mt (isBoundary_append_blank_iff hline).mp hfree
    rw [hstep, Scan.step_eq_push hblock hfile hjoined (Record.ofLine_append_blank hrecord more)]

/-- A host and the targets of a file behind the record leave it as it is. -/
theorem host_column_ignored :
    let scan := ["# DXT, file_id: 1, file_name: /a/b.h5", "# Module Rank"].foldl Scan.step {}
    let line := "X_POSIX 0 write 0 0 8 0.25 0.5"
    Line.classify line .inside = .data ∧
      scan.step (line ++ " " ++ "DXT,nid00013 [0,1]") = scan.step line := by
  intro scan line
  have hdata : Line.classify line .inside = .data := by decide +kernel
  obtain ⟨record, hrecord⟩ : ∃ record, (Record.ofLine line "/a/b.h5").toOption = some record :=
    Option.isSome_iff_exists.mp (by decide +kernel)
  obtain ⟨-, hsame, -⟩ := Scan.step_extraColumns (show scan.block = .inside by decide +kernel)
    (show scan.currentFile = some "/a/b.h5" by decide +kernel) hdata
    (eq_ok_of_toOption hrecord) "DXT,nid00013 [0,1]"
  exact ⟨hdata, hsame.mpr (by decide +kernel)⟩

/-- A host whose name begins like a column header hides the operation in front of it. -/
theorem operation_hidden_by_host :
    let scan := ["# DXT, file_id: 1, file_name: /a/b.h5", "# Module Rank"].foldl Scan.step {}
    let line := "X_POSIX 0 write 0 0 8 0.25 0.5"
    scan.block = .inside ∧ scan.currentFile = some "/a/b.h5" ∧
      Line.classify line .inside = .data ∧
      (Record.ofLine line "/a/b.h5").toOption.isSome = true ∧
      scan.step (line ++ " " ++ "Module7") ≠ scan.step line := by
  intro scan line
  refine ⟨by decide +kernel, by decide +kernel, by decide +kernel, by decide +kernel, fun h => ?_⟩
  have hsize : (scan.step (line ++ " " ++ "Module7")).records.size ≠ (scan.step line).records.size := by
    decide +kernel
  exact hsize (congrArg (fun next => next.records.size) h)

end Trace
end TraceTimeline
