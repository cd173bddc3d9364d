import TraceTimeline.Proofs.Command.AllOrNothing
import TraceTimeline.Proofs.Timeline.DocumentRoundTrip

/-!
# Conversions that read the same bytes

What a conversion makes of a trace depends on the bytes of the trace and on the layout. How the trace
is found, what the shared file is said to be, where the document goes and what was there before make
no difference to it. Main statement: two conversions that read the same bytes fail alike or write the
same document, and with another shared file a conversion differs in the end of its summary alone.
-/

namespace TraceTimeline

open FileSystem Job Trace

def ConversionError.IsUndecoded (error : ConversionError) : Prop :=
  error = .cannotReadInput .notText ∨ ∃ path, error = .cannotRead path .notText

namespace Trace.Summary

def filesNote : List String → String
  | [] => ""
  | names =>
    "\nUnclassified files drawn on the backend track:\n" ++
      String.join (names.map fun name => "  " ++ name ++ "\n")

theorem text_eq (summary : Summary) :
    summary.text = summary.overview ++ filesNote summary.unclassifiedFiles.toList :=
  rfl

def forgetFiles (summary : Summary) : Summary :=
  { summary with unclassifiedFiles := {} }

theorem overview_forgetFiles (summary : Summary) :
    summary.forgetFiles.overview = summary.overview :=
  rfl

theorem forgetFiles_add (classifier classifier' : Classifier) (summary : Summary)
    (record : Record) :
    (add classifier summary record).forgetFiles =
      (add classifier' summary.forgetFiles record).forgetFiles := by
  simp only [forgetFiles, add, Classifier.layer]

/-- Which file is the shared one makes a difference to the unclassified files alone. -/
theorem forgetFiles_foldl_add (classifier classifier' : Classifier) (records : List Record)
    {summary summary' : Summary} (h : summary.forgetFiles = summary'.forgetFiles) :
    (records.foldl (add classifier) summary).forgetFiles =
      (records.foldl (add classifier') summary').forgetFiles := by
  induction records generalizing summary summary' with
  | nil => exact h
  | cons record records ih =>
      refine ih ?_
      rw [forgetFiles_add classifier classifier', h, ← forgetFiles_add]

theorem overview_ofRecords (classifier classifier' : Classifier) (startTime endTime : Float)
    (skippedLines : Nat) (records : List Record) :
    (ofRecords classifier startTime endTime skippedLines records).overview =
      (ofRecords classifier' startTime endTime skippedLines records).overview := by
  rw [← overview_forgetFiles, ← overview_forgetFiles (ofRecords classifier' _ _ _ _), ofRecords,
    ofRecords, forgetFiles_foldl_add classifier classifier' records rfl]

end Trace.Summary

/-- Which file is the shared one makes no difference to the timeline. -/
theorem Timeline.ofRecords_classifier (records : List Record) (metadata : Metadata)
    (classifier classifier' : Classifier) :
    Timeline.ofRecords records metadata classifier =
      Timeline.ofRecords records metadata classifier' :=
  rfl

namespace Conversion

variable {conversion : Conversion} {session : Session} {bytes : Bytes}

/-! ## Running a conversion -/

theorem ends_findInput_of_inputIs {path : Path} (h : conversion.InputIs session.files path) :
    Ends conversion.findInput session (fun found after => found = path ∧ after = session)
      (fun _ _ => False) := by
  unfold findInput
  dsimp only
  rw [ends_bind, ends_lift, run_isPresent]
  cases h with
  | given h =>
      rw [if_pos h]
      exact ⟨rfl, rfl⟩
  | inTraceDirectory habsent hrelative hdirectory h =>
      rw [if_neg (ne_true_of_eq_false habsent), hdirectory]
      dsimp only
      rw [ends_bind, ends_lift, run_isPresent, hrelative, h]
      exact ⟨rfl, rfl⟩

/-- Where the bytes of the trace can be had, reading it fails only if they are no text. -/
theorem ends_readTrace_of_reads (h : conversion.Reads session bytes) :
    Ends conversion.readTrace session
      (fun trace after => after = session ∧ Trace.ofBytes? bytes = some trace)
      (fun error after => after = session ∧ Trace.ofBytes? bytes = none ∧ error.IsUndecoded) := by
  unfold Reads at h
  unfold readTrace
  split at h
  · rename_i hstream
    subst h
    rw [if_pos hstream, ends_bind, ends_lift]
    refine (ends_decodeTrace _ _ _).imp (fun _ _ h => h) ?_
    exact fun error after ⟨hafter, hnone, herror⟩ => ⟨hafter, hnone, .inl herror⟩
  · rename_i hstream
    obtain ⟨path, hpath, hfind⟩ := h
    rw [if_neg hstream, ends_bind]
    refine (ends_findInput_of_inputIs hpath).imp ?_ fun _ _ h => h.elim
    rintro found after ⟨rfl, rfl⟩
    have hread : after.files.read found = .ok bytes := by
      rw [FileSystem.read, hfind]
      rfl
    rw [ends_bind, ends_lift, run_readFile, hread]
    refine (ends_decodeTrace _ _ _).imp (fun _ _ h => h) ?_
    exact fun error after ⟨hafter, hnone, herror⟩ => ⟨hafter, hnone, .inr ⟨_, herror⟩⟩

def report (conversion : Conversion) (trace : Trace) (timeline : Timeline) : String :=
  if conversion.summary then
    match trace.summary (conversion.classifier trace) with
    | .ok summary => summaryText timeline.events.length summary
    | .error _ => ""
  else ""

/-- What becomes of a trace that has been read. -/
def finish (conversion : Conversion) (trace : Trace) (session : Session) :
    Except ConversionError Unit × Session :=
  match Timeline.ofRecords trace.records trace.metadata ⟨none⟩ with
  | .error fault => (.error (.unusableMetadata fault), session)
  | .ok timeline =>
    match (timeline.save conversion.style conversion.output : Job DocumentError Unit) session with
    | (.error fault, after) => (.error (.cannotWrite fault), after)
    | (.ok (), after) =>
      (.ok (), { after with printed := after.printed ++ conversion.report trace timeline })

theorem run_eq (conversion : Conversion) (session : Session) :
    (conversion.run : Job ConversionError Unit) session =
      match (conversion.readTrace : Job ConversionError Trace) session with
      | (.ok trace, after) => conversion.finish trace after
      | (.error error, after) => (.error error, after) := by
  unfold run
  rw [Job.run_bind]
  rcases (conversion.readTrace : Job ConversionError Trace) session with ⟨_ | trace, after⟩
  · rfl
  · dsimp only [finish]
    rw [Job.run_bind, Timeline.ofRecords_classifier trace.records trace.metadata _ ⟨none⟩]
    cases htimeline : Timeline.ofRecords trace.records trace.metadata ⟨none⟩ with
    | error fault => rfl
    | ok timeline =>
        obtain ⟨summary, hsummary⟩ :=
          @exists_summary _ (conversion.classifier trace) _ htimeline
        show ((timeline.save conversion.style conversion.output).adapt .cannotWrite >>= _ :
          Job ConversionError Unit) after = _
        rw [Job.run_bind, Job.run_adapt]
        dsimp only [report]
        rw [hsummary]
        rcases (timeline.save conversion.style conversion.output : Job DocumentError Unit) after
          with ⟨_ | _, written⟩
        · rfl
        · cases conversion.summary with
          | true => rfl
          | false =>
              dsimp only [Except.mapError]
              rw [if_neg Bool.false_ne_true, if_neg Bool.false_ne_true, String.append_empty]
              rfl

/-! ## What decides how a conversion ends -/

/-- Why the conversion of some bytes fails. -/
inductive Explains (bytes : Bytes) : ConversionError → Prop
  | undecoded {error : ConversionError} : Trace.ofBytes? bytes = none → error.IsUndecoded →
      Explains bytes error
  | unusable {trace : Trace} {fault : MetadataError} : Trace.ofBytes? bytes = some trace →
      Timeline.ofRecords trace.records trace.metadata ⟨none⟩ = .error fault →
      Explains bytes (.unusableMetadata fault)
  | unwritten {trace : Trace} {timeline : Timeline} {fault : DocumentError} :
      Trace.ofBytes? bytes = some trace →
      Timeline.ofRecords trace.records trace.metadata ⟨none⟩ = .ok timeline →
      Explains bytes (.cannotWrite fault)

def Completes (conversion : Conversion) (session : Session) (bytes : Bytes) (after : Session) :
    Prop :=
  ∃ trace timeline, Trace.ofBytes? bytes = some trace ∧
    Timeline.ofRecords trace.records trace.metadata ⟨none⟩ = .ok timeline ∧
    after.files.find conversion.output =
      .ok (.file (Bytes.ofText (timeline.toJson conversion.style))) ∧
    after.printed = session.printed ++ conversion.report trace timeline

/-- A conversion ends as its bytes have it, unless the document cannot be written. -/
theorem ends_run_of_reads (h : conversion.Reads session bytes) :
    Ends conversion.run session (fun _ after => conversion.Completes session bytes after)
      (fun error _ => Explains bytes error) := by
  have hread := ends_readTrace_of_reads h
  unfold Ends
  rw [run_eq]
  rcases hrun : (conversion.readTrace : Job ConversionError Trace) session
    with ⟨error | trace, after⟩
  · obtain ⟨-, hnone, hundecoded⟩ := hread.of_error hrun
    exact .undecoded hnone hundecoded
  · obtain ⟨rfl, htrace⟩ := hread.of_ok hrun
    dsimp only [finish]
    cases htimeline : Timeline.ofRecords trace.records trace.metadata ⟨none⟩ with
    | error fault => exact .unusable htrace htimeline
    | ok timeline =>
        have hsave := timeline.ends_save conversion.style conversion.output after
        rcases hrun : (timeline.save conversion.style conversion.output : Job DocumentError Unit)
          after with ⟨fault | _, written⟩
        · simp only [hrun]
          exact .unwritten htrace htimeline
        · obtain ⟨-, hprinted, location, hlocate, hwritten⟩ := hsave.of_ok hrun
          simp only [hrun]
          refine ⟨trace, timeline, htrace, htimeline, ?_, ?_⟩
          · exact find_of_locate hlocate hwritten.written
          · rw [hprinted]

def outcome (conversion : Conversion) (session : Session) : Except ConversionError Unit × Session :=
  (conversion.run : Job ConversionError Unit) session

theorem explains_of_outcome (h : conversion.Reads session bytes) {error : ConversionError}
    (herror : (conversion.outcome session).1 = .error error) : Explains bytes error :=
  (ends_run_of_reads h).of_error (Prod.ext herror rfl)

theorem completes_of_outcome (h : conversion.Reads session bytes)
    (hok : (conversion.outcome session).1 = .ok ()) :
    conversion.Completes session bytes (conversion.outcome session).2 :=
  (ends_run_of_reads h).of_ok (Prod.ext hok rfl)

theorem undecoded_iff (h : conversion.Reads session bytes) :
    (∃ error, (conversion.outcome session).1 = .error error ∧ error.IsUndecoded) ↔
      Trace.ofBytes? bytes = none := by
  constructor
  · rintro ⟨error, herror, hundecoded⟩
    cases explains_of_outcome h herror with
    | undecoded hnone => exact hnone
    | unusable => rcases hundecoded with h | ⟨path, h⟩ <;> cases h
    | unwritten => rcases hundecoded with h | ⟨path, h⟩ <;> cases h
  · intro hnone
    cases hresult : (conversion.outcome session).1 with
    | ok =>
        obtain ⟨trace, -, htrace, -⟩ := completes_of_outcome h hresult
        rw [hnone] at htrace
        cases htrace
    | error error =>
        cases explains_of_outcome h hresult with
        | undecoded _ hundecoded => exact ⟨error, rfl, hundecoded⟩
        | unusable htrace => exact absurd (hnone.symm.trans htrace) nofun
        | unwritten htrace => exact absurd (hnone.symm.trans htrace) nofun

theorem unusable_iff (h : conversion.Reads session bytes) {fault : MetadataError} :
    (conversion.outcome session).1 = .error (.unusableMetadata fault) ↔
      ∃ trace, Trace.ofBytes? bytes = some trace ∧
        Timeline.ofRecords trace.records trace.metadata ⟨none⟩ = .error fault := by
  constructor
  · intro herror
    cases explains_of_outcome h herror with
    | undecoded _ hundecoded => rcases hundecoded with h | ⟨path, h⟩ <;> cases h
    | unusable htrace hfault => exact ⟨_, htrace, hfault⟩
  · rintro ⟨trace, htrace, hfault⟩
    cases hresult : (conversion.outcome session).1 with
    | ok =>
        obtain ⟨trace', timeline, htrace', htimeline, -⟩ := completes_of_outcome h hresult
        obtain rfl := Option.some.inj (htrace.symm.trans htrace')
        exact absurd (hfault.symm.trans htimeline) nofun
    | error error =>
        cases explains_of_outcome h hresult with
        | undecoded hnone => exact absurd (hnone.symm.trans htrace) nofun
        | unusable htrace' hfault' =>
            obtain rfl := Option.some.inj (htrace.symm.trans htrace')
            rw [Except.error.inj (hfault.symm.trans hfault')]
        | unwritten htrace' htimeline =>
            obtain rfl := Option.some.inj (htrace.symm.trans htrace')
            exact absurd (hfault.symm.trans htimeline) nofun

/-! ## Two conversions -/

/-- With another shared file a conversion ends alike and leaves the same files. -/
theorem outcome_primaryFile (conversion : Conversion) (session : Session)
    (primaryFile : Option String) :
    ({ conversion with primaryFile }.outcome session).1 = (conversion.outcome session).1 ∧
      ({ conversion with primaryFile }.outcome session).2.files =
        (conversion.outcome session).2.files := by
  have hread : ({ conversion with primaryFile }.readTrace : Job ConversionError Trace) session =
      (conversion.readTrace : Job ConversionError Trace) session := rfl
  unfold outcome
  rw [run_eq, run_eq, hread]
  rcases (conversion.readTrace : Job ConversionError Trace) session with ⟨error | trace, after⟩
  · exact ⟨rfl, rfl⟩
  · dsimp only [finish]
    cases Timeline.ofRecords trace.records trace.metadata ⟨none⟩ with
    | error fault => exact ⟨rfl, rfl⟩
    | ok timeline =>
        dsimp only
        rcases (timeline.save conversion.style conversion.output : Job DocumentError Unit) after
          with ⟨fault | _, written⟩
        · dsimp only
          exact ⟨rfl, rfl⟩
        · dsimp only
          exact ⟨rfl, rfl⟩

/-- What is printed begins as the trace has it, and ends with the files that are not known. -/
theorem exists_report {trace : Trace} {timeline : Timeline}
    (h : Timeline.ofRecords trace.records trace.metadata ⟨none⟩ = .ok timeline) :
    ∃ front, ∀ conversion : Conversion, conversion.summary = true →
      ∃ names, conversion.report trace timeline =
        front ++ Summary.filesNote names ++ summaryRule := by
  obtain ⟨start, stop, -, hstart, hstop, -⟩ := Timeline.ofRecords_eq_ok_iff.mp h
  have hsummary : ∀ classifier, trace.summary classifier = .ok
      (Summary.ofRecords classifier start stop trace.diagnostics.length trace.records) := by
    intro classifier
    unfold Trace.summary
    rw [hstart, hstop]
    rfl
  refine ⟨"\n" ++ summaryRule ++ "TIMELINE SUMMARY\n" ++ summaryRule ++ "Events:      " ++
    toString timeline.events.length ++ "\n" ++
    (Summary.ofRecords ⟨none⟩ start stop trace.diagnostics.length trace.records).overview, ?_⟩
  intro conversion hasked
  refine ⟨(Summary.ofRecords (conversion.classifier trace) start stop trace.diagnostics.length
    trace.records).unclassifiedFiles.toList, ?_⟩
  unfold report
  rw [if_pos hasked, hsummary]
  dsimp only [summaryText]
  rw [Summary.text_eq, Summary.overview_ofRecords _ ⟨none⟩]
  simp only [String.append_assoc]

/-- Nothing is printed unless a summary is asked for. -/
theorem printed_of_no_summary (h : conversion.Reads session bytes)
    (hasked : conversion.summary = false) :
    (conversion.outcome session).2.printed = session.printed := by
  cases hresult : (conversion.outcome session).1 with
  | ok =>
      obtain ⟨trace, timeline, -, -, -, hprinted⟩ := completes_of_outcome h hresult
      rw [hprinted, report, hasked, if_neg Bool.false_ne_true, String.append_empty]
  | error error =>
      obtain ⟨hmade, -⟩ := (conversion.ends_run session).of_error (Prod.ext hresult rfl)
      exact hmade.printed

/-- **The document depends on the bytes of the trace and on the layout alone.** Let two conversions
read the same bytes, by whatever route, and ask for the same layout. If the bytes are no text, both
fail for that; if the metadata cannot be used, both fail with the same error; and if both succeed,
both have written the same document. Without a summary nothing is printed. With another shared file a
conversion ends alike and leaves the same files, and summaries of the same bytes differ only in the
note at their end, on files that are not known. -/
theorem outcome_of_same_bytes {conversion conversion' : Conversion} {session session' : Session}
    {bytes : Bytes} (h : conversion.Reads session bytes) (h' : conversion'.Reads session' bytes)
    (hstyle : conversion.style = conversion'.style) :
    let ended := conversion.outcome session
    let ended' := conversion'.outcome session'
    ((∃ error, ended.1 = .error error ∧ error.IsUndecoded) ↔
      ∃ error, ended'.1 = .error error ∧ error.IsUndecoded) ∧
    (∀ fault, ended.1 = .error (.unusableMetadata fault) ↔
      ended'.1 = .error (.unusableMetadata fault)) ∧
    (ended.1 = .ok () → ended'.1 = .ok () →
      ∃ document, ended.2.files.find conversion.output = .ok (.file document) ∧
        ended'.2.files.find conversion'.output = .ok (.file document)) ∧
    (conversion.summary = false → ended.2.printed = session.printed) ∧
    (∀ primaryFile, ({ conversion with primaryFile }.outcome session).1 = ended.1 ∧
      ({ conversion with primaryFile }.outcome session).2.files = ended.2.files) ∧
    (conversion.summary = true → conversion'.summary = true → ended.1 = .ok () →
      ended'.1 = .ok () →
      ∃ front names names',
        ended.2.printed =
            session.printed ++ (front ++ Summary.filesNote names ++ summaryRule) ∧
          ended'.2.printed =
            session'.printed ++ (front ++ Summary.filesNote names' ++ summaryRule)) := by
  intro ended ended'
  refine ⟨(undecoded_iff h).trans (undecoded_iff h').symm,
    fun fault => (unusable_iff h).trans (unusable_iff h').symm, ?_, printed_of_no_summary h,
    conversion.outcome_primaryFile session, ?_⟩
  · intro hok hok'
    obtain ⟨trace, timeline, htrace, htimeline, hfind, -⟩ := completes_of_outcome h hok
    obtain ⟨trace', timeline', htrace', htimeline', hfind', -⟩ := completes_of_outcome h' hok'
    obtain rfl := Option.some.inj (htrace.symm.trans htrace')
    obtain rfl := Except.ok.inj (htimeline.symm.trans htimeline')
    rw [← hstyle] at hfind'
    exact ⟨_, hfind, hfind'⟩
  -- The bytes settle the trace and the timeline, and with them all of the report but its note.
  · intro hasked hasked' hok hok'
    obtain ⟨trace, timeline, htrace, htimeline, -, hprinted⟩ := completes_of_outcome h hok
    obtain ⟨trace', timeline', htrace', htimeline', -, hprinted'⟩ := completes_of_outcome h' hok'
    obtain rfl := Option.some.inj (htrace.symm.trans htrace')
    obtain rfl := Except.ok.inj (htimeline.symm.trans htimeline')
    obtain ⟨front, hfront⟩ := exists_report htimeline
    obtain ⟨names, hnames⟩ := hfront conversion hasked
    obtain ⟨names', hnames'⟩ := hfront conversion' hasked'
    exact ⟨front, names, names', hnames ▸ hprinted, hnames' ▸ hprinted'⟩

/-- A trace from the input stream and the same trace from the trace directory, with different shared
files and outputs, one of them in place of another file: both conversions succeed, and the documents
are the same. -/
theorem same_document_by_two_routes :
    let trace := Bytes.ofText ("# start_time: 1\n# end_time: 2\n# nprocs: 1\n" ++
      "# DXT, file_id: 1, file_name: /a.h5\n# Module Rank\nX_POSIX 0 write 0 0 1 0.5 0.75\n")
    let streamed : Conversion := { output := ⟨"new/out.json"⟩, primaryFile := some "b.h5" }
    let found : Conversion :=
      { input := ⟨"t.txt"⟩, traceDirectory := some ⟨"d"⟩, output := ⟨"old.json"⟩, summary := true }
    let session : Session := { files := ⟨[], []⟩, input := trace }
    let session' : Session :=
      { files :=
          ⟨[(["d"], .directory), (["d", "t.txt"], .file trace), (["old.json"], .file [])], []⟩ }
    (streamed.outcome session).1 = .ok () ∧ (found.outcome session').1 = .ok () ∧
      ∃ document,
        (streamed.outcome session).2.files.find ⟨"new/out.json"⟩ = .ok (.file document) ∧
          (found.outcome session').2.files.find ⟨"old.json"⟩ = .ok (.file document) := by
  intro trace streamed found session session'
  have hreads : streamed.Reads session trace := by
    rw [Reads, if_pos rfl]
  have hreads' : found.Reads session' trace := by
    rw [Reads, if_neg (by decide)]
    exact ⟨Path.join ⟨"d"⟩ ⟨"t.txt"⟩, .inTraceDirectory (by decide +kernel) (by decide +kernel) rfl
      (by decide +kernel), rfl⟩
  have hok : (streamed.outcome session).1 = .ok () := eq_ok_of_toOption (by decide +kernel)
  have hok' : (found.outcome session').1 = .ok () := eq_ok_of_toOption (by decide +kernel)
  obtain ⟨-, -, hdocument, -⟩ := outcome_of_same_bytes hreads hreads' rfl
  exact ⟨hok, hok', hdocument hok hok'⟩

end Conversion
end TraceTimeline
