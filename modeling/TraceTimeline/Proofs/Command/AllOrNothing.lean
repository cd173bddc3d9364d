import TraceTimeline.Proofs.Command.Effects
import TraceTimeline.Proofs.Timeline.Layout

/-!
# A conversion is done as a whole or not at all

A conversion reads its trace and makes its timeline before anything is changed, and saving the
timeline fails only before the file is put in place. Behind it there is the summary alone, which
asks for metadata that the timeline was made from. Main statement: a conversion that fails has
changed no file and printed nothing, and one that succeeds has written the timeline of its input and
changed no other file.
-/

namespace TraceTimeline

open FileSystem Job

def ConversionError.IsEarly (error : ConversionError) : Prop :=
  ∀ fault, error ≠ .noSummary fault

namespace Conversion

variable {conversion : Conversion} {session : Session} {files : FileSystem} {path : Path}

/-- The path that the trace is read from: the input as given if anything is there, and otherwise, if
that is relative, the input in the trace directory. -/
inductive InputIs (conversion : Conversion) (files : FileSystem) : Path → Prop
  | given (h : files.isPresent conversion.input = true) : InputIs conversion files conversion.input
  | inTraceDirectory {directory : Path} (habsent : files.isPresent conversion.input = false)
      (hrelative : conversion.input.isAbsolute = false)
      (hdirectory : conversion.traceDirectory = some directory)
      (h : files.isPresent (directory.join conversion.input) = true) :
      InputIs conversion files (directory.join conversion.input)

def Reads (conversion : Conversion) (session : Session) (bytes : Bytes) : Prop :=
  if conversion.input.text = "-" then bytes = session.input
  else ∃ path, conversion.InputIs session.files path ∧ session.files.find path = .ok (.file bytes)

theorem InputIs.unique {path path' : Path} (h : conversion.InputIs files path)
    (h' : conversion.InputIs files path') : path = path' := by
  cases h with
  | given h =>
      cases h' with
      | given => rfl
      | inTraceDirectory habsent => exact absurd (h.symm.trans habsent) (by decide)
  | inTraceDirectory habsent _ hdirectory =>
      cases h' with
      | given h' => exact absurd (h'.symm.trans habsent) (by decide)
      | inTraceDirectory _ _ hdirectory' =>
          rw [Option.some.inj (hdirectory.symm.trans hdirectory')]

theorem ends_findInput (conversion : Conversion) (session : Session) :
    Ends conversion.findInput session
      (fun path after => after = session ∧ conversion.InputIs session.files path)
      (fun error after => after = session ∧ error.IsEarly) := by
  unfold findInput
  dsimp only
  rw [ends_bind, ends_lift, run_isPresent]
  by_cases hgiven : session.files.isPresent conversion.input = true
  · rw [if_pos hgiven, ends_pure]
    exact ⟨rfl, .given hgiven⟩
  · rw [if_neg hgiven]
    cases hdirectory : conversion.traceDirectory with
    | none => exact ⟨rfl, nofun⟩
    | some directory =>
        dsimp only
        rw [ends_bind, ends_lift, run_isPresent]
        split
        · rename_i hfound
          rw [Bool.and_eq_true, Bool.not_eq_true'] at hfound
          exact ⟨rfl, .inTraceDirectory (eq_false_of_ne_true hgiven) hfound.1 hdirectory hfound.2⟩
        · exact ⟨rfl, nofun⟩

theorem find_of_read {bytes : Bytes} (h : files.read path = .ok bytes) :
    files.find path = .ok (.file bytes) := by
  unfold FileSystem.read at h
  split at h
  · cases h
  · cases h
  · rename_i content hfind
    rw [hfind, Except.ok.inj h]

/-- The bytes are a trace unless they are no text. -/
theorem ends_decodeTrace (report : FileFault → ConversionError) (session : Session)
    (bytes : Bytes) :
    Ends (liftM (decodeTrace report bytes) : Job ConversionError Trace) session
      (fun trace after => after = session ∧ Trace.ofBytes? bytes = some trace)
      (fun error after =>
        after = session ∧ Trace.ofBytes? bytes = none ∧ error = report .notText) := by
  unfold decodeTrace
  cases htrace : Trace.ofBytes? bytes with
  | none => exact ⟨rfl, rfl, rfl⟩
  | some trace => exact ⟨rfl, rfl⟩

/-- Reading the trace leaves everything as it is. -/
theorem ends_readTrace (conversion : Conversion) (session : Session) :
    Ends conversion.readTrace session
      (fun trace after => after = session ∧
        ∃ bytes, conversion.Reads session bytes ∧ Trace.ofBytes? bytes = some trace)
      (fun error after => after = session ∧ error.IsEarly) := by
  have hdecode : ∀ {report : FileFault → ConversionError} {bytes : Bytes},
      conversion.Reads session bytes → (report .notText).IsEarly →
      Ends (liftM (decodeTrace report bytes) : Job ConversionError Trace) session
        (fun trace after => after = session ∧
          ∃ bytes, conversion.Reads session bytes ∧ Trace.ofBytes? bytes = some trace)
        (fun error after => after = session ∧ error.IsEarly) := by
    intro report bytes hreads hearly
    refine (ends_decodeTrace report session bytes).imp ?_ ?_
    · exact fun trace after h => ⟨h.1, bytes, hreads, h.2⟩
    · rintro error after ⟨hafter, -, rfl⟩
      exact ⟨hafter, hearly⟩
  unfold readTrace
  by_cases hstream : conversion.input.text = "-"
  · rw [if_pos hstream, ends_bind, ends_lift]
    exact hdecode ((if_pos hstream).mpr rfl) nofun
  · rw [if_neg hstream, ends_bind]
    refine (ends_findInput conversion session).imp ?_ fun _ _ h => h
    rintro path after ⟨rfl, hpath⟩
    rw [ends_bind, ends_lift, run_readFile]
    split
    · rename_i bytes hread
      refine hdecode ?_ nofun
      rw [Reads, if_neg hstream]
      exact ⟨path, hpath, find_of_read hread⟩
    · exact ⟨rfl, nofun⟩
    · exact ⟨rfl, nofun⟩

/-! ## The whole conversion -/

/-- The document is the written timeline of the trace in these bytes. -/
def Makes (conversion : Conversion) (bytes document : Bytes) : Prop :=
  ∃ trace timeline, Trace.ofBytes? bytes = some trace ∧
    Timeline.ofRecords trace.records trace.metadata (conversion.classifier trace) = .ok timeline ∧
    document = Bytes.ofText (timeline.toJson conversion.style)

theorem exists_summary {trace : Trace} {classifier : Trace.Classifier} {timeline : Timeline}
    (h : Timeline.ofRecords trace.records trace.metadata classifier = .ok timeline) :
    ∃ summary, trace.summary classifier = .ok summary := by
  obtain ⟨start, stop, -, hstart, hstop, -⟩ := Timeline.ofRecords_eq_ok_iff.mp h
  unfold Trace.summary
  rw [hstart, hstop]
  exact ⟨_, rfl⟩

theorem ends_run (conversion : Conversion) (session : Session) :
    Ends conversion.run session
      (fun _ after => ∃ bytes document location,
        conversion.Reads session bytes ∧ conversion.Makes bytes document ∧
        after.files.locate conversion.output = .ok location ∧
        WrittenAt location document conversion.output.directory.ancestors
          session.files after.files)
      (fun error after =>
        OnlyMakes conversion.output.directory.ancestors session after ∧ error.IsEarly) := by
  have hnothing := OnlyMakes.refl conversion.output.directory.ancestors session
  unfold run
  rw [ends_bind]
  refine (ends_readTrace conversion session).imp ?_ ?_
  · rintro trace after ⟨rfl, bytes, hreads, htrace⟩
    dsimp only
    rw [ends_bind, ends_ofExcept]
    cases htimeline :
        Timeline.ofRecords trace.records trace.metadata (conversion.classifier trace) with
    | error fault => exact ⟨hnothing, nofun⟩
    | ok timeline =>
        obtain ⟨summary, hsummary⟩ := exists_summary htimeline
        dsimp only [Except.mapError]
        rw [ends_bind, ends_adapt, hsummary]
        refine (timeline.ends_save conversion.style conversion.output after).imp ?_ ?_
        · rintro - written ⟨-, -, location, hlocate, hwritten⟩
          have hmakes : conversion.Makes bytes _ := ⟨trace, timeline, htrace, htimeline, rfl⟩
          -- Printing the summary touches no file.
          split
          · exact ⟨bytes, _, location, hreads, hmakes, hlocate, hwritten⟩
          · exact ⟨bytes, _, location, hreads, hmakes, hlocate, hwritten⟩
        · intro fault failed hmade
          exact ⟨hmade, nofun⟩
  · rintro error after ⟨rfl, hearly⟩
    exact ⟨hnothing, hearly⟩

/-- **A conversion is all or nothing.** If it succeeds, the document of its input is in the file
that the path of the output leads to. Any other place holds the file that it held, and what is new
there is a directory above the output. If it fails, every file is as it was, there is no new one,
and nothing has been printed. It never fails for want of the summary, which comes last. -/
theorem run_all_or_nothing (conversion : Conversion) (session : Session) :
    Ends conversion.run session
      (fun _ after => ∃ bytes document location,
        conversion.Reads session bytes ∧ conversion.Makes bytes document ∧
        after.files.locate conversion.output = .ok location ∧
        after.files.entry? location = some (.file document) ∧
        ∀ other, other ≠ location →
          (∀ content, after.files.entry? other = some (.file content) ↔
            session.files.entry? other = some (.file content)) ∧
          ∀ entry, after.files.entry? other = some entry → session.files.entry? other = none →
            entry = .directory ∧
              ∃ path ∈ conversion.output.directory.ancestors, after.files.locate path = .ok other)
      (fun error after =>
        (∀ location content, after.files.entry? location = some (.file content) ↔
          session.files.entry? location = some (.file content)) ∧
        after.printed = session.printed ∧ ∀ fault, error ≠ .noSummary fault) := by
  refine (conversion.ends_run session).imp ?_ ?_
  · rintro - after ⟨bytes, document, location, hreads, hmakes, hlocate, hwritten⟩
    refine ⟨bytes, document, location, hreads, hmakes, hlocate, hwritten.written, ?_⟩
    exact fun other hother => ⟨hwritten.file_iff hother, hwritten.fresh other hother⟩
  · rintro error after ⟨hmade, hearly⟩
    exact ⟨hmade.files.file_iff, hmade.printed, hearly⟩

end Conversion
end TraceTimeline
