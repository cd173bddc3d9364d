import TraceTimeline.Proofs.Command.AllOrNothing
import TraceTimeline.Proofs.Timeline.DocumentRoundTrip
import TraceTimeline.Proofs.Timeline.NoTrace

/-!
# When a conversion keeps its input

A conversion is refused where input and output are the same path as written. Two paths that are
written differently can lead to one file all the same, and the trace directory can lead from the
input to the output. Main statement: a conversion keeps the file that it reads if it fails, and if
it succeeds, exactly if its output does not lead to that file.
-/

namespace TraceTimeline

open FileSystem Job

namespace Conversion

variable {conversion : Conversion} {session : Session} {path : Path} {location : Location}
  {content bytes document : Bytes}

theorem eq_of_reads (hstream : conversion.input.text ≠ "-")
    (hpath : conversion.InputIs session.files path)
    (hcontent : session.files.find path = .ok (.file content))
    (h : conversion.Reads session bytes) : bytes = content := by
  rw [Reads, if_neg hstream] at h
  obtain ⟨path', hpath', hbytes⟩ := h
  rw [hpath'.unique hpath, hcontent] at hbytes
  exact (Entry.file.inj (Except.ok.inj hbytes)).symm

/-- The trace of a run is never its own document. -/
theorem Makes.ne (h : conversion.Makes bytes document) : document ≠ bytes := by
  obtain ⟨trace, timeline, htrace, htimeline, rfl⟩ := h
  rintro rfl
  exact Timeline.not_ofRecords_of_toJson htrace htimeline

/-- **When the input is kept.** Let a conversion read the trace in the file at `location`. A failure
leaves that file as it is. Success leaves it as it is exactly if the output, followed in the files
that the conversion leaves, does not lead there. -/
theorem ends_run_input (hstream : conversion.input.text ≠ "-")
    (hpath : conversion.InputIs session.files path)
    (hlocate : session.files.locate path = .ok location)
    (hcontent : session.files.entry? location = some (.file content)) :
    Ends conversion.run session
      (fun _ after =>
        after.files.entry? location = some (.file content) ↔
          after.files.locate conversion.output ≠ .ok location)
      (fun _ after => after.files.entry? location = some (.file content)) := by
  have hfind := find_of_locate hlocate hcontent
  refine (conversion.ends_run session).imp ?_ ?_
  · rintro - after ⟨bytes, document, output, hreads, hmakes, houtput, hwritten⟩
    obtain rfl := eq_of_reads hstream hpath hfind hreads
    constructor
    · intro hkept hsame
      obtain rfl : output = location := Except.ok.inj (houtput.symm.trans hsame)
      rw [hwritten.written] at hkept
      exact hmakes.ne (Entry.file.inj (Option.some.inj hkept))
    · intro hother
      refine hwritten.kept location (fun hsame => hother ?_) _ hcontent
      rw [hsame]
      exact houtput
  · rintro error after ⟨hmade, -⟩
    exact hmade.files.kept location _ hcontent

/-- The conversion is accepted and succeeds, and the file that it has read is not what it was. -/
def Overwrites (conversion : Conversion) (session : Session) : Prop :=
  conversion.validate = .ok () ∧
    ∃ path location content, conversion.InputIs session.files path ∧
      session.files.locate path = .ok location ∧
      session.files.entry? location = some (.file content) ∧
      Ends conversion.run session
        (fun _ after => after.files.entry? location ≠ some (.file content)) (fun _ _ => False)

/-- There are such conversions. The first spells one path in two ways; in the second the trace
directory leads to the output. -/
theorem inputs_overwritten :
    let trace := Bytes.ofText "# start_time: 1\n# end_time: 2\n# nprocs: 1\n"
    Overwrites { input := ⟨"./t.txt"⟩, output := ⟨"t.txt"⟩ }
        { files := ⟨[(["t.txt"], .file trace)], []⟩ } ∧
      Overwrites { input := ⟨"t.txt"⟩, traceDirectory := some ⟨"d"⟩, output := ⟨"d/t.txt"⟩ }
        { files := ⟨[(["d"], .directory), (["d", "t.txt"], .file trace)], []⟩ } := by
  intro trace
  have hrun : ∀ (conversion : Conversion) (session : Session) (path : Path) (location : Location),
      conversion.validate.toOption = some () → conversion.input.text ≠ "-" →
      conversion.InputIs session.files path →
      (session.files.locate path).toOption = some location →
      session.files.entry? location = some (.file trace) →
      ((conversion.run : Job ConversionError Unit) session).1.toOption = some () →
      (((conversion.run : Job ConversionError Unit) session).2.files.locate
        conversion.output).toOption = some location →
      Overwrites conversion session := by
    intro conversion session path location hvalid hstream hpath hlocate hcontent hdone houtput
    refine ⟨eq_ok_of_toOption hvalid, path, location, trace, hpath, eq_ok_of_toOption hlocate,
      hcontent, ?_⟩
    have hends := ends_run_input hstream hpath (eq_ok_of_toOption hlocate) hcontent
    unfold Ends at hends ⊢
    generalize (conversion.run : Job ConversionError Unit) session = ended
      at hends hdone houtput ⊢
    obtain ⟨_ | _, after⟩ := ended
    · cases hdone
    · exact fun hkept => hends.mp hkept (eq_ok_of_toOption houtput)
  constructor
  · exact hrun _ _ ⟨"./t.txt"⟩ ["t.txt"] (by decide +kernel) (by decide)
      (.given (by decide +kernel)) (by decide +kernel) (by decide +kernel) (by decide +kernel)
      (by decide +kernel)
  · exact hrun _ _ (Path.join ⟨"d"⟩ ⟨"t.txt"⟩) ["d", "t.txt"] (by decide +kernel) (by decide)
      (.inTraceDirectory (by decide +kernel) (by decide +kernel) rfl (by decide +kernel))
      (by decide +kernel) (by decide +kernel) (by decide +kernel) (by decide +kernel)

end Conversion
end TraceTimeline
