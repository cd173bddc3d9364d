import TraceTimeline.Proofs.Text.Lines
import TraceTimeline.Trace.Scan

/-!
# Traces in streams

A stream is split into lines as bytes, and each line is decoded on its own. Main statement: this gives
a trace exactly if the stream as a whole is a text, and then it is the trace of that text.
-/

namespace TraceTimeline.Trace

open Json

/-- The bytes of a text are read as the text is. -/
theorem ofBytes?_ofText (text : String) : ofBytes? (Bytes.ofText text) = some (ofText text) := by
  have hlines : Text.linesBy 0x0A 0x0D (Bytes.ofText text) =
      ((Text.lines text.toList).map String.ofList).map Bytes.ofText := by
    rw [Bytes.ofText_eq_flatMap, List.map_map]
    refine (Text.linesBy_encode text.toList).trans (List.map_congr_left fun line _ => ?_)
    exact (Bytes.ofText_ofList line).symm
  rw [ofBytes?, Bytes.mapM_toText?_eq_some_iff.mpr hlines]
  rfl

/-- **When a stream is a trace, and which.** A stream is read exactly if it is a text written in UTF-8,
and then as that text is: with the same metadata, the same records and the same diagnostics. One
wrong byte anywhere makes it unreadable, on whatever line it stands. -/
theorem ofBytes?_eq_some_iff {bytes : Bytes} {trace : Trace} :
    ofBytes? bytes = some trace ↔
      ∃ text, bytes = Bytes.ofText text ∧ trace = ofText text := by
  constructor
  · intro h
    obtain ⟨lines, hlines, -⟩ := Option.map_eq_some_iff.mp h
    have hpieces : Text.linesBy (ascii '\n') (ascii '\r') bytes = lines.map Bytes.ofText :=
      Bytes.mapM_toText?_eq_some_iff.mp hlines
    obtain ⟨s, rfl⟩ : Text.IsText bytes := by
      refine Text.isText_of_linesBy fun line hline => ?_
      rw [hpieces] at hline
      obtain ⟨text, -, rfl⟩ := List.mem_map.mp hline
      exact ⟨text.toList, Bytes.ofText_eq_flatMap text⟩
    have hbytes : Text.encode s = Bytes.ofText (String.ofList s) := (Bytes.ofText_ofList s).symm
    rw [hbytes, ofBytes?_ofText] at h
    exact ⟨String.ofList s, hbytes, (Option.some.inj h).symm⟩
  · rintro ⟨text, rfl, rfl⟩
    exact ofBytes?_ofText text

end TraceTimeline.Trace
