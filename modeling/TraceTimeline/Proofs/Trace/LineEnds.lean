import TraceTimeline.Proofs.Text.Lines
import TraceTimeline.Proofs.Trace.Description

/-!
# Line ends

A line ends at a newline, or at a carriage return and a newline. `withReturns` writes a text with the
second kind of line end wherever one chooses. Main statement: as long as a text has no carriage
returns of its own, the choice makes no difference to the trace that is read, and none of them gets
into a value.
-/

namespace TraceTimeline

namespace Text

def lineEnd (returned : Bool) : List Char :=
  if returned then ['\r'] else []

/-- The text with a carriage return in front of each newline that is chosen. The newlines are counted
from `n`. -/
def withReturns (chosen : Nat → Bool) (n : Nat) : List Char → List Char
  | [] => []
  | c :: s =>
    if c = '\n' then lineEnd (chosen n) ++ '\n' :: withReturns chosen (n + 1) s
    else c :: withReturns chosen n s

variable {chosen : Nat → Bool} {n : Nat} {line s : List Char}

theorem withReturns_of_not_mem (h : '\n' ∉ s) : withReturns chosen n s = s := by
  induction s with
  | nil => rfl
  | cons c s ih =>
      obtain ⟨hc, hs⟩ := List.ne_and_not_mem_of_not_mem_cons h
      rw [withReturns, if_neg (Ne.symm hc), ih hs]

/-- The line end that is chosen stands behind the first line. -/
theorem withReturns_append_newline (h : '\n' ∉ line) (s : List Char) :
    withReturns chosen n (line ++ '\n' :: s) =
      line ++ lineEnd (chosen n) ++ '\n' :: withReturns chosen (n + 1) s := by
  induction line with
  | nil => rw [List.nil_append, withReturns, if_pos rfl, List.nil_append]
  | cons c line ih =>
      obtain ⟨hc, hline⟩ := List.ne_and_not_mem_of_not_mem_cons h
      rw [List.cons_append, withReturns, if_neg (Ne.symm hc), ih hline]
      rfl

/-- The first line of a text, and the lines behind its newline. -/
theorem lines_append_newline (h : '\n' ∉ line) (s : List Char) :
    lines (line ++ '\n' :: s) = dropReturn '\r' line :: lines s := by
  obtain ⟨more, rest, rfl, hmore, hrest⟩ := exists_terminated '\n' s
  have hlines : ∀ piece ∈ line :: more, '\n' ∉ piece := List.forall_mem_cons.mpr ⟨h, hmore⟩
  have htext : line ++ '\n' :: (terminated '\n' more ++ rest) =
      terminated '\n' (line :: more) ++ rest := by
    rw [terminated_cons, List.append_assoc, List.cons_append]
  rw [htext, lines, lines, linesBy_terminated _ hlines hrest, linesBy_terminated _ hmore hrest]
  rfl

theorem newline_not_mem_append_lineEnd (h : '\n' ∉ line) (returned : Bool) :
    '\n' ∉ line ++ lineEnd returned := by
  intro hmem
  rcases List.mem_append.mp hmem with hmem | hmem
  · exact h hmem
  · revert hmem
    cases returned <;> decide

/-- A line that has no carriage return of its own is left without the one of its end. -/
theorem dropReturn_append_lineEnd (h : '\r' ∉ line) (returned : Bool) :
    dropReturn '\r' (line ++ lineEnd returned) = line := by
  cases returned with
  | true => exact dropReturn_append_return '\r' line
  | false =>
      rw [lineEnd, if_neg Bool.false_ne_true, List.append_nil]
      exact dropReturn_of_getLast?_ne fun hlast => h (List.mem_of_getLast? hlast)

/-- **Either kind of line end gives the same lines.** -/
theorem lines_withReturns (h : '\r' ∉ s) (chosen : Nat → Bool) (n : Nat) :
    lines (withReturns chosen n s) = lines s := by
  obtain ⟨front, rest, rfl, hfront, hrest⟩ := exists_terminated '\n' s
  -- The number of the next newline goes up from line to line.
  induction front generalizing n with
  | nil =>
      have hnone : withReturns chosen n rest = rest := withReturns_of_not_mem hrest
      exact congrArg lines hnone
  | cons line front ih =>
      obtain ⟨hline, hfront⟩ := List.forall_mem_cons.mp hfront
      rw [terminated_cons, List.append_assoc, List.cons_append] at h ⊢
      have hreturn : '\r' ∉ line := fun hmem => h (List.mem_append_left _ hmem)
      have hlater : '\r' ∉ terminated '\n' front ++ rest := fun hmem =>
        h (List.mem_append_right _ (List.mem_cons_of_mem _ hmem))
      have hplain : dropReturn '\r' line = line := by
        simpa [lineEnd] using dropReturn_append_lineEnd hreturn false
      calc lines (withReturns chosen n (line ++ '\n' :: (terminated '\n' front ++ rest)))
          = lines (line ++ lineEnd (chosen n) ++
              '\n' :: withReturns chosen (n + 1) (terminated '\n' front ++ rest)) := by
            rw [withReturns_append_newline hline]
        _ = line :: lines (withReturns chosen (n + 1) (terminated '\n' front ++ rest)) := by
            rw [lines_append_newline (newline_not_mem_append_lineEnd hline _),
              dropReturn_append_lineEnd hreturn]
        _ = line :: lines (terminated '\n' front ++ rest) := by rw [ih (n + 1) hlater hfront]
        _ = lines (line ++ '\n' :: (terminated '\n' front ++ rest)) := by
            rw [lines_append_newline hline, hplain]

/-- The lines of a text are made of its characters. -/
theorem mem_of_mem_lines {c : Char} (hline : line ∈ lines s) (hc : c ∈ line) : c ∈ s := by
  obtain ⟨front, rest, rfl, hfront, hrest⟩ := exists_terminated '\n' s
  rw [lines, linesBy_terminated _ hfront hrest] at hline
  rcases List.mem_append.mp hline with hline | hline
  · obtain ⟨whole, hwhole, rfl⟩ := List.mem_map.mp hline
    refine List.mem_append_left _ (List.mem_flatMap.mpr ⟨whole, hwhole, List.mem_append_left _ ?_⟩)
    rcases eq_dropReturn_or '\r' whole with heq | heq
    · rwa [heq]
    · rw [heq]
      exact List.mem_append_left _ hc
  · split at hline
    · exact absurd hline List.not_mem_nil
    · rw [List.mem_singleton.mp hline] at hc
      exact List.mem_append_right _ hc

end Text

namespace Trace

/-- A character that no line has is in no key and no value. -/
theorem not_mem_of_get?_ofLines {c : Char} {lines : List String} (h : ∀ line ∈ lines, c ∉ line.toList)
    {key value : String} (hvalue : (ofLines lines).metadata.get? key = some value) :
    c ∉ key.toList ∧ c ∉ value.toList := by
  have hgives : LastGives (fun front line value => IsEntry front line key value) lines value :=
    (@lastGives_of_step String _ lines value (fun scan => scan.metadata.get? key)
      Std.TreeMap.getElem?_emptyc fun lines _ _ => (recalls_foldl lines).step_get?).mp hvalue
  obtain ⟨front, line, hfront, ⟨-, hcut⟩, -⟩ := hgives
  have hmem : line ∈ lines := hfront.subset (List.mem_append_right _ (List.mem_singleton_self line))
  have hline : ∀ d, d ∈ key.toList ∨ d ∈ value.toList → d ∈ line.toList := by
    intro d hd
    refine List.mem_of_mem_drop (i := 2) ?_
    rw [hcut.1]
    rcases hd with hd | hd
    · exact List.mem_append_left _ (List.mem_append_left _ hd)
    · exact List.mem_append_right _ hd
  exact ⟨fun hkey => h line hmem (hline c (.inl hkey)),
    fun hvalue => h line hmem (hline c (.inr hvalue))⟩

/-- **Line ends do not matter.** A text without carriage returns is the same trace whichever of its
newlines get one in front of them: the metadata, the shared file, the records and the diagnostics
with their line numbers are those of the text itself, and no key and no value has a carriage return
in it. -/
theorem ofText_withReturns {text : String} (h : '\r' ∉ text.toList) (chosen : Nat → Bool) :
    let rewritten := ofText (String.ofList (Text.withReturns chosen 0 text.toList))
    rewritten = ofText text ∧
      ∀ key value, rewritten.metadata.get? key = some value →
        '\r' ∉ key.toList ∧ '\r' ∉ value.toList := by
  intro rewritten
  have hsame : rewritten = ofText text := by
    show ofLines ((Text.lines (String.ofList _).toList).map String.ofList) = _
    rw [String.toList_ofList, Text.lines_withReturns h]
    rfl
  refine ⟨hsame, fun key value hvalue => ?_⟩
  rw [hsame] at hvalue
  refine not_mem_of_get?_ofLines (fun line hline hc => ?_) hvalue
  obtain ⟨s, hs, rfl⟩ := List.mem_map.mp hline
  rw [String.toList_ofList] at hc
  exact h (Text.mem_of_mem_lines hs hc)

/-- A blank line and the line behind it get a carriage return, the line in front gets none, and the
last line has no end at all. -/
theorem mixed_line_ends_ignored :
    let text := "# start_time: 1\n\n# nprocs: 2\n# end_time: 3"
    let mixed := "# start_time: 1\n\r\n# nprocs: 2\r\n# end_time: 3"
    '\r' ∉ text.toList ∧ ofText mixed = ofText text ∧
      (ofText mixed).metadata.get? "nprocs" = some "2" ∧ '\r' ∉ "2".toList := by
  intro text mixed
  have hreturn : '\r' ∉ text.toList := by decide +kernel
  have hmixed : String.ofList (Text.withReturns (0 < ·) 0 text.toList) = mixed := by decide +kernel
  have hvalue : (ofText mixed).metadata.get? "nprocs" = some "2" := by decide +kernel
  obtain ⟨hsame, hplain⟩ := ofText_withReturns hreturn (0 < ·)
  rw [hmixed] at hsame hplain
  exact ⟨hreturn, hsame, hvalue, (hplain _ _ hvalue).2⟩

end Trace
end TraceTimeline
