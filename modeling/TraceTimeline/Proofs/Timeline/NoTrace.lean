import TraceTimeline.Proofs.Json.Reading
import TraceTimeline.Proofs.Timeline.Layout
import TraceTimeline.Proofs.Trace.History
import TraceTimeline.Timeline.Document

/-!
# A written timeline is no trace

The metadata of a trace stand on lines that begin with `#`. In a written timeline no line does: a
line ends only in the white space between two tokens, and no token begins with `#`. Main statement:
a written timeline, read as a trace, is not the trace of a run. So a file that holds the one never
holds the other.
-/

namespace TraceTimeline

open Json

/-- No piece between separators begins with `start`, the first one aside. -/
def StartsNoLaterPiece (separator start : UInt8) (bytes : Bytes) : Prop :=
  ∀ piece ∈ (bytes.splitOn separator).tail, piece.head? ≠ some start

namespace StartsNoLaterPiece

variable {separator start : UInt8} {bytes : Bytes}

theorem nil : StartsNoLaterPiece separator start [] :=
  fun _ h => absurd h List.not_mem_nil

theorem cons_of_ne {b : UInt8} (hb : b ≠ separator) (h : StartsNoLaterPiece separator start bytes) :
    StartsNoLaterPiece separator start (b :: bytes) := by
  unfold StartsNoLaterPiece
  rw [List.splitOn_cons_eq_if_modifyHead, if_neg (by simpa using hb), List.tail_modifyHead]
  exact h

theorem forall_piece (hstart : bytes.head? ≠ some start)
    (h : StartsNoLaterPiece separator start bytes) :
    ∀ piece ∈ bytes.splitOn separator, piece.head? ≠ some start := by
  cases bytes with
  | nil => exact List.forall_mem_singleton.mpr nofun
  | cons b bytes =>
      unfold StartsNoLaterPiece at h
      rw [List.splitOn_cons_eq_if_modifyHead] at h ⊢
      split at h
      · rename_i hb
        rw [if_pos hb]
        exact List.forall_mem_cons.mpr ⟨nofun, h⟩
      · rename_i hb
        rw [if_neg hb]
        obtain ⟨first, rest, hsplit⟩ :=
          List.exists_cons_of_ne_nil (List.splitOn_ne_nil separator bytes)
        rw [hsplit] at h ⊢
        exact List.forall_mem_cons.mpr ⟨hstart, h⟩

theorem cons {b : UInt8} (hstart : bytes.head? ≠ some start)
    (h : StartsNoLaterPiece separator start bytes) :
    StartsNoLaterPiece separator start (b :: bytes) := by
  by_cases hb : b = separator
  · unfold StartsNoLaterPiece
    rw [List.splitOn_cons_eq_if_modifyHead, if_pos (beq_iff_eq.mpr hb)]
    exact h.forall_piece hstart
  · exact h.cons_of_ne hb

theorem append {front : Bytes} (hfront : separator ∉ front)
    (h : StartsNoLaterPiece separator start bytes) :
    StartsNoLaterPiece separator start (front ++ bytes) := by
  induction front with
  | nil => exact h
  | cons b front ih =>
      obtain ⟨hb, hfront⟩ := List.ne_and_not_mem_of_not_mem_cons hfront
      exact (ih hfront).cons_of_ne (Ne.symm hb)

end StartsNoLaterPiece

namespace Json

theorem newline_not_mem_escape (c : Char) : '\n' ∉ escape c := by
  have hcontrol : ∀ n < 32, '\n' ∉ ['\\', 'u', '0', '0', hexDigit (n / 16), hexDigit (n % 16)] := by
    decide
  unfold escape
  split_ifs with _ _ _ _ hnewline _ _ hc
  · decide
  · decide
  · decide
  · decide
  · decide
  · decide
  · decide
  · exact hcontrol c.toNat hc
  · rw [List.mem_singleton]
    exact Ne.symm hnewline

structure IsQuiet (spelling : List Char) : Prop where
  newline : '\n' ∉ spelling
  ne_nil : spelling ≠ []
  head? : spelling.head? ≠ some '#'

theorem isQuiet_of_isNumeralChar {s : List Char} (hne : s ≠ [])
    (h : ∀ c ∈ s, isNumeralChar c = true) : IsQuiet s where
  newline hmem := absurd (h _ hmem) (by decide)
  ne_nil := hne
  head? hhead := absurd (h _ (List.mem_of_head? hhead)) (by decide)

theorem isQuiet_null : IsQuiet "null".toList :=
  ⟨by decide, by decide, by decide⟩

theorem isQuiet_spelling (token : Token) : IsQuiet token.spelling := by
  cases token with
  | openObject | closeObject | openArray | closeArray | comma | colon =>
      exact ⟨by decide, by decide, by decide⟩
  | null => exact isQuiet_null
  | text s =>
      refine ⟨fun hmem => ?_, List.cons_ne_nil _ _, fun h => absurd (Option.some.inj h) (by decide)⟩
      simp only [Token.spelling, quoted, List.mem_cons, List.mem_append, List.mem_flatMap,
        List.not_mem_nil, or_false] at hmem
      rcases hmem with h | ⟨c, -, hc⟩ | h
      · exact absurd h (by decide)
      · exact newline_not_mem_escape c hc
      · exact absurd h (by decide)
  | natural n =>
      have hnumeral := numeralText_naturalText n
      exact isQuiet_of_isNumeralChar (Number.naturalText_ne_nil n) hnumeral.isNumeralChar
  | float x =>
      rw [Token.spelling]
      rcases floatText_cases x with hnull | ⟨numeral, hnumeral⟩
      · rw [hnull]
        exact isQuiet_null
      · exact isQuiet_of_isNumeralChar hnumeral.ne_nil hnumeral.isNumeralChar

theorem newline_not_mem_bytes (token : Token) : ascii '\n' ∉ token.bytes := by
  intro hmem
  obtain ⟨c, hc, hbyte⟩ := List.mem_flatMap.mp hmem
  obtain rfl := eq_of_ascii_mem (by decide) hbyte
  exact (isQuiet_spelling token).newline hc

theorem head?_bytes_append_ne (token : Token) (rest : Bytes) :
    (token.bytes ++ rest).head? ≠ some (ascii '#') := by
  obtain ⟨-, hne, hhead⟩ := isQuiet_spelling token
  obtain ⟨c, cs, hspelling⟩ := List.exists_cons_of_ne_nil hne
  obtain ⟨b, bs, hc⟩ := List.exists_cons_of_ne_nil (String.utf8EncodeChar_ne_nil (c := c))
  rw [hspelling] at hhead
  rw [Token.bytes, hspelling, List.flatMap_cons, hc]
  intro hb
  obtain rfl : b = ascii '#' := Option.some.inj hb
  refine hhead (congrArg some (eq_of_ascii_mem (by decide) ?_))
  rw [hc]
  exact List.mem_cons_self

/-- No line of a spelled document begins with `#`. -/
theorem Spells.startsNoLaterPiece {tokens : List Token} {bytes : Bytes} (h : Spells tokens bytes) :
    bytes.head? ≠ some (ascii '#') ∧ StartsNoLaterPiece (ascii '\n') (ascii '#') bytes := by
  induction h with
  | nil => exact ⟨nofun, .nil⟩
  | @cons spaces rest token tokens hspaces hrest ih =>
      have hhead := head?_bytes_append_ne token rest
      have hlater := ih.2.append (newline_not_mem_bytes token)
      -- The white space is put in front byte by byte. It may hold line ends, but no `#`.
      induction spaces with
      | nil => exact ⟨hhead, hlater⟩
      | cons b spaces ihspaces =>
          obtain ⟨hb, hspaces⟩ := List.forall_mem_cons.mp hspaces
          obtain ⟨hhead', hlater'⟩ := ihspaces hspaces
          refine ⟨fun hstart => ?_, hlater'.cons hhead'⟩
          obtain rfl := Option.some.inj hstart
          exact absurd hb (by decide)

end Json

/-! ## Lines without metadata -/

theorem Text.head?_ne_of_mem_linesBy {newline carriageReturn start : UInt8} {bytes line : Bytes}
    (hhead : bytes.head? ≠ some start) (hlater : StartsNoLaterPiece newline start bytes)
    (hline : line ∈ linesBy newline carriageReturn bytes) : line.head? ≠ some start := by
  have hpieces := hlater.forall_piece hhead
  unfold linesBy at hline
  rcases List.mem_append.mp hline with h | h
  · obtain ⟨piece, hpiece, rfl⟩ := List.mem_map.mp h
    have hpiece := hpieces piece ((List.dropLast_sublist _).subset hpiece)
    unfold dropReturn
    split
    · rw [List.head?_dropLast]
      split
      · exact hpiece
      · exact nofun
    · exact hpiece
  · split at h
    · cases h
    · obtain rfl := List.mem_singleton.mp h
      rw [List.getLastD_eq_getLast?]
      cases hlast : (bytes.splitOn newline).getLast? with
      | none => exact nofun
      | some last => exact hpieces last (List.mem_of_getLast? hlast)

namespace Trace

theorem Line.keyValue?_of_head?_ne {line : List Char} (h : line.head? ≠ some '#') :
    keyValue? line = none := by
  unfold keyValue?
  rw [if_neg]
  intro hmarker
  obtain ⟨rest, rfl⟩ := List.isPrefixOf_iff_prefix.mp hmarker
  exact h rfl

/-- A line that does not begin with `#` holds no metadata. -/
theorem Scan.step_entries (scan : Scan) {line : String} (h : line.toList.head? ≠ some '#') :
    (scan.step line).metadata.entries = scan.metadata.entries := by
  have hkind : ∀ key value, Line.classify line scan.block ≠ .metadata key value := by
    intro key value hclassify
    unfold Line.classify at hclassify
    dsimp only at hclassify
    rw [Line.keyValue?_of_head?_ne h] at hclassify
    split_ifs at hclassify
    cases hblock : scan.block <;> rw [hblock] at hclassify <;> cases hclassify
  exact scan.step_entries_of_ne_metadata line hkind

theorem startTime_ofLines {lines : List String}
    (h : ∀ line ∈ lines, line.toList.head? ≠ some '#') :
    (ofLines lines).metadata.startTime = .error (.missing Metadata.startKey) := by
  have hentries : ∀ scan : Scan, (lines.foldl Scan.step scan).metadata.entries =
      scan.metadata.entries := by
    induction lines with
    | nil => exact fun _ => rfl
    | cons line lines ih =>
        obtain ⟨hline, hlines⟩ := List.forall_mem_cons.mp h
        exact fun scan => (ih hlines (scan.step line)).trans (scan.step_entries hline)
  have hnone : (ofLines lines).metadata.get? Metadata.startKey = none := by
    show (lines.foldl Scan.step {}).metadata.entries[_]? = none
    rw [hentries {}]
    exact Std.TreeMap.getElem?_emptyc
  unfold Metadata.startTime Metadata.seconds Metadata.read Metadata.require
  rw [hnone]
  rfl

end Trace

/-- **A written timeline is no trace of a run.** -/
theorem Timeline.not_ofRecords_of_toJson {timeline made : Timeline} {style : Style} {trace : Trace}
    {classifier : Trace.Classifier}
    (h : Trace.ofBytes? (Bytes.ofText (timeline.toJson style)) = some trace) :
    Timeline.ofRecords trace.records trace.metadata classifier ≠ .ok made := by
  intro hmade
  obtain ⟨start, -, -, hstart, -⟩ := Timeline.ofRecords_eq_ok_iff.mp hmade
  obtain ⟨lines, hlines, rfl⟩ := Option.map_eq_some_iff.mp h
  obtain ⟨hhead, hlater⟩ := (spells_render style timeline.tokens).startsNoLaterPiece
  rw [Trace.startTime_ofLines] at hstart
  · cases hstart
  · intro line hline
    have hpiece := List.mem_map_of_mem (f := Bytes.ofText) hline
    rw [← Bytes.mapM_toText?_eq_some_iff.mp hlines] at hpiece
    have hne := Text.head?_ne_of_mem_linesBy hhead hlater hpiece
    rw [Bytes.ofText_eq_flatMap] at hne
    intro hmark
    obtain ⟨rest, hrest⟩ := List.head?_eq_some_iff.mp hmark
    rw [hrest, List.flatMap_cons] at hne
    exact hne rfl

end TraceTimeline
