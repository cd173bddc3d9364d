import TraceTimeline.Timeline.Spans
import TraceTimeline.Proofs.Trace.BaseName

/-!
# Where the events of a run stand

A timeline of `R` records and `P` ranks has `2 R + 2 P` events: two for each record, in the order of
the records, and behind them two for each rank. The main statement gives every event at its index.
-/

namespace TraceTimeline

open Time Trace

/-- When there is a timeline, and what it then consists of. -/
theorem Timeline.ofRecords_eq_ok_iff {records : List Record} {metadata : Metadata}
    {classifier : Classifier} {timeline : Timeline} :
    Timeline.ofRecords records metadata classifier = .ok timeline ↔
      ∃ start stop processes,
        metadata.startTime = .ok start ∧ metadata.endTime = .ok stop ∧ ¬ stop < start ∧
        metadata.processes = .ok processes ∧
        timeline.events = records.flatMap (Record.span ⟨start⟩ classifier) ++
          (ranksBelow processes).flatMap (applicationSpan ⟨start⟩ stop) := by
  unfold Timeline.ofRecords
  cases hstart : metadata.startTime with
  | error fault => simp [bind, Except.bind]
  | ok start =>
      cases hstop : metadata.endTime with
      | error fault => simp [bind, Except.bind]
      | ok stop =>
          by_cases hlt : stop < start
          · simp [bind, Except.bind, hlt, throw, throwThe, MonadExceptOf.throw]
          · cases hprocesses : metadata.processes with
            | error fault => simp [bind, Except.bind, hlt]
            | ok processes =>
                cases timeline
                simp [bind, Except.bind, hlt, pure, Except.pure, eq_comm]

section Pairs

variable {α : Type} (first : α → Event) (stop : α → Float)

def spansOf (xs : List α) : List Event :=
  xs.flatMap fun a => Event.span (first a) (stop a)

theorem spansOf_cons (a : α) (xs : List α) :
    spansOf first stop (a :: xs) =
      { first a with phase := .opens } ::
        { first a with phase := .closes, timestamp := stop a } :: spansOf first stop xs :=
  rfl

theorem length_spansOf (xs : List α) : (spansOf first stop xs).length = 2 * xs.length := by
  induction xs with
  | nil => rfl
  | cons a xs ih =>
      rw [spansOf_cons, List.length_cons, List.length_cons, ih, List.length_cons]
      omega

theorem spansOf_getElem?_even (xs : List α) (i : Nat) :
    (spansOf first stop xs)[2 * i]? = xs[i]?.map fun a => { first a with phase := .opens } := by
  induction xs generalizing i with
  | nil => rfl
  | cons a xs ih =>
      cases i with
      | zero => rfl
      | succ i => exact ih i

theorem spansOf_getElem?_odd (xs : List α) (i : Nat) :
    (spansOf first stop xs)[2 * i + 1]? =
      xs[i]?.map fun a => { first a with phase := .closes, timestamp := stop a } := by
  induction xs generalizing i with
  | nil => rfl
  | cons a xs ih =>
      cases i with
      | zero => rfl
      | succ i => exact ih i

end Pairs

/-! ## The events of a run -/

def recordOpening (start : Float) (record : Record) (name : String) : Event where
  name
  category := record.ioModule
  timestamp := Clock.absolute ⟨start⟩ record.start
  rank := record.rank
  track := if isCacheFile name = true then 0 else 1
  phase := .opens
  args :=
    { operation := some record.operation
      segment := some record.segment
      offset := some record.offset
      length := some record.length }

def runOpening (start : Float) (rank : UInt32) : Event where
  name := "Application"
  category := "N/A"
  timestamp := Clock.absolute ⟨start⟩ 0
  rank
  track := 0
  phase := .opens
  args := { operation := none, segment := none, offset := none, length := none }

theorem recordOpening_opens (start : Float) (record : Record) (name : String) :
    { recordOpening start record name with phase := .opens } =
      recordOpening start record name := by
  simp only [recordOpening]

theorem runOpening_opens (start : Float) (rank : UInt32) :
    { runOpening start rank with phase := .opens } = runOpening start rank := by
  simp only [runOpening]

theorem Trace.Record.span_eq (start : Float) (classifier : Classifier) (record : Record) :
    record.span ⟨start⟩ classifier =
      Event.span (recordOpening start record (baseName record.file))
        (Clock.absolute ⟨start⟩ record.stop) := by
  have htrack : (classifier.layer record.file).track =
      if isCacheFile (baseName record.file) = true then 0 else 1 := by
    rw [track_layer, isCacheFile_eq_of_isLastComponent (isLastComponent_baseName record.file)]
  rw [Record.span, htrack]
  rfl

theorem applicationSpan_eq (start stop : Float) (rank : UInt32) :
    applicationSpan ⟨start⟩ stop rank = Event.span (runOpening start rank) (Clock.micros stop) :=
  rfl

/-- The events of a run are two rows of spans. -/
theorem Timeline.events_eq_spansOf {records : List Record} {classifier : Classifier}
    {start stop : Float} {ranks : List UInt32} :
    records.flatMap (Record.span ⟨start⟩ classifier) ++
        ranks.flatMap (applicationSpan ⟨start⟩ stop) =
      spansOf (fun record => recordOpening start record (baseName record.file))
          (fun record => Clock.absolute ⟨start⟩ record.stop) records ++
        spansOf (runOpening start) (fun _ => Clock.micros stop) ranks := by
  rw [spansOf, spansOf, funext (Record.span_eq start classifier),
    funext (applicationSpan_eq start stop)]

theorem ranksBelow_getElem? {processes : UInt32} {r : Nat} (h : r < processes.toNat) :
    (ranksBelow processes)[r]? = some (UInt32.ofNat r) := by
  rw [ranksBelow, List.getElem?_map, List.getElem?_range h]
  rfl

theorem length_ranksBelow (processes : UInt32) :
    (ranksBelow processes).length = processes.toNat := by
  rw [ranksBelow, List.length_map, List.length_range]

/-- **The layout of a timeline.** With `R` records and `P` ranks there are `2 R + 2 P` events. The
events `2 i` and `2 i + 1` open and close the span of record `i`; the events `2 R + 2 r` and
`2 R + 2 r + 1` open and close the run of rank `r`. The two events of a span differ in nothing but
phase and time. -/
theorem Timeline.ofRecords_layout {records : List Record} {metadata : Metadata}
    {classifier : Classifier} {timeline : Timeline}
    (h : Timeline.ofRecords records metadata classifier = .ok timeline) :
    ∃ start stop processes,
      metadata.startTime = .ok start ∧ metadata.endTime = .ok stop ∧
      metadata.processes = .ok processes ∧
      timeline.events.length = 2 * records.length + 2 * processes.toNat ∧
      (∀ i record, records[i]? = some record →
        ∃ name, IsLastComponent record.file name ∧
          timeline.events[2 * i]? = some (recordOpening start record name) ∧
          timeline.events[2 * i + 1]? =
            some { recordOpening start record name with
              phase := .closes
              timestamp := Clock.absolute ⟨start⟩ record.stop }) ∧
      (∀ r, r < processes.toNat →
        timeline.events[2 * records.length + 2 * r]? =
            some (runOpening start (UInt32.ofNat r)) ∧
          timeline.events[2 * records.length + 2 * r + 1]? =
            some { runOpening start (UInt32.ofNat r) with
              phase := .closes
              timestamp := Clock.micros stop }) := by
  obtain ⟨start, stop, processes, hstart, hstop, -, hprocesses, hevents⟩ :=
    Timeline.ofRecords_eq_ok_iff.mp h
  rw [Timeline.events_eq_spansOf] at hevents
  refine ⟨start, stop, processes, hstart, hstop, hprocesses, ?_, ?_, ?_⟩
  · rw [hevents, List.length_append, length_spansOf, length_spansOf, length_ranksBelow]
  · intro i record hrecord
    obtain ⟨hi, -⟩ := List.getElem?_eq_some_iff.mp hrecord
    refine ⟨baseName record.file, isLastComponent_baseName record.file, ?_, ?_⟩
    · rw [hevents, List.getElem?_append_left (by rw [length_spansOf]; omega),
        spansOf_getElem?_even, hrecord, Option.map_some, recordOpening_opens]
    · rw [hevents, List.getElem?_append_left (by rw [length_spansOf]; omega),
        spansOf_getElem?_odd, hrecord, Option.map_some]
  · intro r hr
    constructor
    · rw [hevents, List.getElem?_append_right (by rw [length_spansOf]; omega), length_spansOf,
        Nat.add_sub_cancel_left, spansOf_getElem?_even, ranksBelow_getElem? hr, Option.map_some,
        runOpening_opens]
    · rw [hevents, List.getElem?_append_right (by rw [length_spansOf]; omega), length_spansOf,
        Nat.add_assoc, Nat.add_sub_cancel_left, spansOf_getElem?_odd, ranksBelow_getElem? hr,
        Option.map_some]

/-- One record of a cache file in a run of two ranks: six events, of which the last closes the run
of the second rank. -/
theorem layout_of_single_record :
    let record : Record :=
      { ioModule := "X_POSIX", file := "/nvme/a.h5-cache/mmap-0.dat", rank := 0
        operation := "write", segment := 0, offset := 0, length := 1024
        start := 0.5, stop := 0.75 }
    let metadata : Metadata :=
      ((({} : Metadata).insert "start_time" "100.0").insert "end_time" "110").insert "nprocs" "2"
    ∃ timeline, Timeline.ofRecords [record] metadata ⟨none⟩ = .ok timeline ∧
      timeline.events.length = 6 ∧
      ∃ last, timeline.events[5]? = some last ∧ last.name = "Application" ∧ last.rank = 1 := by
  intro record metadata
  have hprocesses : metadata.processes.toOption = some 2 := by decide +kernel
  have hok : (Timeline.ofRecords [record] metadata ⟨none⟩).toOption.isSome = true := by
    decide +kernel
  cases h : Timeline.ofRecords [record] metadata ⟨none⟩ with
  | error fault => rw [h] at hok; cases hok
  | ok timeline =>
      obtain ⟨start, stop, processes, -, -, hp, hlength, -, hruns⟩ :=
        Timeline.ofRecords_layout h
      obtain rfl : processes = 2 := by simpa [hp, Except.toOption] using hprocesses
      exact ⟨timeline, rfl, hlength, _, (hruns 1 (by decide)).2, rfl, rfl⟩

end TraceTimeline
