import TraceTimeline.Proofs.Number.FloatArithmetic
import TraceTimeline.Proofs.Timeline.RunReport
import TraceTimeline.Proofs.Trace.History

/-!
# Every timeline of a trace is balanced

A record is taken only if its times are finite and in order, and so are the times of the run.
Scaling to microseconds and counting from 1970 keeps the order, also where a sum is infinite or no
number at all. Main statement: a timeline that is made of a trace passes the check.
-/

namespace TraceTimeline

open Time Trace Number

/-- Times that can be those of a record: both are finite, and the second does not come before the
first. -/
structure Trace.Record.IsTimed (record : Record) : Prop where
  isFinite_start : record.start.isFinite = true
  isFinite_stop : record.stop.isFinite = true
  inOrder : ¬ record.stop < record.start

namespace Trace

theorem Record.isFinite_of_time {column : Column} {value : String} {x : Float}
    (h : time column value = .ok x) : x.isFinite = true := by
  unfold time at h
  cases hread : (Number.float? value).filter Float.isFinite with
  | none =>
      rw [hread] at h
      cases h
  | some y =>
      rw [hread] at h
      obtain rfl := Except.ok.inj h
      exact (Option.filter_eq_some_iff.mp hread).2

theorem exists_of_bind_eq_ok {ε α β : Type} {x : Except ε α} {f : α → Except ε β} {b : β}
    (h : (x >>= f) = .ok b) : ∃ a, x = .ok a ∧ f a = .ok b := by
  cases x with
  | error fault => cases h
  | ok a => exact ⟨a, rfl, h⟩

theorem Record.isTimed_of_ofLine {line file : String} {record : Record}
    (h : ofLine line file = .ok record) : record.IsTimed := by
  unfold ofLine at h
  split at h
  · obtain ⟨start, hstart, h⟩ := exists_of_bind_eq_ok h
    obtain ⟨stop, hstop, h⟩ := exists_of_bind_eq_ok h
    by_cases hlt : stop < start
    · rw [if_pos hlt] at h
      cases h
    · rw [if_neg hlt] at h
      obtain ⟨rank, -, h⟩ := exists_of_bind_eq_ok h
      obtain ⟨segment, -, h⟩ := exists_of_bind_eq_ok h
      obtain ⟨offset, -, h⟩ := exists_of_bind_eq_ok h
      obtain ⟨length, -, h⟩ := exists_of_bind_eq_ok h
      obtain rfl := Except.ok.inj h
      exact ⟨isFinite_of_time hstart, isFinite_of_time hstop, hlt⟩
  · cases h

theorem isTimed_of_mem_recordsOn {lines : List String} {record : Record}
    (h : record ∈ recordsOn lines) : record.IsTimed := by
  obtain ⟨⟨line, i⟩, -, hrecord⟩ := List.mem_filterMap.mp h
  dsimp only [record?] at hrecord
  split at hrecord
  · obtain ⟨file, -, hline⟩ := Option.bind_eq_some_iff.mp hrecord
    cases hread : Record.ofLine line file with
    | error fault =>
        rw [hread] at hline
        cases hline
    | ok read =>
        rw [hread] at hline
        obtain rfl := Option.some.inj hline
        exact Record.isTimed_of_ofLine hread
  · cases hrecord

/-- The records of a scan have times that are finite and in order. -/
theorem isTimed_of_mem_records {lines : List String} {record : Record}
    (h : record ∈ (ofLines lines).records) : record.IsTimed := by
  have hrecords : (ofLines lines).records = recordsOn lines := (recalls_foldl lines).records
  rw [hrecords] at h
  exact isTimed_of_mem_recordsOn h

/-- A time that the metadata give in seconds is finite. -/
theorem Metadata.isFinite_of_seconds {metadata : Metadata} {key : String} {x : Float}
    (h : metadata.seconds key = .ok x) : x.isFinite = true := by
  obtain ⟨value, -, hread⟩ := exists_of_bind_eq_ok h
  dsimp only at hread
  split at hread
  · rename_i y hy
    obtain rfl := Except.ok.inj hread
    exact (Option.filter_eq_some_iff.mp hy).2
  · cases hread

end Trace

/-! ## Times in microseconds -/

open Float.Model.UnpackedFloat in
theorem stands_scale :
    Stands Clock.scale.toModel.unpack .positive ((8589934592000000 : ℕ) * 2 ^ (-33 : ℤ)) :=
  have hscale : Clock.scale.toModel.unpack =
      .finite .positive 8589934592000000 (-33) (by decide) := rfl
  hscale ▸ Stands.finite .positive (by decide)
    ⟨by decide, by decide, by decide, Or.inr (by decide)⟩

namespace Time.Clock

variable {start stop : Float}

theorem not_lt_micros (hstart : start.isFinite = true) (hstop : stop.isFinite = true)
    (h : ¬ stop < start) :
    (micros start).isNaN = false ∧ (micros stop).isNaN = false ∧ ¬ micros stop < micros start :=
  not_lt_mul hstart hstop stands_scale h

theorem not_lt_absolute (clock : Clock) (hstart : start.isFinite = true)
    (hstop : stop.isFinite = true) (h : ¬ stop < start) :
    ¬ clock.absolute stop < clock.absolute start := by
  obtain ⟨hnumber, hnumber', hmicros⟩ := not_lt_micros hstart hstop h
  exact not_lt_add hnumber hnumber' hmicros

theorem not_lt_absolute_zero (hstart : start.isFinite = true) (hstop : stop.isFinite = true)
    (h : ¬ stop < start) : ¬ micros stop < absolute ⟨start⟩ 0 := by
  obtain ⟨hnumber, hnumber', hmicros⟩ := not_lt_micros hstart hstop h
  exact not_lt_zero_add rfl hnumber hnumber' hmicros

end Time.Clock

/-! ## The timeline of a trace -/

theorem not_lt_of_mem_stretchesOf {records : List Record} {start stop : Float}
    (h : ∀ record ∈ records, record.IsTimed) (hstart : start.isFinite = true)
    (hstop : stop.isFinite = true) (hle : ¬ stop < start) (ranks : List UInt32) :
    ∀ stretch ∈ stretchesOf records start stop ranks, ¬ stretch.2 < stretch.1.timestamp := by
  rw [stretchesOf, List.forall_mem_append, List.forall_mem_map, List.forall_mem_map]
  refine ⟨fun record hrecord => ?_, fun rank _ => ?_⟩
  · have htimed := h record hrecord
    exact Clock.not_lt_absolute ⟨start⟩ htimed.isFinite_start htimed.isFinite_stop htimed.inOrder
  · exact Clock.not_lt_absolute_zero hstart hstop hle

/-- **Every timeline of a trace is balanced**: where a timeline is made of the records and the
metadata of one text, no span in it ends before it begins, none is closed that is not open, and none
is left open, whatever the times come to in microseconds. The check counts a span for each record
and each rank of the run. -/
theorem Timeline.check_ofText {text : String} {classifier : Classifier} {timeline : Timeline}
    (h : Timeline.ofRecords (Trace.ofText text).records (Trace.ofText text).metadata classifier =
      .ok timeline) :
    ∃ processes, (Trace.ofText text).metadata.processes = .ok processes ∧
      timeline.check = .ok
        { events := 2 * (Trace.ofText text).records.length + 2 * processes.toNat
          spans := (Trace.ofText text).records.length + processes.toNat
          applicationSpans := processes.toNat +
            (Trace.ofText text).records.countP fun record => baseName record.file = "Application"
          ranks := (((Trace.ofText text).records.map fun record => record.rank.toNat).toFinset ∪
            Finset.range processes.toNat).card } := by
  obtain ⟨start, stop, processes, hstart, hstop, hle, hprocesses, hevents⟩ :=
    Timeline.ofRecords_eq_ok_iff.mp h
  obtain rfl : timeline =
      ⟨rowOf (stretchesOf (Trace.ofText text).records start stop (ranksBelow processes))⟩ := by
    rw [← rowOf_stretchesOf, ← hevents]
  have hordered := not_lt_of_mem_stretchesOf
    (fun record (hrecord : record ∈ (Trace.ofText text).records) => isTimed_of_mem_records hrecord)
    (Metadata.isFinite_of_seconds hstart) (Metadata.isFinite_of_seconds hstop) hle
    (ranksBelow processes)
  refine ⟨processes, hprocesses, ?_⟩
  rw [check_rowOf_of_ordered hordered, length_stretchesOf, countP_stretchesOf,
    card_ranks_stretchesOf, length_ranksBelow, Nat.mul_add]

/-- A run that begins too late to be counted in microseconds, with a record that begins as long
before it. The record begins at no number at all and ends at infinity, and the timeline is balanced.
-/
theorem check_of_overflow :
    let text :=
      "# start_time: 1e303\n# end_time: 1e303\n# nprocs: 1\n" ++
        "# DXT, file_id: 1, file_name: /a.h5\n# Module Rank\nX_POSIX 0 write 0 0 1 -1e303 0\n"
    ∃ timeline first second,
      Timeline.ofRecords (Trace.ofText text).records (Trace.ofText text).metadata ⟨none⟩ =
        .ok timeline ∧
      timeline.events[0]? = some first ∧ first.timestamp.isNaN = true ∧
      timeline.events[1]? = some second ∧ second.timestamp.isInf = true ∧
      timeline.check = .ok { events := 4, spans := 2, applicationSpans := 1, ranks := 1 } := by
  intro text
  have htimes : (Timeline.ofRecords (Trace.ofText text).records (Trace.ofText text).metadata
      ⟨none⟩).toOption.map (fun timeline =>
        (timeline.events[0]?.map (·.timestamp.isNaN),
          timeline.events[1]?.map (·.timestamp.isInf))) = some (some true, some true) := by
    decide +kernel
  have htrace : ((Trace.ofText text).records.map fun record =>
        (baseName record.file, record.rank.toNat)) = [("a.h5", 0)] ∧
      (Trace.ofText text).metadata.processes.toOption = some 1 := by
    decide +kernel
  obtain ⟨hrecords, hone⟩ := htrace
  obtain ⟨record, hrecord, hfields⟩ := List.map_eq_singleton_iff.mp hrecords
  obtain ⟨hname, hrank⟩ := Prod.mk.inj hfields
  cases h : Timeline.ofRecords (Trace.ofText text).records (Trace.ofText text).metadata ⟨none⟩ with
  | error fault =>
      rw [h] at htimes
      cases htimes
  | ok timeline =>
      rw [h] at htimes
      obtain ⟨hfirst, hsecond⟩ := Prod.mk.inj (Option.some.inj htimes)
      obtain ⟨first, hfirst, hnan⟩ := Option.map_eq_some_iff.mp hfirst
      obtain ⟨second, hsecond, hinf⟩ := Option.map_eq_some_iff.mp hsecond
      obtain ⟨processes, hprocesses, hcheck⟩ := Timeline.check_ofText h
      rw [hprocesses] at hone
      obtain rfl := Option.some.inj hone
      rw [hrecord, List.length_singleton, List.countP_singleton, List.map_singleton, hname, hrank]
        at hcheck
      exact ⟨timeline, first, second, rfl, hfirst, hnan, hsecond, hinf,
        hcheck.trans (congrArg Except.ok (by decide))⟩

end TraceTimeline
