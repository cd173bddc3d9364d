import TraceTimeline.Proofs.Timeline.DocumentRoundTrip
import TraceTimeline.Proofs.Timeline.Layout
import TraceTimeline.Timeline.Balance
import TraceTimeline.Trace.Scan

/-!
# When a written timeline is found balanced

The timeline of a run is a row of spans, and so is what is read back of it. The check of a row of
spans looks at one span at a time. So whether a written timeline can be read and passes the check
depends on the two times of each span alone: both have to be read back, and the second must not come
before the first. Main statement: exactly then the document is good. Times that are read from a
trace are finite, but their microseconds need not be, and then the document is not.
-/

namespace TraceTimeline

open Json Time Trace

namespace Balance

/-- The event that closes the latest open span. -/
theorem closeSpan_latest {balance : Balance} {event : Event} {start : Float}
    {rest : List (SpanKey × Float)} (h : balance.openSpans = (event.key, start) :: rest) :
    balance.closeSpan event =
      if event.timestamp < start then
        .error (.endBeforeBegin event.name event.rank start event.timestamp)
      else
        .ok { balance with
          openSpans := rest
          spans := balance.spans + 1
          applicationSpans :=
            balance.applicationSpans + if event.name = applicationName then 1 else 0 } := by
  have hlookup : List.lookup event.key ((event.key, start) :: rest) = some start :=
    List.lookup_cons_self
  have herase : List.eraseP (·.1 == event.key) ((event.key, start) :: rest) = rest :=
    List.eraseP_cons_of_pos (beq_self_eq_true event.key)
  unfold closeSpan
  rw [h, hlookup, herase]
  rfl

/-- A span leaves the spans open that were open before it. -/
theorem foldlM_span (balance : Balance) (first : Event) (stop : Float) :
    (Event.span first stop).foldlM Balance.step balance =
      if stop < first.timestamp then
        .error (.endBeforeBegin first.name first.rank first.timestamp stop)
      else
        .ok
          { openSpans := balance.openSpans
            spans := balance.spans + 1
            applicationSpans :=
              balance.applicationSpans + if first.name = applicationName then 1 else 0
            ranks := (balance.ranks.insert first.rank).insert first.rank } := by
  show (closeSpan
    { balance with
      openSpans := (first.key, first.timestamp) :: balance.openSpans
      ranks := (balance.ranks.insert first.rank).insert first.rank }
    { first with phase := .closes, timestamp := stop } >>= pure) = _
  rw [bind_pure]
  exact closeSpan_latest rfl

end Balance

/-- A span by its first event and the time at which it ends. -/
abbrev Stretch := Event × Float

def rowOf (stretches : List Stretch) : List Event :=
  spansOf Prod.fst Prod.snd stretches

theorem rowOf_cons (stretch : Stretch) (stretches : List Stretch) :
    rowOf (stretch :: stretches) = Event.span stretch.1 stretch.2 ++ rowOf stretches :=
  rfl

theorem foldlM_rowOf (stretches : List Stretch) (balance : Balance) :
    ((∃ after, (rowOf stretches).foldlM Balance.step balance = .ok after) ↔
      ∀ stretch ∈ stretches, ¬ stretch.2 < stretch.1.timestamp) ∧
    ∀ after, (rowOf stretches).foldlM Balance.step balance = .ok after →
      after.openSpans = balance.openSpans := by
  -- A span closes the event it has just opened, whatever lies open below, so the open events of the
  -- start are those of the end.
  induction stretches generalizing balance with
  | nil =>
      refine ⟨⟨fun _ _ h => absurd h List.not_mem_nil, fun _ => ⟨balance, rfl⟩⟩, ?_⟩
      rintro after ⟨⟩
      rfl
  | cons stretch stretches ih =>
      rw [rowOf_cons, List.foldlM_append, Balance.foldlM_span, List.forall_mem_cons]
      by_cases hlt : stretch.2 < stretch.1.timestamp
      · rw [if_pos hlt]
        refine ⟨⟨?_, fun h => absurd hlt h.1⟩, ?_⟩
        · rintro ⟨after, ⟨⟩⟩
        · rintro after ⟨⟩
      · rw [if_neg hlt]
        obtain ⟨hok, hopen⟩ := ih
          { openSpans := balance.openSpans
            spans := balance.spans + 1
            applicationSpans :=
              balance.applicationSpans + if stretch.1.name = applicationName then 1 else 0
            ranks := (balance.ranks.insert stretch.1.rank).insert stretch.1.rank }
        exact ⟨hok.trans ⟨fun h => ⟨hlt, h⟩, fun h => h.2⟩, hopen⟩

/-- **A row of spans passes the check** exactly if no span ends before it begins. -/
theorem check_rowOf_iff (stretches : List Stretch) :
    (∃ stats, Timeline.check ⟨rowOf stretches⟩ = .ok stats) ↔
      ∀ stretch ∈ stretches, ¬ stretch.2 < stretch.1.timestamp := by
  obtain ⟨hok, hopen⟩ := foldlM_rowOf stretches {}
  rw [← hok]
  unfold Timeline.check
  constructor
  · rintro ⟨stats, h⟩
    cases hfold : (rowOf stretches).foldlM Balance.step {} with
    | error fault =>
        simp only [hfold] at h
        cases h
    | ok after => exact ⟨after, rfl⟩
  · rintro ⟨after, hafter⟩
    have hnone : after.openSpans.isEmpty = true := by rw [hopen after hafter]; rfl
    simp only [hafter]
    show ∃ stats, (if after.openSpans.isEmpty = true then _ else _ : Except BalanceError _) = _
    rw [if_pos hnone]
    exact ⟨_, rfl⟩

/-! ## Reading a row of spans -/

def Stretch.reread (stretch : Stretch) : Except Fault Stretch := do
  let x ← Json.reread stretch.1.timestamp
  let y ← Json.reread stretch.2
  return ({ stretch.1 with timestamp := x }, y)

theorem mapM_reread_span (stretch : Stretch) :
    (Event.span stretch.1 stretch.2).mapM Event.reread =
      stretch.reread.map fun stretch => Event.span stretch.1 stretch.2 := by
  simp only [Event.span, List.mapM_cons, List.mapM_nil, Event.reread, Stretch.reread]
  cases Json.reread stretch.1.timestamp with
  | error fault => rfl
  | ok x => cases Json.reread stretch.2 <;> rfl

/-- What is read back of a row of spans is a row of spans. -/
theorem mapM_reread_rowOf (stretches : List Stretch) :
    (rowOf stretches).mapM Event.reread = (stretches.mapM Stretch.reread).map rowOf := by
  induction stretches with
  | nil => rfl
  | cons stretch stretches ih =>
      rw [rowOf_cons, List.mapM_append, ih, mapM_reread_span, List.mapM_cons]
      cases stretch.reread with
      | error fault => rfl
      | ok next => cases stretches.mapM Stretch.reread <;> rfl

/-! ## The document of a run -/

/-- What is written for the timeline is read back and found balanced. -/
def Timeline.IsReadable (timeline : Timeline) (style : Style) : Prop :=
  ∃ back stats, Timeline.ofJson (Bytes.ofText (timeline.toJson style)) = .ok back ∧
    back.check = .ok stats

structure TimesSurvive (start stop : Float) : Prop where
  isFinite_start : start.isFinite = true
  isFinite_stop : stop.isFinite = true
  inOrder : ∃ x y, Json.reread start = .ok x ∧ Json.reread stop = .ok y ∧ ¬ y < x

theorem timesSurvive_of_reread {start stop x y : Float} (hx : Json.reread start = .ok x)
    (hy : Json.reread stop = .ok y) (h : ¬ y < x) : TimesSurvive start stop :=
  ⟨isFinite_of_reread_eq_ok hx, isFinite_of_reread_eq_ok hy, x, y, hx, hy, h⟩

theorem exists_reread_iff (stretch : Stretch) :
    (∃ next, stretch.reread = .ok next ∧ ¬ next.2 < next.1.timestamp) ↔
      TimesSurvive stretch.1.timestamp stretch.2 := by
  constructor
  · rintro ⟨next, hnext, h⟩
    unfold Stretch.reread at hnext
    cases hx : Json.reread stretch.1.timestamp with
    | error fault =>
        rw [hx] at hnext
        cases hnext
    | ok x =>
        cases hy : Json.reread stretch.2 with
        | error fault =>
            rw [hx, hy] at hnext
            cases hnext
        | ok y =>
            rw [hx, hy] at hnext
            cases hnext
            exact timesSurvive_of_reread hx hy h
  · rintro ⟨-, -, x, y, hx, hy, h⟩
    refine ⟨({ stretch.1 with timestamp := x }, y), ?_, h⟩
    unfold Stretch.reread
    rw [hx, hy]
    rfl

theorem isReadable_rowOf_iff (stretches : List Stretch) (style : Style) :
    Timeline.IsReadable ⟨rowOf stretches⟩ style ↔
      ∀ stretch ∈ stretches, TimesSurvive stretch.1.timestamp stretch.2 := by
  rw [Timeline.IsReadable, Timeline.ofJson_toJson_eq_mapM, mapM_reread_rowOf]
  have hgood := exists_mapM_iff Stretch.reread (fun next => ¬ next.2 < next.1.timestamp) stretches
  simp only [exists_reread_iff] at hgood
  rw [← hgood]
  constructor
  · rintro ⟨back, stats, hback, hcheck⟩
    cases hread : stretches.mapM Stretch.reread with
    | error fault =>
        rw [hread] at hback
        cases hback
    | ok nexts =>
        rw [hread] at hback
        obtain rfl : ⟨rowOf nexts⟩ = back := Except.ok.inj hback
        exact ⟨nexts, rfl, (check_rowOf_iff nexts).mp ⟨stats, hcheck⟩⟩
  · rintro ⟨nexts, hread, hnexts⟩
    obtain ⟨stats, hcheck⟩ := (check_rowOf_iff nexts).mpr hnexts
    exact ⟨⟨rowOf nexts⟩, stats, by rw [hread]; rfl, hcheck⟩

def stretchesOf (records : List Record) (start stop : Float) (ranks : List UInt32) : List Stretch :=
  (records.map fun record =>
      (recordOpening start record (baseName record.file), Clock.absolute ⟨start⟩ record.stop)) ++
    ranks.map fun rank => (runOpening start rank, Clock.micros stop)

theorem rowOf_stretchesOf {records : List Record} {classifier : Classifier} {start stop : Float}
    {ranks : List UInt32} :
    records.flatMap (Record.span ⟨start⟩ classifier) ++
        ranks.flatMap (applicationSpan ⟨start⟩ stop) =
      rowOf (stretchesOf records start stop ranks) := by
  rw [Timeline.events_eq_spansOf]
  simp only [rowOf, stretchesOf, spansOf, List.flatMap_append, List.flatMap_map]

/-- **When a run can be read back.** What is written for a run is read and found balanced exactly if
the two times of every span survive being written and read: those of each record, and those of the
whole run if it has any ranks. -/
theorem Timeline.readable_iff {records : List Record} {metadata : Metadata}
    {classifier : Classifier} {timeline : Timeline}
    (h : Timeline.ofRecords records metadata classifier = .ok timeline) (style : Style) :
    ∃ start stop processes,
      metadata.startTime = .ok start ∧ metadata.endTime = .ok stop ∧
      metadata.processes = .ok processes ∧
      (timeline.IsReadable style ↔
        (∀ record ∈ records, TimesSurvive (Clock.absolute ⟨start⟩ record.start)
            (Clock.absolute ⟨start⟩ record.stop)) ∧
          (0 < processes.toNat → TimesSurvive (Clock.absolute ⟨start⟩ 0) (Clock.micros stop))) := by
  obtain ⟨start, stop, processes, hstart, hstop, -, hprocesses, hevents⟩ :=
    Timeline.ofRecords_eq_ok_iff.mp h
  refine ⟨start, stop, processes, hstart, hstop, hprocesses, ?_⟩
  obtain rfl : timeline = ⟨rowOf (stretchesOf records start stop (ranksBelow processes))⟩ := by
    rw [← rowOf_stretchesOf, ← hevents]
  rw [isReadable_rowOf_iff, stretchesOf, List.forall_mem_append, List.forall_mem_map,
    List.forall_mem_map]
  refine and_congr_right fun _ => ⟨fun hranks hpos => ?_, fun hrun rank hrank => hrun ?_⟩
  · refine hranks (UInt32.ofNat 0) ?_
    exact List.mem_of_getElem? (ranksBelow_getElem? hpos)
  · rw [← length_ranksBelow]
    exact List.length_pos_of_mem hrank

def Trace.IsUnreadable (text : String) : Prop :=
  ∃ timeline,
    Timeline.ofRecords (Trace.ofText text).records (Trace.ofText text).metadata ⟨none⟩ =
      .ok timeline ∧
    ∀ style, ¬ timeline.IsReadable style

/-- There are such runs. The times of the first are too large to be counted in microseconds; the
times of the second are read in reversed order. -/
theorem unreadable_runs :
    Trace.IsUnreadable "# start_time: 1e303\n# end_time: 1e303\n# nprocs: 1\n" ∧
      Trace.IsUnreadable
        "# start_time: 1.0420705974e27\n# end_time: 1.0420705974000001e27\n# nprocs: 1\n" := by
  have hrun : ∀ (text : String) (start stop : Float),
      (fun metadata : Metadata =>
        (metadata.startTime.toOption, metadata.endTime.toOption, metadata.processes.toOption))
          (Trace.ofText text).metadata = (some start, some stop, some 1) →
      ¬ stop < start → ¬ TimesSurvive (Clock.absolute ⟨start⟩ 0) (Clock.micros stop) →
      Trace.IsUnreadable text := by
    intro text start stop hmetadata hle htimes
    obtain ⟨hstart, hrest⟩ := Prod.mk.inj hmetadata
    obtain ⟨hstop, hprocesses⟩ := Prod.mk.inj hrest
    obtain ⟨timeline, h⟩ : ∃ timeline,
        Timeline.ofRecords (Trace.ofText text).records (Trace.ofText text).metadata ⟨none⟩ =
          .ok timeline :=
      ⟨⟨_⟩, Timeline.ofRecords_eq_ok_iff.mpr ⟨start, stop, 1, eq_ok_of_toOption hstart,
        eq_ok_of_toOption hstop, hle, eq_ok_of_toOption hprocesses, rfl⟩⟩
    refine ⟨timeline, h, fun style hgood => ?_⟩
    obtain ⟨start', stop', processes, hstart', hstop', hprocesses', hiff⟩ :=
      Timeline.readable_iff h style
    rw [hstart'] at hstart
    rw [hstop'] at hstop
    rw [hprocesses'] at hprocesses
    obtain rfl := Option.some.inj hstart
    obtain rfl := Option.some.inj hstop
    obtain rfl := Option.some.inj hprocesses
    exact htimes ((hiff.mp hgood).2 (by decide))
  constructor
  · refine hrun _ 1e303 1e303 (by decide +kernel) (by decide +kernel) fun h => ?_
    have hfinite : (Clock.micros 1e303).isFinite = false := by decide +kernel
    rw [h.isFinite_stop] at hfinite
    cases hfinite
  · refine hrun _ 1.0420705974e27 1.0420705974000001e27 (by decide +kernel) (by decide +kernel) ?_
    rintro ⟨-, -, x, y, hx, hy, hle⟩
    have hx' : Json.reread (Clock.absolute ⟨1.0420705974e27⟩ 0) = .ok 1.0420705974e33 :=
      eq_ok_of_toOption (by decide +kernel)
    have hy' : Json.reread (Clock.micros 1.0420705974000001e27) = .ok 1.0420705973999999e33 :=
      eq_ok_of_toOption (by decide +kernel)
    obtain rfl := Except.ok.inj (hx.symm.trans hx')
    obtain rfl := Except.ok.inj (hy.symm.trans hy')
    exact hle (by decide +kernel)

end TraceTimeline
