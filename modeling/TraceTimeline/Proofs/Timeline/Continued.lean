import TraceTimeline.Proofs.Timeline.Interleaving

/-!
# Behind a balanced timeline

What the check makes of further events depends on the stack of each key alone, and behind a balanced
timeline all of these stacks are empty. So the events that follow are checked as if nothing stood in
front of them. Main statement: a balanced timeline in front of another one changes neither the fault
that is reported nor the number of spans left open; and where there is no fault, events and spans
add up.
-/

namespace TraceTimeline

namespace Balance

/-- The open spans of each key are the same. What has been counted so far may differ. -/
def SameStacks (balance other : Balance) : Prop :=
  ∀ key, balance.stack key = other.stack key

def stackFault (stack : List Float) (event : Event) : BalanceError :=
  match stack with
  | [] => .unmatchedEnd event.name event.rank event.track
  | start :: _ => .endBeforeBegin event.name event.rank start event.timestamp

variable {balance other : Balance} {event : Event}

/-- The fault of an event is told by the stack of its key. -/
theorem eq_stackFault_of_step {fault : BalanceError} (h : balance.step event = .error fault) :
    fault = stackFault (balance.stack event.key) event := by
  unfold step at h
  cases hphase : event.phase with
  | opens =>
      rw [hphase] at h
      cases h
  | closes =>
      rw [hphase] at h
      have hseen : { balance with ranks := balance.ranks.insert event.rank }.stack event.key =
          balance.stack event.key := rfl
      cases hstack : balance.stack event.key with
      | nil =>
          have hnone := (closeSpan_of_nil (hseen.trans hstack)).symm.trans h
          exact (Except.error.inj hnone).symm
      | cons start rest =>
          have hsome := (closeSpan_of_cons (hseen.trans hstack)).symm.trans h
          split at hsome
          · exact (Except.error.inj hsome).symm
          · cases hsome

namespace SameStacks

/-- **One event** has the same fault in both states, or leads to states with the same stacks. -/
theorem step (h : SameStacks balance other) (event : Event) :
    (∃ fault, balance.step event = .error fault ∧ other.step event = .error fault) ∨
      ∃ next next', balance.step event = .ok next ∧ other.step event = .ok next' ∧
        SameStacks next next' := by
  have hkey := h event.key
  rcases balance.step_cases event with ⟨next, hstep, hstack, hrest⟩ | ⟨fault, hstep, hstack⟩
  · rcases other.step_cases event with ⟨next', hstep', hstack', hrest'⟩ | ⟨fault', -, hstack'⟩
    · refine .inr ⟨next, next', hstep, hstep', fun key => ?_⟩
      by_cases heq : key = event.key
      · rw [heq]
        rw [← hkey, hstack] at hstack'
        exact Option.some.inj hstack'
      · rw [hrest key heq, hrest' key heq, h key]
    · rw [← hkey, hstack] at hstack'
      cases hstack'
  · rcases other.step_cases event with ⟨next', -, hstack', -⟩ | ⟨fault', hstep', -⟩
    · rw [← hkey, hstack] at hstack'
      cases hstack'
    · refine .inl ⟨fault, hstep, ?_⟩
      rw [hstep', eq_stackFault_of_step hstep, eq_stackFault_of_step hstep', hkey]

/-- **All events** run into the same fault from both states, or to states with the same stacks. -/
theorem foldlM (h : SameStacks balance other) (events : List Event) :
    (∃ fault, events.foldlM Balance.step balance = .error fault ∧
        events.foldlM Balance.step other = .error fault) ∨
      ∃ final final', events.foldlM Balance.step balance = .ok final ∧
        events.foldlM Balance.step other = .ok final' ∧ SameStacks final final' := by
  induction events generalizing balance other with
  | nil => exact .inr ⟨balance, other, rfl, rfl, h⟩
  | cons event events ih =>
      rw [List.foldlM_cons, List.foldlM_cons]
      rcases h.step event with ⟨fault, hstep, hstep'⟩ | ⟨next, next', hstep, hstep', hnext⟩
      · rw [hstep, hstep']
        exact .inl ⟨fault, rfl, rfl⟩
      · rw [hstep, hstep']
        exact ih hnext

end SameStacks

/-- Where no span is open, all stacks are empty, as they are at the start. -/
theorem sameStacks_start (h : balance.openSpans.isEmpty = true) : SameStacks balance {} := by
  intro key
  unfold stack
  rw [List.isEmpty_iff.mp h]

end Balance

/-! ## Balanced events in front -/

/-- A balanced timeline has no fault and leaves no span open, and what is counted is what its events
consist of. -/
theorem Timeline.exists_of_check_eq_ok {timeline : Timeline} {stats : TimelineStats}
    (h : timeline.check = .ok stats) :
    ∃ final, timeline.events.foldlM Balance.step {} = .ok final ∧
      final.openSpans.isEmpty = true ∧
      countOf .opens timeline.events = countOf .closes timeline.events ∧
      stats = statsOf timeline.events := by
  cases hrun : timeline.events.foldlM Balance.step {} with
  | error fault =>
      rw [(Timeline.check_of_fault hrun).1] at h
      cases h
  | ok final =>
      have hempty : final.openSpans.isEmpty = true := by
        unfold Timeline.check at h
        rw [hrun] at h
        by_contra hopen
        have hunclosed := (if_neg hopen).symm.trans h
        cases hunclosed
      rw [Timeline.check_of_foldlM hrun] at h
      split at h
      · rename_i hcount
        exact ⟨final, rfl, hempty, hcount, (Except.ok.inj h).symm⟩
      · cases h

theorem countOf_append (phase : Phase) (events more : List Event) :
    countOf phase (events ++ more) = countOf phase events + countOf phase more :=
  List.countP_append

/-- What events consist of, behind as many that open a span as close one. -/
theorem statsOf_append {events : List Event} (h : countOf .opens events = countOf .closes events)
    (more : List Event) :
    statsOf (events ++ more) =
      { events := (statsOf events).events + (statsOf more).events
        spans := (statsOf events).spans + (statsOf more).spans
        applicationSpans := (statsOf events).applicationSpans + (statsOf more).applicationSpans
        ranks := ((events ++ more).map Event.rank).toFinset.card } := by
  have htotal := countOf_opens_add_closes events
  have hlength : (events ++ more).length = events.length + more.length := List.length_append
  have hspans : (events ++ more).length / 2 = events.length / 2 + more.length / 2 := by omega
  have hruns : countOfRuns (events ++ more) = countOfRuns events + countOfRuns more :=
    List.countP_append
  rw [statsOf, hspans, hruns, hlength]
  rfl

def Timeline.followedBy (timeline other : Timeline) : Timeline :=
  ⟨timeline.events ++ other.events⟩

/-- **A balanced timeline in front makes no difference.** What follows it has the fault that it has
alone, the same event being reported for the same reason or as many spans being left open; and if it
has none, the events, the spans and the spans of whole runs add up, and the ranks are those that
occur in either. -/
theorem Timeline.check_followedBy {timeline other : Timeline} {stats : TimelineStats}
    (h : timeline.check = .ok stats) :
    (∀ fault, (timeline.followedBy other).check = .error fault ↔ other.check = .error fault) ∧
      ∀ more, other.check = .ok more →
        (timeline.followedBy other).check =
          .ok
            { events := stats.events + more.events
              spans := stats.spans + more.spans
              applicationSpans := stats.applicationSpans + more.applicationSpans
              ranks := ((timeline.events ++ other.events).map Event.rank).toFinset.card } := by
  obtain ⟨final, hrun, hempty, hcount, rfl⟩ := Timeline.exists_of_check_eq_ok h
  have hjoined : (timeline.followedBy other).events.foldlM Balance.step {} =
      other.events.foldlM Balance.step final := by
    show (timeline.events ++ other.events).foldlM Balance.step {} = _
    rw [List.foldlM_append, hrun]
    rfl
  -- Behind a balanced part the check has the stacks of a check that begins.
  rcases (Balance.sameStacks_start hempty).foldlM other.events with
    ⟨fault, hbehind, halone⟩ | ⟨behind, alone, hbehind, halone, -⟩
  · have hcheck := (Timeline.check_of_fault (hjoined.trans hbehind)).1
    have hcheck' := (Timeline.check_of_fault halone).1
    rw [hcheck, hcheck']
    exact ⟨fun _ => Iff.rfl, fun _ hmore => by cases hmore⟩
  · have hcheck := Timeline.check_of_foldlM (hjoined.trans hbehind)
    have hcheck' := Timeline.check_of_foldlM halone
    have hopens := countOf_append .opens timeline.events other.events
    have hcloses := countOf_append .closes timeline.events other.events
    have hevents : (timeline.followedBy other).events = timeline.events ++ other.events := rfl
    rw [hevents] at hcheck
    rw [hcheck, hcheck']
    by_cases heven : countOf .opens other.events = countOf .closes other.events
    · have hboth : countOf .opens (timeline.events ++ other.events) =
          countOf .closes (timeline.events ++ other.events) := by omega
      rw [if_pos hboth, if_pos heven]
      refine ⟨fun _ => by simp only [reduceCtorEq], fun more hmore => ?_⟩
      rw [← Except.ok.inj hmore, statsOf_append hcount]
    · have hboth : countOf .opens (timeline.events ++ other.events) ≠
          countOf .closes (timeline.events ++ other.events) := by omega
      have hleft : countOf .opens (timeline.events ++ other.events) -
            countOf .closes (timeline.events ++ other.events) =
          countOf .opens other.events - countOf .closes other.events := by omega
      rw [if_neg hboth, if_neg heven, hleft]
      exact ⟨fun _ => Iff.rfl, fun _ hmore => by cases hmore⟩

/-- Behind a closed span its key may be closed no further; and the ranks of both parts are counted
once. -/
theorem check_behind_closed_span :
    let event (name : String) (rank : UInt32) (phase : Phase) (timestamp : Float) : Event :=
      { name, category := "X_POSIX", timestamp, rank, track := 1, phase, args := {} }
    let span : Timeline := ⟨[event "b.h5" 0 .opens 1, event "b.h5" 0 .closes 2]⟩
    let closing : Timeline := ⟨[event "b.h5" 0 .closes 3]⟩
    let run : Timeline :=
      ⟨[event "Application" 0 .opens 0, event "b.h5" 1 .opens 1, event "b.h5" 1 .closes 1,
        event "Application" 0 .closes 4]⟩
    span.check = .ok { events := 2, spans := 1, applicationSpans := 0, ranks := 1 } ∧
      (span.followedBy closing).check = .error (.unmatchedEnd "b.h5" 0 1) ∧
      (span.followedBy run).check =
        .ok { events := 6, spans := 3, applicationSpans := 1, ranks := 2 } := by
  intro event span closing run
  have hspan : span.check = .ok { events := 2, spans := 1, applicationSpans := 0, ranks := 1 } :=
    eq_ok_of_toOption (by decide +kernel)
  have hclosing : closing.check = .error (.unmatchedEnd "b.h5" 0 1) := rfl
  have hrun : run.check = .ok { events := 4, spans := 2, applicationSpans := 1, ranks := 2 } :=
    eq_ok_of_toOption (by decide +kernel)
  exact ⟨hspan, ((Timeline.check_followedBy hspan).1 _).mpr hclosing,
    (Timeline.check_followedBy hspan).2 _ hrun⟩

end TraceTimeline
