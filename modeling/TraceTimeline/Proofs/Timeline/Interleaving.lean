import TraceTimeline.Proofs.Timeline.Matching
import TraceTimeline.Proofs.Trace.FirstFault
import Mathlib.Data.List.Perm.Basic

/-!
# Events of different keys in any order

The check keeps one stack of open spans, but looks for a key in it: so the spans of each key live on
a stack of their own, which the events of other keys neither read nor change. Main statement: two
timelines with the same events of each key, in the same order for each key, are both accepted with
the same counts, or both have the same number of spans left open, or both have a closing event with a
fault, which need not be the same one.
-/

namespace TraceTimeline

/-- The times at which the open spans of a key begin, the latest first. -/
def stackOf (key : SpanKey) (spans : List (SpanKey × Float)) : List Float :=
  (spans.filter fun span => span.1 = key).map Prod.snd

/-- What an event of a key does to the stack of that key, if it has no fault. -/
def stackStep (stack : List Float) (event : Event) : Option (List Float) :=
  match event.phase with
  | .opens => some (event.timestamp :: stack)
  | .closes =>
    match stack with
    | [] => none
    | start :: rest => if event.timestamp < start then none else some rest

theorem lookup_eq_head?_stackOf (key : SpanKey) (spans : List (SpanKey × Float)) :
    spans.lookup key = (stackOf key spans).head? := by
  induction spans with
  | nil => rfl
  | cons span spans ih =>
      obtain ⟨other, start⟩ := span
      by_cases hkey : other = key
      · simp [stackOf, hkey]
      · have hne : (key == other) = false := beq_eq_false_iff_ne.mpr (Ne.symm hkey)
        simp [stackOf, List.lookup_cons, hne, hkey, ih]

/-- Taking the latest span of a key off the common stack takes it off the stack of the key. -/
theorem stackOf_eraseP (key : SpanKey) (spans : List (SpanKey × Float)) :
    stackOf key (spans.eraseP (·.1 == key)) = (stackOf key spans).tail := by
  induction spans with
  | nil => rfl
  | cons span spans ih =>
      by_cases hkey : span.1 = key
      · simp [stackOf, hkey]
      · simpa [stackOf, hkey] using ih

theorem stackOf_eraseP_of_ne {key other : SpanKey} (h : other ≠ key)
    (spans : List (SpanKey × Float)) :
    stackOf other (spans.eraseP (·.1 == key)) = stackOf other spans := by
  induction spans with
  | nil => rfl
  | cons span spans ih =>
      by_cases hkey : span.1 = key
      · simp [stackOf, hkey, h.symm]
      · by_cases hother : span.1 = other
        · simpa [stackOf, hkey, hother, h] using ih
        · simpa [stackOf, hkey, hother] using ih

namespace Balance

def stack (balance : Balance) (key : SpanKey) : List Float :=
  stackOf key balance.openSpans

variable {balance : Balance} {event : Event}

theorem closeSpan_of_nil (h : balance.stack event.key = []) :
    balance.closeSpan event = .error (.unmatchedEnd event.name event.rank event.track) := by
  have hlookup : balance.openSpans.lookup event.key = none := by
    rw [lookup_eq_head?_stackOf]
    exact congrArg List.head? h
  rw [closeSpan, hlookup]
  rfl

theorem closeSpan_of_cons {start : Float} {rest : List Float}
    (h : balance.stack event.key = start :: rest) :
    balance.closeSpan event =
      if event.timestamp < start then
        .error (.endBeforeBegin event.name event.rank start event.timestamp)
      else .ok
        { balance with
          openSpans := balance.openSpans.eraseP (·.1 == event.key)
          spans := balance.spans + 1
          applicationSpans :=
            balance.applicationSpans + if event.name = applicationName then 1 else 0 } := by
  have hlookup : balance.openSpans.lookup event.key = some start := by
    rw [lookup_eq_head?_stackOf]
    exact congrArg List.head? h
  rw [closeSpan, hlookup]
  rfl

/-- **An event is a matter of the stack of its key.** It has a fault on the common stack exactly if
it has one on that of its key, and it leaves the stacks of other keys as they are. -/
theorem step_cases (balance : Balance) (event : Event) :
    (∃ next, balance.step event = .ok next ∧
      stackStep (balance.stack event.key) event = some (next.stack event.key) ∧
      ∀ key, key ≠ event.key → next.stack key = balance.stack key) ∨
    ∃ fault, balance.step event = .error fault ∧
      stackStep (balance.stack event.key) event = none := by
  unfold step stackStep
  cases hphase : event.phase with
  | opens =>
      refine .inl ⟨_, rfl, ?_, fun key hkey => ?_⟩
      · simp [stack, stackOf, openSpan]
      · simp [stack, stackOf, openSpan, hkey.symm]
  | closes =>
      -- The rank of the event is noted first, which leaves all stacks as they are.
      have hseen : { balance with ranks := balance.ranks.insert event.rank }.stack event.key =
          balance.stack event.key := rfl
      cases hstack : balance.stack event.key with
      | nil => exact .inr ⟨_, closeSpan_of_nil (hseen.trans hstack), rfl⟩
      | cons start rest =>
          by_cases hlt : event.timestamp < start
          · exact .inr ⟨_, (closeSpan_of_cons (hseen.trans hstack)).trans (if_pos hlt), if_pos hlt⟩
          · refine .inl ⟨_, (closeSpan_of_cons (hseen.trans hstack)).trans (if_neg hlt), ?_,
              fun key hkey => stackOf_eraseP_of_ne hkey _⟩
            have hrest : stackOf event.key (balance.openSpans.eraseP (·.1 == event.key)) = rest :=
              (stackOf_eraseP _ _).trans (congrArg List.tail hstack)
            exact (if_neg hlt).trans (congrArg some hrest.symm)

/-! ## All events -/

/-- **The check gets through all events exactly if it gets through those of each key.** -/
theorem foldlM_step_iff (events : List Event) (balance : Balance) :
    (∃ final, events.foldlM step balance = .ok final) ↔
      ∀ key, ∃ stack,
        (events.filter (·.key = key)).foldlM stackStep (balance.stack key) = some stack := by
  induction events generalizing balance with
  | nil => exact ⟨fun _ key => ⟨_, rfl⟩, fun _ => ⟨_, rfl⟩⟩
  | cons event events ih =>
      have hfilter : (event :: events).filter (·.key = event.key) =
          event :: events.filter (·.key = event.key) := List.filter_cons_of_pos (by simp)
      rw [List.foldlM_cons]
      rcases balance.step_cases event with ⟨next, hstep, hstack, hother⟩ | ⟨fault, hstep, hstack⟩
      · rw [hstep]
        refine (ih next).trans (forall_congr' fun key => ?_)
        by_cases hkey : key = event.key
        · subst hkey
          rw [hfilter, List.foldlM_cons, hstack]
          rfl
        · rw [List.filter_cons_of_neg (by simpa using Ne.symm hkey), hother key hkey]
      · rw [hstep]
        refine iff_of_false (fun ⟨_, h⟩ => nomatch h) fun h => ?_
        obtain ⟨stack, hrun⟩ := h event.key
        rw [hfilter, List.foldlM_cons, hstack] at hrun
        cases hrun

end Balance

/-! ## What the check counts -/

/-- Behind events without a fault the check only compares how many spans open and close. -/
theorem Timeline.check_of_foldlM {timeline : Timeline} {final : Balance}
    (h : timeline.events.foldlM Balance.step {} = .ok final) :
    timeline.check =
      if countOf .opens timeline.events = countOf .closes timeline.events then
        .ok (statsOf timeline.events)
      else .error
        (.unclosed (countOf .opens timeline.events - countOf .closes timeline.events)) := by
  have htells := Balance.tells_take timeline.events le_rfl
  rw [List.take_length, h] at htells
  have hrecalls := htells.1
  have hopens := hrecalls.opens
  have hspans := hrecalls.spans
  rw [List.take_length] at hopens hspans
  unfold Timeline.check
  rw [h]
  show (if final.openSpans.isEmpty = true then _ else _) = _
  by_cases hempty : final.openSpans.isEmpty = true
  · have hbalanced : countOf .opens timeline.events = countOf .closes timeline.events := by
      rw [← hopens, ← hspans, List.isEmpty_iff.mp hempty, List.length_nil, Nat.zero_add]
    rw [if_pos hempty, if_pos hbalanced]
    exact congrArg Except.ok (hrecalls.stats_eq hempty)
  · have hlength : final.openSpans.length =
        countOf .opens timeline.events - countOf .closes timeline.events := by omega
    have hmore : countOf .opens timeline.events ≠ countOf .closes timeline.events := by
      rw [List.isEmpty_iff, ← List.length_eq_zero_iff] at hempty
      omega
    rw [if_neg hempty, if_neg hmore, hlength]
    rfl

/-- An event with a fault is reported for what it is, and not as a span left open. -/
theorem Timeline.check_of_fault {timeline : Timeline} {fault : BalanceError}
    (h : timeline.events.foldlM Balance.step {} = .error fault) :
    timeline.check = .error fault ∧ ∀ count, fault ≠ .unclosed count := by
  have htells := Balance.tells_take timeline.events le_rfl
  rw [List.take_length, h] at htells
  obtain ⟨j, -, hfault, -⟩ := htells
  refine ⟨?_, fun count heq => ?_⟩
  · unfold Timeline.check
    rw [h]
    rfl
  · rw [heq] at hfault
    cases hfault

/-- Lists with the same items of each key are made of the same items. -/
theorem perm_of_filter_eq {α κ : Type} [DecidableEq κ] {key : α → κ} {items others : List α}
    (h : ∀ k, items.filter (key · = k) = others.filter (key · = k)) : items.Perm others := by
  classical
  rw [List.perm_iff_count]
  intro item
  have hcount := congrArg (List.count item) (h (key item))
  rwa [List.count_filter (by simp), List.count_filter (by simp)] at hcount

theorem statsOf_eq_of_perm {events others : List Event} (h : events.Perm others) :
    statsOf events = statsOf others := by
  rw [statsOf, statsOf, h.length_eq, countOfRuns, countOfRuns, h.countP_eq,
    List.toFinset_eq_of_perm _ _ (h.map Event.rank)]

/-- **Events of different keys may come in any order.** If two timelines have the same events of each
key, in the same order, then one is balanced exactly if the other is, and the check counts the same in
both; and one is left with so many open spans exactly if the other is. -/
theorem Timeline.check_of_same_tracks {timeline other : Timeline}
    (h : ∀ key, timeline.events.filter (·.key = key) = other.events.filter (·.key = key)) :
    (∀ stats, timeline.check = .ok stats ↔ other.check = .ok stats) ∧
      ∀ count, timeline.check = .error (.unclosed count) ↔
        other.check = .error (.unclosed count) := by
  have hruns : (∃ final, timeline.events.foldlM Balance.step {} = .ok final) ↔
      ∃ final, other.events.foldlM Balance.step {} = .ok final := by
    rw [Balance.foldlM_step_iff, Balance.foldlM_step_iff]
    simp only [h]
  -- Which fault comes first may differ between the two, but not whether there is one.
  cases hrun : timeline.events.foldlM Balance.step {} with
  | ok final =>
      obtain ⟨final', hrun'⟩ := hruns.mp ⟨final, hrun⟩
      have hperm := perm_of_filter_eq h
      have hsame : timeline.check = other.check := by
        rw [Timeline.check_of_foldlM hrun, Timeline.check_of_foldlM hrun', statsOf_eq_of_perm hperm,
          countOf, countOf, countOf, countOf, hperm.countP_eq, hperm.countP_eq]
      rw [hsame]
      exact ⟨fun _ => Iff.rfl, fun _ => Iff.rfl⟩
  | error fault =>
      cases hrun' : other.events.foldlM Balance.step {} with
      | ok final =>
          obtain ⟨final', hfinal⟩ := hruns.mpr ⟨final, hrun'⟩
          cases hrun.symm.trans hfinal
      | error fault' =>
          obtain ⟨hcheck, hfault⟩ := Timeline.check_of_fault hrun
          obtain ⟨hcheck', hfault'⟩ := Timeline.check_of_fault hrun'
          rw [hcheck, hcheck']
          refine ⟨fun stats => by simp only [reduceCtorEq], fun count => iff_of_false ?_ ?_⟩
          · exact fun heq => hfault count (Except.error.inj heq)
          · exact fun heq => hfault' count (Except.error.inj heq)

/-- Two spans of different ranks that overlap in the list, and the same two one after the other. -/
theorem check_of_spans_pulled_apart :
    let event (rank : UInt32) (phase : Phase) (timestamp : Float) : Event :=
      { name := "b.h5", category := "X_POSIX", timestamp, rank, track := 1, phase, args := {} }
    let overlapping : Timeline :=
      ⟨[event 0 .opens 1, event 1 .opens 2, event 0 .closes 3, event 1 .closes 4]⟩
    let apart : Timeline :=
      ⟨[event 1 .opens 2, event 1 .closes 4, event 0 .opens 1, event 0 .closes 3]⟩
    (∀ key, overlapping.events.filter (·.key = key) = apart.events.filter (·.key = key)) ∧
      apart.check = .ok { events := 4, spans := 2, applicationSpans := 0, ranks := 2 } := by
  intro event overlapping apart
  have hkey : ∀ rank phase timestamp,
      (event rank phase timestamp).key = ⟨rank, 1, "b.h5", "X_POSIX"⟩ := fun _ _ _ => rfl
  have hsame : ∀ key,
      overlapping.events.filter (·.key = key) = apart.events.filter (·.key = key) := by
    intro key
    simp only [overlapping, apart, List.filter_cons, List.filter_nil, hkey, decide_eq_true_eq]
    by_cases hfirst : (⟨0, 1, "b.h5", "X_POSIX"⟩ : SpanKey) = key
    · have hsecond : (⟨1, 1, "b.h5", "X_POSIX"⟩ : SpanKey) ≠ key := fun h =>
        absurd (congrArg SpanKey.rank (hfirst.trans h.symm)) (by decide)
      simp only [if_pos hfirst, if_neg hsecond]
    · simp only [if_neg hfirst]
  have hcheck : overlapping.check =
      .ok { events := 4, spans := 2, applicationSpans := 0, ranks := 2 } :=
    eq_ok_of_toOption (by decide +kernel)
  exact ⟨hsame, ((Timeline.check_of_same_tracks hsame).1 _).mp hcheck⟩

end TraceTimeline
