import TraceTimeline.Timeline.Balance
import Mathlib.Data.Finset.Card
import Mathlib.Data.List.Basic

/-!
# What the check of a timeline decides

Which event closes which span is a matter of the events alone: a closing event belongs to the latest
event before it that opens a span with the same key and is not closed yet. The check keeps a stack of
open spans instead. Main statement: it accepts a timeline exactly if every event has its partner and
no span ends before it begins; and of the faults of a timeline it reports the first closing event
that has one, or else how many spans are left open. The invariant `Balance.Recalls` ties the stack to
the places of the open events.
-/

namespace TraceTimeline

def StandsAt (events : List Event) (phase : Phase) (key : SpanKey) (i : Nat) : Prop :=
  ∃ event, events[i]? = some event ∧ event.phase = phase ∧ event.key = key

/-- The events at the places `i` and `j` are the two events of a span. The one at `j` closes, and
the one at `i` is the latest before it that opens a span with the same key and that no event before
`j` closes. -/
def IsPair (events : List Event) (i j : Nat) : Prop :=
  ∃ key, StandsAt events .closes key j ∧
    let IsCandidate (k : Nat) : Prop :=
      k < j ∧ StandsAt events .opens key k ∧ ∀ l, (_ : l < j) → ¬ IsPair events k l
    IsCandidate i ∧ ∀ k, IsCandidate k → k ≤ i
termination_by j

/-- The event at place `i` opens a span with this key, which none of the first `n` events closes. -/
def IsOpen (events : List Event) (n : Nat) (key : SpanKey) (i : Nat) : Prop :=
  i < n ∧ StandsAt events .opens key i ∧ ∀ l, l < n → ¬ IsPair events i l

variable {events : List Event} {i j k n : Nat}

theorem isPair_iff :
    IsPair events i j ↔ ∃ key, StandsAt events .closes key j ∧ IsOpen events j key i ∧
      ∀ k, IsOpen events j key k → k ≤ i := by
  rw [IsPair]
  rfl

theorem standsAt_iff {event : Event} (h : events[i]? = some event) {phase : Phase}
    {key : SpanKey} : StandsAt events phase key i ↔ event.phase = phase ∧ event.key = key := by
  constructor
  · rintro ⟨event', h', hphase⟩
    obtain rfl := Option.some.inj (h.symm.trans h')
    exact hphase
  · exact fun hphase => ⟨event, h, hphase⟩

theorem IsPair.lt (h : IsPair events i j) : i < j := by
  obtain ⟨key, -, hopen, -⟩ := isPair_iff.mp h
  exact hopen.1

/-- The partner of an event that closes. -/
theorem isPair_iff_of_closes {event : Event} (hj : events[j]? = some event)
    (hphase : event.phase = .closes) :
    IsPair events i j ↔ IsOpen events j event.key i ∧
      ∀ k, IsOpen events j event.key k → k ≤ i := by
  rw [isPair_iff]
  constructor
  · rintro ⟨key, hcloses, hopen⟩
    obtain ⟨-, rfl⟩ := (standsAt_iff hj).mp hcloses
    exact hopen
  · exact fun hopen => ⟨event.key, (standsAt_iff hj).mpr ⟨hphase, rfl⟩, hopen⟩

theorem not_isPair_of_opens {event : Event} (hj : events[j]? = some event)
    (hphase : event.phase = .opens) : ¬ IsPair events i j := by
  intro h
  obtain ⟨key, hcloses, -⟩ := isPair_iff.mp h
  obtain ⟨hcloses, -⟩ := (standsAt_iff hj).mp hcloses
  rw [hphase] at hcloses
  cases hcloses

theorem IsPair.exists_closes (h : IsPair events i j) :
    ∃ event, events[j]? = some event ∧ event.phase = .closes := by
  obtain ⟨key, ⟨event, hj, hphase, -⟩, -⟩ := isPair_iff.mp h
  exact ⟨event, hj, hphase⟩

theorem IsPair.unique (h : IsPair events i j) (h' : IsPair events k j) : i = k := by
  obtain ⟨event, hj, hphase⟩ := h.exists_closes
  rw [isPair_iff_of_closes hj hphase] at h h'
  exact Nat.le_antisymm (h'.2 i h.1) (h.2 k h'.1)

/-- Of the spans that are open, the next event closes at most its partner. -/
theorem isOpen_succ {key : SpanKey} (hi : i < n) :
    IsOpen events (n + 1) key i ↔ IsOpen events n key i ∧ ¬ IsPair events i n := by
  constructor
  · rintro ⟨-, hopens, hfree⟩
    exact ⟨⟨hi, hopens, fun l hl => hfree l (Nat.lt_succ_of_lt hl)⟩, hfree n n.lt_succ_self⟩
  · rintro ⟨⟨-, hopens, hfree⟩, hn⟩
    refine ⟨Nat.lt_succ_of_lt hi, hopens, fun l hl => ?_⟩
    rcases Nat.lt_succ_iff_lt_or_eq.mp hl with hl | rfl
    · exact hfree l hl
    · exact hn

inductive FaultAt (events : List Event) (j : Nat) : BalanceError → Prop
  | unmatched {event : Event} (hj : events[j]? = some event) (hphase : event.phase = .closes)
      (hfree : ∀ i, ¬ IsPair events i j) :
      FaultAt events j (.unmatchedEnd event.name event.rank event.track)
  | inverted {i : Nat} {first last : Event} (hi : events[i]? = some first)
      (hj : events[j]? = some last) (hpair : IsPair events i j)
      (hlt : last.timestamp < first.timestamp) :
      FaultAt events j (.endBeforeBegin last.name last.rank first.timestamp last.timestamp)

def IsFirstFault (events : List Event) (j : Nat) (fault : BalanceError) : Prop :=
  FaultAt events j fault ∧ ∀ k, k < j → ∀ other, ¬ FaultAt events k other

theorem FaultAt.unique {fault other : BalanceError} (h : FaultAt events j fault)
    (h' : FaultAt events j other) : fault = other := by
  cases h with
  | unmatched hj _ hfree =>
      cases h' with
      | unmatched hj' =>
          obtain rfl := Option.some.inj (hj.symm.trans hj')
          rfl
      | inverted _ _ hpair => exact absurd hpair (hfree _)
  | inverted hi hj hpair =>
      cases h' with
      | unmatched _ _ hfree => exact absurd hpair (hfree _)
      | inverted hi' hj' hpair' =>
          obtain rfl := hpair.unique hpair'
          obtain rfl := Option.some.inj (hi.symm.trans hi')
          obtain rfl := Option.some.inj (hj.symm.trans hj')
          rfl

theorem IsFirstFault.unique {fault other : BalanceError} (h : IsFirstFault events j fault)
    (h' : IsFirstFault events k other) : fault = other := by
  rcases Nat.lt_trichotomy j k with hlt | rfl | hgt
  · exact absurd h.1 (h'.2 j hlt fault)
  · exact h.1.unique h'.1
  · exact absurd h'.1 (h.2 k hgt other)

/-! ## The places of the open spans -/

/-- The open spans behind the first `n` events, with the places of their first events, the latest
in front. -/
structure IsOpenList (events : List Event) (n : Nat) (marks : List (Nat × Event)) : Prop where
  descending : marks.Pairwise fun a b => b.1 < a.1
  mem_iff : ∀ i event,
    (i, event) ∈ marks ↔ events[i]? = some event ∧ IsOpen events n event.key i

def openSpanOf (mark : Nat × Event) : SpanKey × Float :=
  (mark.2.key, mark.2.timestamp)

namespace IsOpenList

variable {marks front back : List (Nat × Event)} {event first : Event}

theorem start : IsOpenList events 0 [] where
  descending := List.Pairwise.nil
  mem_iff i event := by
    refine iff_of_false List.not_mem_nil ?_
    rintro ⟨-, hlt, -⟩
    exact Nat.not_lt_zero i hlt

theorem mem_of_isOpen (h : IsOpenList events n marks) {key : SpanKey}
    (hopen : IsOpen events n key i) : ∃ event, (i, event) ∈ marks ∧ event.key = key := by
  obtain ⟨event, hi, -, rfl⟩ := hopen.2.1
  exact ⟨event, (h.mem_iff i event).mpr ⟨hi, hopen⟩, rfl⟩

theorem opens (h : IsOpenList events n marks) (hn : events[n]? = some event)
    (hphase : event.phase = .opens) : IsOpenList events (n + 1) ((n, event) :: marks) where
  descending := by
    refine List.pairwise_cons.mpr ⟨fun mark hmark => ?_, h.descending⟩
    exact ((h.mem_iff mark.1 mark.2).mp hmark).2.1
  mem_iff i event' := by
    rw [List.mem_cons, h.mem_iff]
    constructor
    · rintro (heq | ⟨hi, hopen⟩)
      · obtain ⟨rfl, rfl⟩ := Prod.mk.inj heq
        refine ⟨hn, i.lt_succ_self, (standsAt_iff hn).mpr ⟨hphase, rfl⟩, fun l hl hpair => ?_⟩
        exact absurd hpair.lt (by omega)
      · exact ⟨hi, (isOpen_succ hopen.1).mpr ⟨hopen, not_isPair_of_opens hn hphase⟩⟩
    · rintro ⟨hi, hopen⟩
      rcases Nat.lt_succ_iff_lt_or_eq.mp hopen.1 with hlt | rfl
      · exact Or.inr ⟨hi, ((isOpen_succ hlt).mp hopen).1⟩
      · obtain rfl := Option.some.inj (hi.symm.trans hn)
        exact Or.inl rfl

/-- A closing event whose key no open span has is without a partner. -/
theorem not_isPair (h : IsOpenList events n marks) (hn : events[n]? = some event)
    (hphase : event.phase = .closes) (hnone : (marks.map openSpanOf).lookup event.key = none)
    (i : Nat) : ¬ IsPair events i n := by
  intro hpair
  obtain ⟨hopen, -⟩ := (isPair_iff_of_closes hn hphase).mp hpair
  obtain ⟨first, hmem, hkey⟩ := h.mem_of_isOpen hopen
  rw [List.lookup_eq_none_iff, List.forall_mem_map] at hnone
  exact bne_iff_ne.mp (hnone _ hmem) hkey.symm

/-- The first span in the list with the key of a closing event is its partner, because the list goes
from the latest place to the earliest. -/
theorem isPair (h : IsOpenList events n (front ++ (i, first) :: back))
    (hn : events[n]? = some event) (hphase : event.phase = .closes)
    (hkey : first.key = event.key) (hfront : ∀ mark ∈ front, mark.2.key ≠ event.key) :
    events[i]? = some first ∧ IsPair events i n := by
  obtain ⟨hi, hopen⟩ := (h.mem_iff i first).mp (by simp)
  refine ⟨hi, (isPair_iff_of_closes hn hphase).mpr ⟨hkey ▸ hopen, fun k hk => ?_⟩⟩
  obtain ⟨other, hmem, hother⟩ := h.mem_of_isOpen hk
  rcases List.mem_append.mp hmem with hmem | hmem
  · exact absurd hother (hfront _ hmem)
  · rcases List.mem_cons.mp hmem with heq | hmem
    · exact Nat.le_of_eq (Prod.mk.inj heq).1
    · obtain ⟨-, hdescending, -⟩ := List.pairwise_append.mp h.descending
      exact Nat.le_of_lt ((List.pairwise_cons.mp hdescending).1 _ hmem)

theorem closes (h : IsOpenList events n (front ++ (i, first) :: back))
    (hpair : IsPair events i n) : IsOpenList events (n + 1) (front ++ back) where
  descending := h.descending.sublist ((List.sublist_cons_self _ back).append_left front)
  mem_iff k other := by
    -- The places in the list differ, so taking one mark away takes one place away.
    have hplaces : (front ++ (i, first) :: back).Pairwise fun a b => a.1 ≠ b.1 :=
      h.descending.imp Nat.ne_of_gt
    rw [List.pairwise_append, List.pairwise_cons] at hplaces
    obtain ⟨-, ⟨hback, -⟩, hfront⟩ := hplaces
    have hsplit : (k, other) ∈ front ++ back ↔
        (k, other) ∈ front ++ (i, first) :: back ∧ k ≠ i := by
      simp only [List.mem_append, List.mem_cons]
      constructor
      · rintro (hmem | hmem)
        · exact ⟨Or.inl hmem, hfront _ hmem _ List.mem_cons_self⟩
        · exact ⟨Or.inr (Or.inr hmem), (hback _ hmem).symm⟩
      · rintro ⟨hmem | heq | hmem, hne⟩
        · exact Or.inl hmem
        · exact absurd (Prod.mk.inj heq).1 hne
        · exact Or.inr hmem
    rw [hsplit, h.mem_iff, and_assoc]
    refine and_congr_right fun _ => ?_
    constructor
    · rintro ⟨hopen, hne⟩
      exact (isOpen_succ hopen.1).mpr ⟨hopen, fun hpair' => hne (hpair'.unique hpair)⟩
    · intro hopen
      have hlt : k < n := by
        rcases Nat.lt_succ_iff_lt_or_eq.mp hopen.1 with hlt | rfl
        · exact hlt
        · obtain ⟨event, hn, hcloses⟩ := hpair.exists_closes
          obtain ⟨hopens, -⟩ := (standsAt_iff hn).mp hopen.2.1
          rw [hcloses] at hopens
          cases hopens
      obtain ⟨hopen, hn⟩ := (isOpen_succ hlt).mp hopen
      refine ⟨hopen, ?_⟩
      rintro rfl
      exact hn hpair

/-- What the stack finds for a closing event is the time of its partner, and the stack without it
holds the spans that are open afterwards. -/
theorem exists_partner {start : Float} (h : IsOpenList events n marks)
    (hn : events[n]? = some event) (hphase : event.phase = .closes)
    (hsome : (marks.map openSpanOf).lookup event.key = some start) :
    ∃ i first rest, events[i]? = some first ∧ first.timestamp = start ∧ IsPair events i n ∧
      IsOpenList events (n + 1) rest ∧ rest.length + 1 = marks.length ∧
      (marks.map openSpanOf).eraseP (·.1 == event.key) = rest.map openSpanOf := by
  obtain ⟨spans, spans', hsplit, hother⟩ := List.lookup_eq_some_iff.mp hsome
  obtain ⟨front, marks', rfl, rfl, hrest⟩ := List.map_eq_append_iff.mp hsplit
  obtain ⟨⟨i, first⟩, back, rfl, hfirst, rfl⟩ := List.map_eq_cons_iff.mp hrest
  obtain ⟨hkey, rfl⟩ := Prod.mk.inj hfirst
  rw [List.forall_mem_map] at hother
  obtain ⟨hi, hpair⟩ := h.isPair hn hphase hkey fun mark hmark hkey =>
    bne_iff_ne.mp (hother mark hmark) hkey.symm
  refine ⟨i, first, front ++ back, hi, rfl, hpair, h.closes hpair, ?_, ?_⟩
  · simp only [List.length_append, List.length_cons]
    omega
  · rw [hsplit, List.eraseP_append_right, List.eraseP_cons_of_pos, List.map_append]
    · exact beq_self_eq_true event.key
    · rw [List.forall_mem_map]
      exact fun mark hmark heq => bne_iff_ne.mp (hother mark hmark) (beq_iff_eq.mp heq).symm

end IsOpenList

/-! ## The check along the events -/

def countOf (phase : Phase) (events : List Event) : Nat :=
  events.countP fun event => event.phase = phase

def countOfRuns (events : List Event) : Nat :=
  events.countP fun event => event.phase = .closes ∧ event.name = "Application"

theorem countOf_snoc (phase : Phase) (events : List Event) (event : Event) :
    countOf phase (events ++ [event]) =
      countOf phase events + if event.phase = phase then 1 else 0 := by
  simp [countOf, List.countP_append, List.countP_singleton]

theorem countOfRuns_snoc (events : List Event) (event : Event) :
    countOfRuns (events ++ [event]) =
      countOfRuns events + if event.phase = .closes ∧ event.name = "Application" then 1 else 0 := by
  simp [countOfRuns, List.countP_append, List.countP_singleton]

theorem take_succ_of_getElem? {event : Event} (hn : events[n]? = some event) :
    events.take (n + 1) = events.take n ++ [event] := by
  rw [List.take_add_one, hn]
  rfl

namespace Balance

/-- The state of the check is what the first `n` events say. -/
structure Recalls (events : List Event) (n : Nat) (balance : Balance) : Prop where
  openSpans : ∃ marks, IsOpenList events n marks ∧ balance.openSpans = marks.map openSpanOf
  opens : balance.openSpans.length + balance.spans = countOf .opens (events.take n)
  spans : balance.spans = countOf .closes (events.take n)
  applicationSpans : balance.applicationSpans = countOfRuns (events.take n)
  ranks : ∀ rank, rank ∈ balance.ranks ↔ rank ∈ (events.take n).map Event.rank

namespace Recalls

variable {balance : Balance} {event : Event}

theorem start : Recalls events 0 {} where
  openSpans := ⟨[], IsOpenList.start, rfl⟩
  opens := rfl
  spans := rfl
  applicationSpans := rfl
  ranks _ := iff_of_false Std.TreeSet.not_mem_emptyc List.not_mem_nil

/-- One more event, where the counts grow by what the event is. -/
theorem snoc (h : Recalls events n balance) (hn : events[n]? = some event) {next : Balance}
    (hopen : ∃ marks, IsOpenList events (n + 1) marks ∧ next.openSpans = marks.map openSpanOf)
    (hopens : next.openSpans.length + next.spans =
      balance.openSpans.length + balance.spans + if event.phase = .opens then 1 else 0)
    (hspans : next.spans = balance.spans + if event.phase = .closes then 1 else 0)
    (hruns : next.applicationSpans = balance.applicationSpans +
      if event.phase = .closes ∧ event.name = "Application" then 1 else 0)
    (hranks : next.ranks = balance.ranks.insert event.rank) : Recalls events (n + 1) next where
  openSpans := hopen
  opens := by rw [hopens, h.opens, take_succ_of_getElem? hn, countOf_snoc]
  spans := by rw [hspans, h.spans, take_succ_of_getElem? hn, countOf_snoc]
  applicationSpans := by
    rw [hruns, h.applicationSpans, take_succ_of_getElem? hn, countOfRuns_snoc]
  ranks rank := by
    rw [hranks, Std.TreeSet.mem_insert, Std.compare_eq_iff_eq, h.ranks, take_succ_of_getElem? hn,
      List.map_append, List.mem_append, List.map_singleton, List.mem_singleton, or_comm, eq_comm]

theorem step_opens (h : Recalls events n balance) (hn : events[n]? = some event)
    (hphase : event.phase = .opens) :
    ∃ next, balance.step event = .ok next ∧ Recalls events (n + 1) next := by
  obtain ⟨marks, hmarks, hopen⟩ := h.openSpans
  refine ⟨{ balance with ranks := balance.ranks.insert event.rank }.openSpan event, ?_, ?_⟩
  · unfold step
    rw [hphase]
    rfl
  · apply h.snoc hn
    · exact ⟨(n, event) :: marks, hmarks.opens hn hphase, congrArg (openSpanOf (n, event) :: ·) hopen⟩
    · rw [if_pos hphase]
      exact Nat.add_right_comm _ _ _
    · rw [if_neg (by rw [hphase]; decide)]
      rfl
    · rw [if_neg (by rw [hphase]; simp)]
      rfl
    · rfl

/-- A closing event either has a fault, or takes its partner off the stack. -/
theorem step_closes (h : Recalls events n balance) (hn : events[n]? = some event)
    (hphase : event.phase = .closes) :
    (∃ fault, balance.step event = .error fault ∧ FaultAt events n fault) ∨
      ∃ next, balance.step event = .ok next ∧ Recalls events (n + 1) next ∧
        ∀ fault, ¬ FaultAt events n fault := by
  obtain ⟨marks, hmarks, hopen⟩ := h.openSpans
  have hstep : balance.step event =
      { balance with ranks := balance.ranks.insert event.rank }.closeSpan event := by
    unfold step
    rw [hphase]
  rw [hstep, closeSpan, hopen]
  cases hlookup : (marks.map openSpanOf).lookup event.key with
  | none => exact Or.inl ⟨_, rfl, .unmatched hn hphase (hmarks.not_isPair hn hphase hlookup)⟩
  | some start =>
      obtain ⟨i, first, rest, hi, rfl, hpair, hrest, hlength, herase⟩ :=
        hmarks.exists_partner hn hphase hlookup
      by_cases hlt : event.timestamp < first.timestamp
      · exact Or.inl ⟨_, if_pos hlt, .inverted hi hn hpair hlt⟩
      · refine Or.inr ⟨_, if_neg hlt, h.snoc hn ⟨rest, hrest, herase⟩ ?_ ?_ ?_ rfl, ?_⟩
        · simp only [herase, hopen, List.length_map, if_neg (show event.phase ≠ .opens by simp [hphase])]
          omega
        · rw [if_pos hphase]
        · simp only [hphase, true_and]
          rfl
        · intro fault hfault
          -- A closing event has one partner, so a fault would be about this very pair.
          cases hfault with
          | unmatched _ _ hfree => exact hfree i hpair
          | inverted hi' hn' hpair' hlt' =>
              obtain rfl := hpair.unique hpair'
              obtain rfl := Option.some.inj (hi.symm.trans hi')
              obtain rfl := Option.some.inj (hn.symm.trans hn')
              exact hlt hlt'

end Recalls

/-- What the check has found after `n` events: their state if none of them has a fault, and
otherwise the first fault. -/
def Tells (events : List Event) (n : Nat) : Except BalanceError Balance → Prop
  | .ok balance => Recalls events n balance ∧ ∀ j, j < n → ∀ fault, ¬ FaultAt events j fault
  | .error fault => ∃ j, j < n ∧ IsFirstFault events j fault

theorem not_faultAt_of_opens {event : Event} (hn : events[n]? = some event)
    (hphase : event.phase = .opens) (fault : BalanceError) : ¬ FaultAt events n fault := by
  intro hfault
  cases hfault with
  | unmatched hj hcloses =>
      obtain rfl := Option.some.inj (hn.symm.trans hj)
      rw [hphase] at hcloses
      cases hcloses
  | inverted _ _ hpair => exact not_isPair_of_opens hn hphase hpair

theorem tells_step {balance : Balance} {event : Event} (h : Recalls events n balance)
    (hfree : ∀ j, j < n → ∀ fault, ¬ FaultAt events j fault) (hn : events[n]? = some event) :
    Tells events (n + 1) (balance.step event) := by
  have hclean : (∀ fault, ¬ FaultAt events n fault) →
      ∀ j, j < n + 1 → ∀ fault, ¬ FaultAt events j fault := by
    intro hlast j hj
    rcases Nat.lt_succ_iff_lt_or_eq.mp hj with hj | rfl
    · exact hfree j hj
    · exact hlast
  cases hphase : event.phase with
  | opens =>
      obtain ⟨next, hstep, hnext⟩ := h.step_opens hn hphase
      rw [hstep]
      exact ⟨hnext, hclean (not_faultAt_of_opens hn hphase)⟩
  | closes =>
      rcases h.step_closes hn hphase with ⟨fault, hstep, hfault⟩ | ⟨next, hstep, hnext, hlast⟩
      · rw [hstep]
        exact ⟨n, n.lt_succ_self, hfault, hfree⟩
      · rw [hstep]
        exact ⟨hnext, hclean hlast⟩

theorem tells_take (events : List Event) {n : Nat} (hn : n ≤ events.length) :
    Tells events n ((events.take n).foldlM step {}) := by
  induction n with
  | zero => exact ⟨Recalls.start, fun j hj => absurd hj j.not_lt_zero⟩
  | succ n ih =>
      have ih := ih (Nat.le_of_succ_le hn)
      have hevent := List.getElem?_eq_getElem hn
      rw [take_succ_of_getElem? hevent, List.foldlM_append]
      cases hfold : (events.take n).foldlM step {} with
      | error fault =>
          rw [hfold] at ih
          obtain ⟨j, hj, hfirst⟩ := ih
          exact ⟨j, Nat.lt_succ_of_lt hj, hfirst⟩
      | ok balance =>
          rw [hfold] at ih
          show Tells events (n + 1) (balance.step events[n] >>= pure)
          rw [bind_pure]
          exact tells_step ih.1 ih.2 hevent

end Balance

/-! ## What the check decides -/

/-- Every event has its partner, and no span ends before it begins. -/
structure IsBalanced (events : List Event) : Prop where
  closes : ∀ j key, StandsAt events .closes key j → ∃ i, IsPair events i j
  opens : ∀ i key, StandsAt events .opens key i → ∃ j, IsPair events i j
  inOrder : ∀ i j first last, IsPair events i j → events[i]? = some first →
    events[j]? = some last → ¬ last.timestamp < first.timestamp

def statsOf (events : List Event) : TimelineStats where
  events := events.length
  spans := events.length / 2
  applicationSpans := countOfRuns events
  ranks := (events.map Event.rank).toFinset.card

theorem isBalanced_iff : IsBalanced events ↔
    (∀ j fault, ¬ FaultAt events j fault) ∧
      ∀ key i, ¬ IsOpen events events.length key i := by
  constructor
  · rintro ⟨hcloses, hopens, horder⟩
    refine ⟨fun j fault hfault => ?_, fun key i hopen => ?_⟩
    · cases hfault with
      | unmatched hj hphase hfree =>
          obtain ⟨i, hpair⟩ := hcloses j _ ⟨_, hj, hphase, rfl⟩
          exact hfree i hpair
      | inverted hi hj hpair hlt => exact horder _ _ _ _ hpair hi hj hlt
    · obtain ⟨j, hpair⟩ := hopens i key hopen.2.1
      obtain ⟨event, hj, -⟩ := hpair.exists_closes
      exact hopen.2.2 j (List.getElem?_eq_some_iff.mp hj).1 hpair
  · rintro ⟨hfree, hclosed⟩
    refine ⟨fun j key hcloses => ?_, fun i key hopens => ?_, fun i j first last hpair hi hj hlt => ?_⟩
    · by_contra hnone
      obtain ⟨event, hj, hphase, -⟩ := hcloses
      exact hfree j _ (.unmatched hj hphase fun i hpair => hnone ⟨i, hpair⟩)
    · by_contra hnone
      obtain ⟨event, hi, -⟩ := id hopens
      exact hclosed key i ⟨(List.getElem?_eq_some_iff.mp hi).1, hopens,
        fun j _ hpair => hnone ⟨j, hpair⟩⟩
    · exact hfree j _ (.inverted hi hj hpair hlt)

theorem card_ranks {ranks : Std.TreeSet UInt32} {list : List UInt32}
    (h : ∀ rank, rank ∈ ranks ↔ rank ∈ list) : ranks.size = list.toFinset.card := by
  have hnodup : ranks.toList.Nodup :=
    Std.TreeSet.distinct_toList.imp fun hne heq => hne (Std.compare_eq_iff_eq.mpr heq)
  rw [← Std.TreeSet.length_toList, ← List.toFinset_card_of_nodup hnodup]
  congr 1
  ext rank
  rw [List.mem_toFinset, List.mem_toFinset, Std.TreeSet.mem_toList, h]

theorem countOf_opens_add_closes (events : List Event) :
    countOf .opens events + countOf .closes events = events.length := by
  induction events with
  | nil => rfl
  | cons event events ih =>
      cases hphase : event.phase <;> simp [countOf, hphase] at ih ⊢ <;> omega

theorem Balance.Recalls.isEmpty_iff {balance : Balance} (h : balance.Recalls events n) :
    balance.openSpans.isEmpty = true ↔ ∀ key i, ¬ IsOpen events n key i := by
  obtain ⟨marks, hmarks, hopen⟩ := h.openSpans
  rw [hopen, List.isEmpty_iff, List.map_eq_nil_iff]
  constructor
  · rintro rfl key i hi
    obtain ⟨event, hmem, -⟩ := hmarks.mem_of_isOpen hi
    exact absurd hmem List.not_mem_nil
  · intro hnone
    rw [List.eq_nil_iff_forall_not_mem]
    exact fun mark hmark => hnone _ _ ((hmarks.mem_iff mark.1 mark.2).mp hmark).2

/-- The counts behind a timeline that has no open span left. -/
theorem Balance.Recalls.stats_eq {balance : Balance} (h : balance.Recalls events events.length)
    (hempty : balance.openSpans.isEmpty = true) :
    { events := events.length
      spans := balance.spans
      applicationSpans := balance.applicationSpans
      ranks := balance.ranks.size : TimelineStats } = statsOf events := by
  have hopens := h.opens
  have hspans := h.spans
  have hruns := h.applicationSpans
  have hranks := card_ranks h.ranks
  have htotal := countOf_opens_add_closes events
  rw [List.isEmpty_iff.mp hempty, List.length_nil] at hopens
  rw [List.take_length] at hopens hspans hruns hranks
  rw [statsOf, hruns, hranks]
  congr 1
  omega

/-- What the outcome of the check says about the events. -/
def Decides (events : List Event) : Except BalanceError TimelineStats → Prop
  | .ok stats => IsBalanced events ∧ stats = statsOf events
  | .error fault =>
    (∃ j, IsFirstFault events j fault) ∨
      (∀ j other, ¬ FaultAt events j other) ∧ ¬ IsBalanced events ∧
        fault = .unclosed (countOf .opens events - countOf .closes events)

theorem decides_check (timeline : Timeline) : Decides timeline.events timeline.check := by
  have htells := Balance.tells_take timeline.events le_rfl
  rw [List.take_length] at htells
  unfold Timeline.check
  cases hfold : timeline.events.foldlM Balance.step {} with
  | error fault =>
      rw [hfold] at htells
      obtain ⟨j, -, hfirst⟩ := htells
      exact Or.inl ⟨j, hfirst⟩
  | ok balance =>
      rw [hfold] at htells
      obtain ⟨hrecalls, hfree⟩ := htells
      have hclean : ∀ j fault, ¬ FaultAt timeline.events j fault := by
        intro j fault hfault
        refine hfree j ?_ fault hfault
        cases hfault with
        | unmatched hj => exact (List.getElem?_eq_some_iff.mp hj).1
        | inverted _ hj => exact (List.getElem?_eq_some_iff.mp hj).1
      show Decides timeline.events (if balance.openSpans.isEmpty = true then _ else _)
      split
      · rename_i hempty
        exact ⟨isBalanced_iff.mpr ⟨hclean, hrecalls.isEmpty_iff.mp hempty⟩,
          hrecalls.stats_eq hempty⟩
      · rename_i hopen
        refine Or.inr ⟨hclean, fun hbalanced => hopen ?_, ?_⟩
        · exact hrecalls.isEmpty_iff.mpr (isBalanced_iff.mp hbalanced).2
        · have hopens := hrecalls.opens
          have hspans := hrecalls.spans
          rw [List.take_length] at hopens hspans
          refine congrArg BalanceError.unclosed ?_
          omega

theorem IsBalanced.not_decides_error (h : IsBalanced events) (fault : BalanceError) :
    ¬ Decides events (.error fault) := by
  rintro (⟨j, hfirst⟩ | ⟨-, hnot, -⟩)
  · exact (isBalanced_iff.mp h).1 j fault hfirst.1
  · exact hnot h

/-- The events alone decide the outcome. -/
theorem Decides.unique {result other : Except BalanceError TimelineStats}
    (h : Decides events result) (h' : Decides events other) : result = other := by
  cases result with
  | ok stats =>
      cases other with
      | ok stats' => rw [h.2, h'.2]
      | error fault => exact absurd h' (h.1.not_decides_error fault)
  | error fault =>
      cases other with
      | ok stats => exact absurd h (h'.1.not_decides_error fault)
      | error fault' =>
          rcases h with ⟨j, hfirst⟩ | ⟨hfree, -, rfl⟩
          · rcases h' with ⟨j', hfirst'⟩ | ⟨hfree, -⟩
            · rw [hfirst.unique hfirst']
            · exact absurd hfirst.1 (hfree j fault)
          · rcases h' with ⟨j', hfirst'⟩ | ⟨-, -, rfl⟩
            · exact absurd hfirst'.1 (hfree j' fault')
            · rfl

/-- **What the check of a timeline decides.** It accepts exactly the balanced timelines, and counts
their events, their spans, those with the name of a whole run, and their ranks. Otherwise it reports
the first closing event that has no partner or comes before it; and where there is none, how many
more events open a span than close one. -/
theorem Timeline.check_eq_iff (timeline : Timeline) :
    (∀ stats, timeline.check = .ok stats ↔
      IsBalanced timeline.events ∧
        stats =
          { events := timeline.events.length
            spans := timeline.events.length / 2
            applicationSpans := countOfRuns timeline.events
            ranks := (timeline.events.map Event.rank).toFinset.card }) ∧
    ∀ fault, timeline.check = .error fault ↔
      (∃ j, IsFirstFault timeline.events j fault) ∨
        (∀ j other, ¬ FaultAt timeline.events j other) ∧ ¬ IsBalanced timeline.events ∧
          fault = .unclosed (countOf .opens timeline.events - countOf .closes timeline.events) := by
  have hcheck := decides_check timeline
  constructor
  · intro stats
    constructor
    · intro h
      rw [h] at hcheck
      exact hcheck
    · intro h
      have hstats : Decides timeline.events (.ok stats) := h
      exact hcheck.unique hstats
  · intro fault
    constructor
    · intro h
      rw [h] at hcheck
      exact hcheck
    · intro h
      have hfault : Decides timeline.events (.error fault) := h
      exact hcheck.unique hfault

end TraceTimeline
