import TraceTimeline.Proofs.Timeline.Artifact
import TraceTimeline.Proofs.Timeline.Matching
import Mathlib.Data.Finset.Union
import Mathlib.Data.Nat.Find

/-!
# What the check of a run reports

The timeline of a run is a row of spans, of which many may share a key. Since each is closed before
the next one opens, no event is ever matched with one of another span. Main statement: the check of a
run, whatever the times of its records are, either counts its records and ranks or reports the first
span that ends before it begins.
-/

namespace TraceTimeline

open Time Trace

def IsInverted (events : List Event) (m : Nat) : Prop :=
  ∃ first last, events[2 * m]? = some first ∧ events[2 * m + 1]? = some last ∧
    last.timestamp < first.timestamp

theorem rowOf_getElem?_even (stretches : List Stretch) (m : Nat) :
    (rowOf stretches)[2 * m]? =
      stretches[m]?.map fun stretch => { stretch.1 with phase := .opens } :=
  spansOf_getElem?_even _ _ stretches m

theorem rowOf_getElem?_odd (stretches : List Stretch) (m : Nat) :
    (rowOf stretches)[2 * m + 1]? =
      stretches[m]?.map fun stretch =>
        { stretch.1 with phase := .closes, timestamp := stretch.2 } :=
  spansOf_getElem?_odd _ _ stretches m

theorem isInverted_rowOf_iff {stretches : List Stretch} {m : Nat} :
    IsInverted (rowOf stretches) m ↔
      ∃ stretch, stretches[m]? = some stretch ∧ stretch.2 < stretch.1.timestamp := by
  rw [IsInverted, rowOf_getElem?_even, rowOf_getElem?_odd]
  cases stretches[m]? with
  | none => simp
  | some stretch => simp

theorem rowOf_append (front back : List Stretch) : rowOf (front ++ back) = rowOf front ++ rowOf back :=
  List.flatMap_append

/-- The spans before the first one that ends too early leave nothing open that could hide it. -/
theorem check_rowOf_of_inverted {front back : List Stretch} {stretch : Stretch}
    (hfront : ∀ other ∈ front, ¬ other.2 < other.1.timestamp)
    (hlt : stretch.2 < stretch.1.timestamp) :
    Timeline.check ⟨rowOf (front ++ stretch :: back)⟩ =
      .error (.endBeforeBegin stretch.1.name stretch.1.rank stretch.1.timestamp stretch.2) := by
  obtain ⟨after, hafter⟩ := (foldlM_rowOf front {}).1.mpr hfront
  unfold Timeline.check
  simp only [rowOf_append, rowOf_cons, List.foldlM_append, hafter]
  show (((Event.span stretch.1 stretch.2).foldlM Balance.step after >>= _) >>= _) = _
  rw [Balance.foldlM_span, if_pos hlt]
  rfl

theorem countOfRuns_rowOf (stretches : List Stretch) :
    countOfRuns (rowOf stretches) =
      stretches.countP fun stretch => stretch.1.name = "Application" := by
  induction stretches with
  | nil => rfl
  | cons stretch stretches ih =>
      rw [List.countP_cons, ← ih, rowOf_cons, countOfRuns, List.countP_append, Nat.add_comm]
      simp [Event.span, countOfRuns, List.countP_cons]

theorem map_rank_rowOf (stretches : List Stretch) :
    ((rowOf stretches).map Event.rank).toFinset =
      (stretches.map fun stretch => stretch.1.rank).toFinset := by
  induction stretches with
  | nil => rfl
  | cons stretch stretches ih =>
      rw [rowOf_cons, List.map_append, List.toFinset_append, ih, List.map_cons, List.toFinset_cons]
      simp [Event.span]

/-- What the check counts in a row of spans. -/
theorem check_rowOf_of_ordered {stretches : List Stretch}
    (h : ∀ stretch ∈ stretches, ¬ stretch.2 < stretch.1.timestamp) :
    Timeline.check ⟨rowOf stretches⟩ = .ok
      { events := 2 * stretches.length
        spans := stretches.length
        applicationSpans := stretches.countP fun stretch => stretch.1.name = "Application"
        ranks := (stretches.map fun stretch => stretch.1.rank).toFinset.card } := by
  obtain ⟨stats, hstats⟩ := (check_rowOf_iff stretches).mpr h
  have hdecides := decides_check ⟨rowOf stretches⟩
  rw [hstats] at hdecides ⊢
  obtain ⟨-, rfl⟩ := hdecides
  have hlength : (rowOf stretches).length = 2 * stretches.length := length_spansOf _ _ stretches
  rw [statsOf, hlength, countOfRuns_rowOf, map_rank_rowOf, Nat.mul_div_cancel_left _ (by decide)]

/-- In a row of spans, the check reports the first one that ends before it begins. -/
theorem check_rowOf_of_first {stretches : List Stretch} {m : Nat} {stretch : Stretch}
    (hm : stretches[m]? = some stretch) (hlt : stretch.2 < stretch.1.timestamp)
    (hfirst : ∀ k, k < m → ¬ IsInverted (rowOf stretches) k) :
    Timeline.check ⟨rowOf stretches⟩ =
      .error (.endBeforeBegin stretch.1.name stretch.1.rank stretch.1.timestamp stretch.2) := by
  obtain ⟨hlength, heq⟩ := List.getElem?_eq_some_iff.mp hm
  have hsplit : stretches = stretches.take m ++ stretch :: stretches.drop (m + 1) := by
    rw [← heq, ← List.drop_eq_getElem_cons hlength, List.take_append_drop]
  have hfront : ∀ other ∈ stretches.take m, ¬ other.2 < other.1.timestamp := by
    intro other hother hlt'
    obtain ⟨k, hk⟩ := List.getElem?_of_mem hother
    rw [List.getElem?_take] at hk
    split at hk
    · rename_i hklt
      exact hfirst k hklt (isInverted_rowOf_iff.mpr ⟨other, hk, hlt'⟩)
    · cases hk
  rw [hsplit]
  exact check_rowOf_of_inverted hfront hlt

/-- The check of a row of spans finds every closing event its partner, and leaves no span open. -/
theorem check_rowOf_cases (stretches : List Stretch) :
    (∃ stats, Timeline.check ⟨rowOf stretches⟩ = .ok stats) ∨
      ∃ name rank start stop,
        Timeline.check ⟨rowOf stretches⟩ = .error (.endBeforeBegin name rank start stop) := by
  by_cases h : ∃ m, IsInverted (rowOf stretches) m
  · classical
    obtain ⟨stretch, hm, hlt⟩ := isInverted_rowOf_iff.mp (Nat.find_spec h)
    exact Or.inr ⟨_, _, _, _, check_rowOf_of_first hm hlt fun k hk => Nat.find_min h hk⟩
  · refine Or.inl ⟨_, check_rowOf_of_ordered fun stretch hmem hlt => h ?_⟩
    obtain ⟨m, hm⟩ := List.getElem?_of_mem hmem
    exact ⟨m, isInverted_rowOf_iff.mpr ⟨stretch, hm, hlt⟩⟩

/-! ## The check of a run -/

theorem length_stretchesOf (records : List Record) (start stop : Float) (ranks : List UInt32) :
    (stretchesOf records start stop ranks).length = records.length + ranks.length := by
  rw [stretchesOf, List.length_append, List.length_map, List.length_map]

theorem countP_stretchesOf (records : List Record) (start stop : Float) (ranks : List UInt32) :
    ((stretchesOf records start stop ranks).countP fun stretch =>
        stretch.1.name = "Application") =
      ranks.length + records.countP fun record => baseName record.file = "Application" := by
  rw [stretchesOf, List.countP_append, List.countP_map, List.countP_map, Nat.add_comm]
  congr 1
  exact List.countP_eq_length.mpr fun rank _ => rfl

theorem map_rank_stretchesOf (records : List Record) (start stop : Float) (ranks : List UInt32) :
    ((stretchesOf records start stop ranks).map fun stretch => stretch.1.rank) =
      records.map Record.rank ++ ranks := by
  rw [stretchesOf, List.map_append, List.map_map, List.map_map]
  congr 1
  exact List.map_id ranks

theorem image_toNat_ranksBelow (processes : UInt32) :
    (ranksBelow processes).toFinset.image UInt32.toNat = Finset.range processes.toNat := by
  ext n
  simp only [ranksBelow, Finset.mem_image, List.mem_toFinset, List.mem_map, List.mem_range,
    Finset.mem_range]
  constructor
  · rintro ⟨_, ⟨r, hr, rfl⟩, rfl⟩
    rwa [UInt32.toNat_ofNat_of_lt' (hr.trans processes.toNat_lt)]
  · intro hn
    exact ⟨_, ⟨n, hn, rfl⟩, UInt32.toNat_ofNat_of_lt' (hn.trans processes.toNat_lt)⟩

theorem card_ranks_stretchesOf (records : List Record) (start stop : Float) (processes : UInt32) :
    ((stretchesOf records start stop (ranksBelow processes)).map
        fun stretch => stretch.1.rank).toFinset.card =
      ((records.map fun record => record.rank.toNat).toFinset ∪
        Finset.range processes.toNat).card := by
  have hinjective : Function.Injective UInt32.toNat := fun _ _ => UInt32.toNat_inj.mp
  have hrecords : (records.map Record.rank).toFinset.image UInt32.toNat =
      (records.map fun record => record.rank.toNat).toFinset := by
    ext n
    simp
  rw [map_rank_stretchesOf, List.toFinset_append, ← Finset.card_image_of_injective _ hinjective,
    Finset.image_union, image_toNat_ranksBelow, hrecords]

/-- **What the check of a run reports.** A run of `R` records and `P` ranks, whatever its records
hold, never has an event without a partner. If no span ends before it begins, the check counts
`R + P` spans, those of the ranks and of the records on files named `Application` among them as
application spans, and as many ranks as the records and the run have together. Otherwise it reports
the first span that does. -/
theorem Timeline.check_ofRecords {records : List Record} {metadata : Metadata}
    {classifier : Classifier} {timeline : Timeline}
    (h : Timeline.ofRecords records metadata classifier = .ok timeline) :
    ∃ processes, metadata.processes = .ok processes ∧
      (∀ name rank track, timeline.check ≠ .error (.unmatchedEnd name rank track)) ∧
      (∀ count, timeline.check ≠ .error (.unclosed count)) ∧
      ((∀ m, ¬ IsInverted timeline.events m) → timeline.check = .ok
        { events := 2 * records.length + 2 * processes.toNat
          spans := records.length + processes.toNat
          applicationSpans := processes.toNat +
            records.countP fun record => baseName record.file = "Application"
          ranks := ((records.map fun record => record.rank.toNat).toFinset ∪
            Finset.range processes.toNat).card }) ∧
      ∀ m first last, timeline.events[2 * m]? = some first →
        timeline.events[2 * m + 1]? = some last → last.timestamp < first.timestamp →
        (∀ k, k < m → ¬ IsInverted timeline.events k) →
        timeline.check =
          .error (.endBeforeBegin first.name first.rank first.timestamp last.timestamp) := by
  obtain ⟨start, stop, processes, -, -, -, hprocesses, hevents⟩ :=
    Timeline.ofRecords_eq_ok_iff.mp h
  obtain rfl : timeline = ⟨rowOf (stretchesOf records start stop (ranksBelow processes))⟩ := by
    rw [← rowOf_stretchesOf, ← hevents]
  have hcases := check_rowOf_cases (stretchesOf records start stop (ranksBelow processes))
  refine ⟨processes, hprocesses, ?_, ?_, ?_, ?_⟩
  · intro name rank track herror
    rw [herror] at hcases
    rcases hcases with ⟨_, ⟨⟩⟩ | ⟨_, _, _, _, ⟨⟩⟩
  · intro count herror
    rw [herror] at hcases
    rcases hcases with ⟨_, ⟨⟩⟩ | ⟨_, _, _, _, ⟨⟩⟩
  · intro hordered
    have hnone : ∀ stretch ∈ stretchesOf records start stop (ranksBelow processes),
        ¬ stretch.2 < stretch.1.timestamp := by
      intro stretch hmem hlt
      obtain ⟨m, hm⟩ := List.getElem?_of_mem hmem
      exact hordered m (isInverted_rowOf_iff.mpr ⟨stretch, hm, hlt⟩)
    rw [check_rowOf_of_ordered hnone, length_stretchesOf, countP_stretchesOf,
      card_ranks_stretchesOf, length_ranksBelow, Nat.mul_add]
  · intro m first last hfirst hlast hlt hearlier
    rw [rowOf_getElem?_even] at hfirst
    obtain ⟨stretch, hm, rfl⟩ := Option.map_eq_some_iff.mp hfirst
    rw [rowOf_getElem?_odd, hm] at hlast
    obtain rfl := Option.some.inj hlast
    exact check_rowOf_of_first hm hlt hearlier

/-- A run with a record on a file named like the span of a whole run, which begins at no number, and
one that ends before it begins. The check passes the first and reports the second. -/
theorem check_of_backward_record :
    let record : Record :=
      { ioModule := "N/A", file := "/a/Application", rank := 0, operation := "read"
        segment := 0, offset := 0, length := 1, start := 0 / 0, stop := 1 }
    let backward : Record :=
      { record with file := "/a/b.h5", rank := 7, start := 3, stop := 1 }
    let metadata : Metadata :=
      ((({} : Metadata).insert "start_time" "100.0").insert "end_time" "110").insert "nprocs" "2"
    ∃ timeline, Timeline.ofRecords [record, backward] metadata ⟨none⟩ = .ok timeline ∧
      ∃ start stop,
        timeline.check = .error (.endBeforeBegin "b.h5" 7 start stop) ∧ stop < start := by
  intro record backward metadata
  obtain ⟨timeline, h, hevents⟩ : ∃ timeline,
      Timeline.ofRecords [record, backward] metadata ⟨none⟩ = .ok timeline ∧
        timeline.events = [record, backward].flatMap (Record.span ⟨100⟩ ⟨none⟩) ++
          (ranksBelow 2).flatMap (applicationSpan ⟨100⟩ 110) :=
    ⟨⟨_⟩, Timeline.ofRecords_eq_ok_iff.mpr ⟨100, 110, 2, eq_ok_of_toOption (by decide +kernel),
      eq_ok_of_toOption (by decide +kernel), by decide +kernel,
      eq_ok_of_toOption (by decide +kernel), rfl⟩, rfl⟩
  obtain ⟨processes, -, -, -, -, hfirst⟩ := Timeline.check_ofRecords h
  rw [hevents] at hfirst
  have hlt : Clock.absolute ⟨100⟩ 1 < Clock.absolute ⟨100⟩ 3 := by decide +kernel
  have hordered : ∀ k, k < 1 → ¬ IsInverted ([record, backward].flatMap
      (Record.span ⟨100⟩ ⟨none⟩) ++ (ranksBelow 2).flatMap (applicationSpan ⟨100⟩ 110)) k := by
    intro k hk
    obtain rfl : k = 0 := by omega
    rintro ⟨first, last, hfirst, hlast, hlt⟩
    obtain rfl := Option.some.inj hfirst
    obtain rfl := Option.some.inj hlast
    exact absurd hlt (by decide +kernel)
  have hname : baseName "/a/b.h5" = "b.h5" := by decide +kernel
  have herror : timeline.check = .error (.endBeforeBegin (baseName "/a/b.h5") 7
      (Clock.absolute ⟨100⟩ 3) (Clock.absolute ⟨100⟩ 1)) := hfirst 1 _ _ rfl rfl hlt hordered
  rw [hname] at herror
  exact ⟨timeline, h, _, _, herror, hlt⟩

end TraceTimeline
