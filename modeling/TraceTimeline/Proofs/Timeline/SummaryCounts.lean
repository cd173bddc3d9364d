import TraceTimeline.Proofs.Timeline.Layout
import TraceTimeline.Trace.Summary
import Mathlib.Algebra.BigOperators.Group.List.Lemmas
import Mathlib.Data.List.Induction

/-!
# The summary of a run agrees with its timeline

A summary counts the records of a rank by layer, a timeline draws the records of a rank on the track
of their layer. The spans of whole runs are drawn on the track of the cache too, but no cache file
has their name. Main statement: what the summary counts is what the timeline shows.
-/

namespace TraceTimeline

open Trace

namespace Trace.Summary

def recordsOf (records : List Record) (rank : UInt32) : List Record :=
  records.filter (·.rank = rank)

def countOf (records : List Record) : RankCount where
  cache := records.countP fun record => isCacheFile record.file
  backend := records.countP fun record => !isCacheFile record.file

theorem total_countOf (records : List Record) : (countOf records).total = records.length := by
  rw [List.length_eq_countP_add_countP fun record => isCacheFile record.file]
  simp [RankCount.total, countOf]

theorem recordsOf_snoc (records : List Record) (record : Record) (rank : UInt32) :
    recordsOf (records ++ [record]) rank =
      if record.rank = rank then recordsOf records rank ++ [record]
      else recordsOf records rank := by
  rw [recordsOf, List.filter_append, List.filter_singleton]
  split <;> simp_all [recordsOf]

theorem countOf_snoc (classifier : Classifier) (records : List Record) (record : Record) :
    countOf (records ++ [record]) = (countOf records).add (classifier.layer record.file) := by
  rw [countOf, List.countP_append, List.countP_append, List.countP_singleton,
    List.countP_singleton, Classifier.layer]
  cases isCacheFile record.file <;> rfl

def IsUnclassified (classifier : Classifier) (records : List Record) (name : String) : Prop :=
  ∃ record ∈ records, isCacheFile record.file = false ∧ IsLastComponent record.file name ∧
    classifier.primaryFile ≠ some name

/-- What a summary says about the records it was made of. -/
structure Describes (classifier : Classifier) (summary : Summary) (records : List Record) :
    Prop where
  ranks : ∀ rank, summary.ranks[rank]? =
    if recordsOf records rank = [] then none else some (countOf (recordsOf records rank))
  unclassified : ∀ name, name ∈ summary.unclassifiedFiles ↔ IsUnclassified classifier records name

/-- A record adds its file, by its base name, if that is of no known kind. -/
theorem mem_unclassifiedFiles_add {classifier : Classifier} {summary : Summary} {record : Record}
    {name : String} :
    name ∈ (add classifier summary record).unclassifiedFiles ↔
      name ∈ summary.unclassifiedFiles ∨ IsUnclassified classifier [record] name := by
  have hknown : (decide (classifier.layer record.file = .cacheLocal) ||
      classifier.isPrimary record.file) = false ↔
        isCacheFile record.file = false ∧ classifier.primaryFile ≠ some record.fileName := by
    rw [Bool.or_eq_false_iff, decide_eq_false_iff_not, layer_eq_cacheLocal_iff, Bool.not_eq_true,
      Classifier.isPrimary, beq_eq_false_iff_ne, Record.fileName]
  simp only [add, IsUnclassified, List.mem_singleton, exists_eq_left, isLastComponent_iff]
  split
  · rename_i htrue
    refine (or_iff_left ?_).symm
    rintro ⟨hcache, rfl, hprimary⟩
    rw [hknown.mpr ⟨hcache, hprimary⟩] at htrue
    cases htrue
  · rename_i hfalse
    obtain ⟨hcache, hprimary⟩ := hknown.mp (eq_false_of_ne_true hfalse)
    rw [Std.TreeSet.mem_insert, Std.compare_eq_iff_eq, or_comm]
    refine or_congr_right ⟨?_, fun h => h.2.1⟩
    rintro rfl
    exact ⟨hcache, rfl, hprimary⟩

namespace Describes

variable {classifier : Classifier} {summary : Summary} {records : List Record}

theorem start (startTime endTime : Float) (skippedLines : Nat) :
    Describes classifier { startTime, endTime, skippedLines } [] where
  ranks _ := Std.TreeMap.getElem?_emptyc
  unclassified name := by simp [IsUnclassified, Std.TreeSet.not_mem_emptyc]

theorem snoc (h : Describes classifier summary records) (record : Record) :
    Describes classifier (add classifier summary record) (records ++ [record]) where
  ranks rank := by
    have hbefore := h.ranks rank
    rw [recordsOf_snoc]
    simp only [add, Std.TreeMap.getElem?_alter]
    by_cases hrank : record.rank = rank
    · subst hrank
      rw [if_pos Std.compare_self, if_pos rfl, if_neg (by simp), hbefore, countOf_snoc classifier]
      by_cases hnone : recordsOf records record.rank = []
      · rw [if_pos hnone, hnone]
        rfl
      · rw [if_neg hnone]
        rfl
    · rw [if_neg (mt Std.compare_eq_iff_eq.mp hrank), if_neg hrank]
      exact hbefore
  unclassified name := by
    have hsplit : IsUnclassified classifier (records ++ [record]) name ↔
        IsUnclassified classifier records name ∨ IsUnclassified classifier [record] name := by
      simp only [IsUnclassified, List.mem_append, or_and_right, exists_or]
    rw [hsplit, ← h.unclassified name, mem_unclassifiedFiles_add]

theorem mem_ranks (h : Describes classifier summary records) {rank : UInt32} :
    rank ∈ summary.ranks ↔ ∃ record ∈ records, record.rank = rank := by
  rw [Std.TreeMap.mem_iff_isSome_getElem?, h.ranks]
  simp [recordsOf]

theorem getD_ranks (h : Describes classifier summary records) (rank : UInt32) :
    summary.ranks[rank]?.getD {} = countOf (recordsOf records rank) := by
  rw [h.ranks]
  split
  · rename_i hnone
    rw [hnone]
    rfl
  · rfl

end Describes

theorem describes_ofRecords (classifier : Classifier) (startTime endTime : Float)
    (skippedLines : Nat) (records : List Record) :
    Describes classifier (ofRecords classifier startTime endTime skippedLines records) records := by
  induction records using List.reverseRecOn with
  | nil => exact Describes.start startTime endTime skippedLines
  | append_singleton records record ih =>
      rw [ofRecords, List.foldl_append]
      exact ih.snoc record

theorem totalOperations_eq_length {classifier : Classifier} {summary : Summary}
    {records : List Record} (h : Describes classifier summary records) :
    summary.totalOperations = records.length := by
  have hsum : summary.totalOperations =
      (summary.ranks.toList.map fun entry => entry.2.total).sum := by
    rw [List.sum_eq_foldl, List.foldl_map]
    rfl
  have hcount : ∀ entry ∈ summary.ranks.toList,
      entry.2.total = (records.map Record.rank).count entry.1 := by
    rintro ⟨rank, count⟩ hentry
    have hrank := h.ranks rank
    rw [Std.TreeMap.mem_toList_iff_getElem?_eq_some.mp hentry] at hrank
    split at hrank
    · cases hrank
    · rw [Option.some.inj hrank, total_countOf, recordsOf, ← List.countP_eq_length_filter,
        List.count_eq_countP, List.countP_map]
      rfl
  have hkeys : summary.ranks.keys.Perm (records.map Record.rank).dedup := by
    rw [List.perm_ext_iff_of_nodup Std.TreeMap.nodup_keys (List.nodup_dedup _)]
    intro rank
    rw [Std.TreeMap.mem_keys, h.mem_ranks, List.mem_dedup, List.mem_map]
  rw [hsum, List.map_congr_left hcount, ← Function.comp_def ((records.map Record.rank).count ·),
    ← List.map_map, Std.TreeMap.map_fst_toList_eq_keys, (hkeys.map _).sum_eq,
    List.sum_map_count_dedup_eq_length, List.length_map]

end Trace.Summary

/-! ## The events of a run -/

/-- Opening events in a row of spans are as many as spans. -/
theorem countP_spansOf {α : Type} (first : α → Event) (stop : α → Float) (p : Event → Bool)
    (xs : List α) :
    ((spansOf first stop xs).countP fun event => event.phase = .opens && p event) =
      xs.countP fun a => p { first a with phase := .opens } := by
  induction xs with
  | nil => rfl
  | cons a xs ih =>
      rw [spansOf_cons, List.countP_cons, List.countP_cons, ih, List.countP_cons]
      simp

/-- No cache file is named like the span of a whole run. -/
theorem Trace.baseName_ne_of_isCacheFile {identifier : String}
    (h : isCacheFile identifier = true) : baseName identifier ≠ "Application" := by
  intro hname
  rw [isCacheFile, hname] at h
  exact absurd h (by decide)

section Run

variable {records : List Record} {classifier : Classifier} {start stop : Float}
  {ranks : List UInt32}

/-- Spans that open on a track, by the records and the ranks they stand for. -/
theorem countP_opens_of_run (p : Event → Bool) :
    ((records.flatMap (Record.span ⟨start⟩ classifier) ++
        ranks.flatMap (applicationSpan ⟨start⟩ stop)).countP
          fun event => event.phase = .opens && p event) =
      (records.countP fun record => p (recordOpening start record (baseName record.file))) +
        ranks.countP fun rank => p (runOpening start rank) := by
  rw [Timeline.events_eq_spansOf, List.countP_append, countP_spansOf, countP_spansOf]
  simp only [recordOpening_opens, runOpening_opens]

/-- A condition on events counts the records it picks out, if no whole run meets it. -/
theorem countP_shown {p : Event → Prop} [DecidablePred p] {counted : Record → Bool}
    (hrun : ∀ rank, ¬ p (runOpening start rank))
    (hrecord : ∀ record,
      p (recordOpening start record (baseName record.file)) ↔ counted record = true)
    (rank : UInt32) :
    ((records.flatMap (Record.span ⟨start⟩ classifier) ++
        ranks.flatMap (applicationSpan ⟨start⟩ stop)).countP fun event =>
          event.phase = .opens && decide (event.rank = rank ∧ p event)) =
      (Summary.recordsOf records rank).countP counted := by
  have hruns : (ranks.countP fun r => decide ((runOpening start r).rank = rank ∧
      p (runOpening start r))) = 0 :=
    List.countP_eq_zero.mpr fun r _ => by simp [hrun r]
  rw [countP_opens_of_run fun event => decide (event.rank = rank ∧ p event), hruns, Nat.add_zero,
    Summary.recordsOf, List.countP_filter]
  refine List.countP_congr fun record _ => ?_
  rw [decide_eq_true_eq, hrecord record, Bool.and_eq_true, decide_eq_true_eq]
  exact and_comm

theorem track_recordOpening (record : Record) :
    (recordOpening start record (baseName record.file)).track =
      if isCacheFile record.file = true then 0 else 1 := by
  rw [isCacheFile_eq_of_isLastComponent (isLastComponent_baseName record.file), recordOpening]

/-- Only cache files are drawn on the first track with a name other than that of a whole run. -/
theorem countP_cache (rank : UInt32) :
    ((records.flatMap (Record.span ⟨start⟩ classifier) ++
        ranks.flatMap (applicationSpan ⟨start⟩ stop)).countP fun event =>
          event.phase = .opens && decide (event.rank = rank ∧ event.track = 0 ∧
            event.name ≠ "Application")) =
      (Summary.countOf (Summary.recordsOf records rank)).cache := by
  refine countP_shown (p := fun event => event.track = 0 ∧ event.name ≠ "Application")
    (fun _ h => h.2 rfl) (fun record => ?_) rank
  rw [track_recordOpening]
  cases hcache : isCacheFile record.file with
  | true => exact iff_of_true ⟨rfl, baseName_ne_of_isCacheFile hcache⟩ rfl
  | false => exact iff_of_false (fun h => absurd h.1 (by decide)) Bool.false_ne_true

/-- Only files that are no cache files are drawn on the second track. -/
theorem countP_backend (rank : UInt32) :
    ((records.flatMap (Record.span ⟨start⟩ classifier) ++
        ranks.flatMap (applicationSpan ⟨start⟩ stop)).countP fun event =>
          event.phase = .opens && decide (event.rank = rank ∧ event.track = 1)) =
      (Summary.countOf (Summary.recordsOf records rank)).backend := by
  refine countP_shown (p := fun event => event.track = 1) (fun _ => by simp [runOpening])
    (fun record => ?_) rank
  rw [track_recordOpening]
  cases isCacheFile record.file with
  | true => exact iff_of_false (by decide) (by decide)
  | false => exact iff_of_true rfl rfl

end Run

/-- **The summary agrees with the timeline.** For each rank, the cache operations of the summary are
the spans that open on the first track, those of whole runs aside, and its backend operations are the
spans that open on the second. The ranks of the summary are those of the records, the operations of
all ranks are the records, and these and the ranks of the run make up the events. The unclassified
files are those, by base name, that are neither cache files nor the shared file. -/
theorem Trace.Summary.agrees_with_timeline {records : List Record} {metadata : Metadata}
    {classifier : Classifier} {timeline : Timeline}
    (h : Timeline.ofRecords records metadata classifier = .ok timeline)
    (startTime endTime : Float) (skippedLines : Nat) :
    let summary := Summary.ofRecords classifier startTime endTime skippedLines records
    ∃ processes, metadata.processes = .ok processes ∧
      (∀ rank,
        (timeline.events.countP fun event => event.phase = .opens && decide (event.rank = rank ∧
            event.track = 0 ∧ event.name ≠ "Application")) =
          (summary.ranks[rank]?.getD {}).cache ∧
        (timeline.events.countP fun event => event.phase = .opens && decide (event.rank = rank ∧
            event.track = 1)) =
          (summary.ranks[rank]?.getD {}).backend) ∧
      (∀ rank, rank ∈ summary.ranks ↔ ∃ record ∈ records, record.rank = rank) ∧
      summary.totalOperations = records.length ∧
      timeline.events.length = 2 * summary.totalOperations + 2 * processes.toNat ∧
      ∀ name, name ∈ summary.unclassifiedFiles ↔
        ∃ record ∈ records, isCacheFile record.file = false ∧ IsLastComponent record.file name ∧
          classifier.primaryFile ≠ some name := by
  intro summary
  obtain ⟨start, stop, processes, -, -, -, hprocesses, hevents⟩ :=
    Timeline.ofRecords_eq_ok_iff.mp h
  have hsummary := describes_ofRecords classifier startTime endTime skippedLines records
  have htotal := totalOperations_eq_length hsummary
  refine ⟨processes, hprocesses, fun rank => ?_, fun rank => hsummary.mem_ranks, htotal, ?_,
    hsummary.unclassified⟩
  · rw [hevents, countP_cache, countP_backend, hsummary.getD_ranks]
    exact ⟨rfl, rfl⟩
  · rw [htotal, hevents, Timeline.events_eq_spansOf, List.length_append, length_spansOf,
      length_spansOf, length_ranksBelow]

/-- Four records of two ranks, of which one is no rank of the run, and two are on a file that is
named like the span of a whole run: that span is counted for no layer, the records are. -/
theorem summary_of_mixed_run :
    let cached : Record :=
      { ioModule := "X_POSIX", file := "/nvme/a.h5-cache/mmap-0.dat", rank := 0
        operation := "write", segment := 0, offset := 0, length := 1024
        start := 0.5, stop := 0.75 }
    let shared : Record := { cached with file := "/lustre/a.h5", rank := 7 }
    let other : Record := { cached with file := "/tmp/Application" }
    let metadata : Metadata :=
      ((({} : Metadata).insert "start_time" "100.0").insert "end_time" "110").insert "nprocs" "2"
    let summary := Summary.ofRecords ⟨some "a.h5"⟩ 100 110 0 [cached, other, shared, other]
    ∃ timeline,
      Timeline.ofRecords [cached, other, shared, other] metadata ⟨some "a.h5"⟩ = .ok timeline ∧
      (timeline.events.countP fun event => event.phase = .opens && decide (event.rank = 0 ∧
        event.track = 0 ∧ event.name ≠ "Application")) = 1 ∧
      (timeline.events.countP fun event => event.phase = .opens && decide (event.rank = 0 ∧
        event.track = 1)) = 2 ∧
      timeline.events.length = 12 ∧ 7 ∈ summary.ranks ∧ 1 ∉ summary.ranks ∧
      "Application" ∈ summary.unclassifiedFiles ∧ "a.h5" ∉ summary.unclassifiedFiles := by
  intro cached shared other metadata summary
  have hok : (Timeline.ofRecords [cached, other, shared, other] metadata
      ⟨some "a.h5"⟩).toOption.isSome = true := by decide +kernel
  cases h : Timeline.ofRecords [cached, other, shared, other] metadata ⟨some "a.h5"⟩ with
  | error fault =>
      rw [h] at hok
      cases hok
  | ok timeline =>
      obtain ⟨processes, hprocesses, hcounts, hranks, htotal, hlength, hunclassified⟩ :=
        Summary.agrees_with_timeline h 100 110 0
      have htwo : metadata.processes.toOption = some 2 := by decide +kernel
      obtain rfl : processes = 2 := by simpa [hprocesses, Except.toOption] using htwo
      refine ⟨timeline, rfl, (hcounts 0).1.trans (by decide +kernel),
        (hcounts 0).2.trans (by decide +kernel), ?_, ?_, ?_, ?_, ?_⟩
      · rw [hlength, htotal]
        rfl
      · exact (hranks 7).mpr ⟨shared, by simp, rfl⟩
      · rw [hranks 1]
        simp [cached, shared, other]
      · refine (hunclassified "Application").mpr ⟨other, by simp, by decide +kernel, ?_, by decide⟩
        exact ⟨by decide, .inr ⟨"/tmp", by decide⟩⟩
      · rw [hunclassified "a.h5"]
        rintro ⟨record, -, -, -, hprimary⟩
        exact hprimary rfl

end TraceTimeline
