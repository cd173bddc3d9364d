import TraceTimeline.Proofs.Number.Grammar
import TraceTimeline.Proofs.Trace.FirstFault
import TraceTimeline.Timeline.Spans

/-!
# Which runs have a timeline

A timeline is made with three entries of a run: when it began, when it ended, and how many ranks it
had. Each has to be there and to be a number of its kind, blanks around it aside, and the run must
not end before it begins. Main statement: a run has a timeline unless something is wrong with these
entries, and then the first fault is reported. Nothing else has a say in that, neither the records
nor the other entries.
-/

namespace TraceTimeline

open Trace Number

namespace Trace

inductive Requirement where
  | start
  | stop
  | processes
  deriving DecidableEq, Repr

def IsSeconds (value : String) (x : Float) : Prop :=
  ∃ text, Text.Encloses value.toList text ∧ FloatText text x ∧ x.isFinite = true

def IsProcesses (value : String) (n : UInt32) : Prop :=
  ∃ text, Text.Encloses value.toList text ∧ NaturalText text n.toNat ∧ n.toNat ≤ 4194304

namespace Requirement

def key : Requirement → String
  | start => "start_time"
  | stop => "end_time"
  | processes => "nprocs"

/-- When an entry is looked for. Its value is looked at right after it, and the order of the two times
before the number of ranks. -/
def turn : Requirement → Nat
  | start => 0
  | stop => 2
  | processes => 5

def Admits (required : Requirement) (value : String) : Prop :=
  match required with
  | start | stop => ∃ x, IsSeconds value x
  | processes => ∃ n, IsProcesses value n

theorem turn_injective {required other : Requirement} (h : required.turn = other.turn) :
    required = other := by
  cases required <;> cases other <;> first | rfl | cases h

theorem turn_ne_succ (required other : Requirement) : required.turn ≠ other.turn + 1 := by
  cases required <;> cases other <;> decide

end Requirement

/-- What is wrong with the entries of a run, and when it is looked for. -/
inductive Metadata.HasFault (metadata : Metadata) : Nat → MetadataError → Prop
  | missing {required : Requirement} : metadata.get? required.key = none →
      HasFault metadata required.turn (.missing required.key)
  | invalid {required : Requirement} {value : String} : metadata.get? required.key = some value →
      ¬ required.Admits value → HasFault metadata (required.turn + 1) (.invalid required.key value)
  | endBeforeStart {start stop : String} {x y : Float} :
      metadata.get? Requirement.start.key = some start →
      metadata.get? Requirement.stop.key = some stop → IsSeconds start x → IsSeconds stop y →
      y < x → HasFault metadata 4 (.invalid Requirement.stop.key stop)

theorem isSeconds_iff {value : String} {x : Float} :
    (float? (String.ofList (Text.trim value.toList))).filter Float.isFinite = some x ↔
      IsSeconds value x := by
  rw [Option.filter_eq_some_iff, float?_eq_some_iff, String.toList_ofList]
  exact Text.trim_iff_exists_encloses (p := fun text => FloatText text x ∧ x.isFinite = true)
    fun _ h => h.1.isWord h.2

theorem isProcesses_iff {value : String} {n : UInt32} :
    (uint32? (String.ofList (Text.trim value.toList))).filter (· ≤ Metadata.greatestProcesses) =
      some n ↔ IsProcesses value n := by
  rw [Option.filter_eq_some_iff, uint32?_eq_some_iff, String.toList_ofList, decide_eq_true_eq,
    UInt32.le_iff_toNat_le]
  exact Text.trim_iff_exists_encloses
    (p := fun text => NaturalText text n.toNat ∧ n.toNat ≤ 4194304) fun _ h => h.1.isWord

theorem IsSeconds.unique {value : String} {x y : Float} (h : IsSeconds value x)
    (h' : IsSeconds value y) : x = y :=
  Option.some.inj ((isSeconds_iff.mpr h).symm.trans (isSeconds_iff.mpr h'))

/-! ## What is found at each turn -/

namespace Metadata.HasFault

variable {metadata : Metadata} {fault : MetadataError} {required : Requirement}

theorem at_key (h : metadata.HasFault required.turn fault) :
    metadata.get? required.key = none ∧ fault = .missing required.key := by
  generalize hturn : required.turn = turn at h
  cases h with
  | missing hnone =>
      obtain rfl := Requirement.turn_injective hturn
      exact ⟨hnone, rfl⟩
  | @invalid other => exact absurd hturn (required.turn_ne_succ other)
  | endBeforeStart => cases required <;> cases hturn

theorem at_value (h : metadata.HasFault (required.turn + 1) fault) :
    ∃ value, metadata.get? required.key = some value ∧ ¬ required.Admits value ∧
      fault = .invalid required.key value := by
  generalize hturn : required.turn + 1 = turn at h
  cases h with
  | @missing other => exact absurd hturn.symm (other.turn_ne_succ required)
  | invalid hvalue hadmits =>
      obtain rfl := Requirement.turn_injective (Nat.succ.inj hturn)
      exact ⟨_, hvalue, hadmits, rfl⟩
  | endBeforeStart => cases required <;> cases hturn

theorem at_times (h : metadata.HasFault 4 fault) :
    ∃ start stop x y, metadata.get? Requirement.start.key = some start ∧
      metadata.get? Requirement.stop.key = some stop ∧ IsSeconds start x ∧ IsSeconds stop y ∧
      y < x ∧ fault = .invalid Requirement.stop.key stop := by
  generalize hturn : 4 = turn at h
  cases h with
  | @missing required => cases required <;> cases hturn
  | @invalid required => cases required <;> cases hturn
  | endBeforeStart hstart hstop hx hy hlt => exact ⟨_, _, _, _, hstart, hstop, hx, hy, hlt, rfl⟩

theorem turn_lt {turn : Nat} (h : metadata.HasFault turn fault) : turn < 7 := by
  cases h with
  | @missing required => cases required <;> decide
  | @invalid required => cases required <;> decide
  | endBeforeStart => decide

/-- At each turn there is one thing at most to be found. -/
theorem unique {turn : Nat} {other : MetadataError} (h : metadata.HasFault turn fault)
    (h' : metadata.HasFault turn other) : fault = other := by
  cases h with
  | missing => exact h'.at_key.2.symm
  | invalid hvalue =>
      obtain ⟨value', hvalue', -, rfl⟩ := h'.at_value
      rw [Option.some.inj (hvalue.symm.trans hvalue')]
  | endBeforeStart _ hstop =>
      obtain ⟨_, stop', _, _, _, hstop', -, -, -, rfl⟩ := h'.at_times
      rw [Option.some.inj (hstop.symm.trans hstop')]

/-- Faults are a matter of the required entries alone. -/
theorem congr {other : Metadata} {turn : Nat} (h : metadata.HasFault turn fault)
    (hsame : ∀ required : Requirement, other.get? required.key = metadata.get? required.key) :
    other.HasFault turn fault := by
  cases h with
  | missing hnone => exact .missing ((hsame _).trans hnone)
  | invalid hvalue hadmits => exact .invalid ((hsame _).trans hvalue) hadmits
  | endBeforeStart hstart hstop hx hy hlt =>
      exact .endBeforeStart ((hsame _).trans hstart) ((hsame _).trans hstop) hx hy hlt

end Metadata.HasFault

/-! ## Reading the entries -/

/-- An entry is looked at by looking its key up and reading its value. -/
theorem Metadata.checks_read {α : Type} (metadata : Metadata) (required : Requirement)
    {read? : String → Option α} {Holds : String → α → Prop}
    (hread : ∀ value a, read? (String.ofList (Text.trim value.toList)) = some a ↔ Holds value a)
    (hadmits : ∀ value, required.Admits value ↔ ∃ a, Holds value a) :
    Checks metadata.HasFault required.turn (required.turn + 2) (metadata.read read? required.key)
      (fun a => ∃ value, metadata.get? required.key = some value ∧ Holds value a) := by
  have hrequire : Checks metadata.HasFault required.turn (required.turn + 1)
      (metadata.require required.key) (fun value => metadata.get? required.key = some value) := by
    unfold Metadata.require
    cases hvalue : metadata.get? required.key with
    | none =>
        refine Checks.single nofun ?_
        rintro _ ⟨⟩
        exact .missing hvalue
    | some value =>
        refine Checks.single ?_ nofun
        rintro _ ⟨⟩
        exact ⟨fun fault hfault => Option.some_ne_none _ (hvalue.symm.trans hfault.at_key.1), rfl⟩
  refine hrequire.bind (fun value hvalue => ?_) (Nat.le_succ _) (Nat.le_succ _)
  cases ha : read? (String.ofList (Text.trim value.toList)) with
  | none =>
      refine Checks.single nofun ?_
      rintro _ ⟨⟩
      refine .invalid hvalue fun hadmitted => ?_
      obtain ⟨a, hholds⟩ := (hadmits value).mp hadmitted
      exact nomatch ha.symm.trans ((hread value a).mpr hholds)
  | some a =>
      have hholds : Holds value a := (hread value a).mp ha
      refine Checks.single ?_ nofun
      rintro _ ⟨⟩
      refine ⟨fun fault hfault => ?_, value, hvalue, hholds⟩
      obtain ⟨value', hvalue', hrefused, -⟩ := hfault.at_value
      obtain rfl := Option.some.inj (hvalue.symm.trans hvalue')
      exact hrefused ((hadmits value).mpr ⟨a, hholds⟩)

theorem Metadata.checks_startTime (metadata : Metadata) :
    Checks metadata.HasFault 0 2 metadata.startTime (fun x =>
      ∃ value, metadata.get? Requirement.start.key = some value ∧ IsSeconds value x) :=
  @metadata.checks_read Float .start (fun s => (float? s).filter Float.isFinite) IsSeconds
    (fun _ _ => isSeconds_iff) fun _ => Iff.rfl

theorem Metadata.checks_endTime (metadata : Metadata) :
    Checks metadata.HasFault 2 4 metadata.endTime (fun x =>
      ∃ value, metadata.get? Requirement.stop.key = some value ∧ IsSeconds value x) :=
  @metadata.checks_read Float .stop (fun s => (float? s).filter Float.isFinite) IsSeconds
    (fun _ _ => isSeconds_iff) fun _ => Iff.rfl

theorem Metadata.checks_processes (metadata : Metadata) :
    Checks metadata.HasFault 5 7 metadata.processes (fun n =>
      ∃ value, metadata.get? Requirement.processes.key = some value ∧ IsProcesses value n) :=
  @metadata.checks_read UInt32 .processes
    (fun s => (uint32? s).filter (· ≤ Metadata.greatestProcesses)) IsProcesses
    (fun _ _ => isProcesses_iff) fun _ => Iff.rfl

end Trace

theorem Trace.Metadata.read_congr {α : Type} {metadata metadata' : Metadata} {key : String}
    (hsame : metadata'.get? key = metadata.get? key) (read? : String → Option α) :
    metadata'.read read? key = metadata.read read? key := by
  rw [Metadata.read, Metadata.read, Metadata.require, Metadata.require, hsame]

/-- Of the metadata only the required entries show in a timeline. -/
theorem Timeline.ofRecords_congr {metadata metadata' : Metadata}
    (hsame : ∀ required : Requirement, metadata'.get? required.key = metadata.get? required.key)
    (records : List Record) (classifier : Classifier) :
    Timeline.ofRecords records metadata' classifier =
      Timeline.ofRecords records metadata classifier := by
  have hstart : metadata'.get? Metadata.startKey = metadata.get? Metadata.startKey := hsame .start
  have hstop : metadata'.get? Metadata.endKey = metadata.get? Metadata.endKey := hsame .stop
  have hprocesses : metadata'.get? Metadata.processesKey = metadata.get? Metadata.processesKey :=
    hsame .processes
  unfold Timeline.ofRecords Metadata.startTime Metadata.endTime Metadata.processes Metadata.seconds
  rw [Metadata.read_congr hstart, Metadata.read_congr hstop, Metadata.read_congr hprocesses, hstop]

/-- Making a timeline makes all checks of the entries. -/
theorem Timeline.checks_ofRecords (records : List Record) (metadata : Metadata)
    (classifier : Classifier) :
    Checks metadata.HasFault 0 7 (Timeline.ofRecords records metadata classifier)
      (fun _ => True) := by
  unfold Timeline.ofRecords
  refine metadata.checks_startTime.bind (fun x hx => ?_) (by decide) (by decide)
  obtain ⟨start, hstart, hx⟩ := hx
  refine metadata.checks_endTime.bind (fun y hy => ?_) (by decide) (by decide)
  obtain ⟨stop, hstop, hy⟩ := hy
  have hvalue : (metadata.get? Metadata.endKey).getD "" = stop := by
    rw [show metadata.get? Metadata.endKey = some stop from hstop]
    rfl
  rw [hvalue]
  refine Checks.orThrow (fun hlt => .endBeforeStart hstart hstop hx hy hlt)
    (fun hle fault hfault => ?_) (fun _ => ?_) (by decide)
  · obtain ⟨start', stop', x', y', hstart', hstop', hx', hy', hlt, -⟩ := hfault.at_times
    obtain rfl := Option.some.inj (hstart.symm.trans hstart')
    obtain rfl := Option.some.inj (hstop.symm.trans hstop')
    rw [hx.unique hx', hy.unique hy'] at hle
    exact hle hlt
  · refine metadata.checks_processes.bind (fun processes _ => ?_) (by decide) (by decide)
    exact Checks.pure trivial

/-- **When there is no timeline, and why.** Making a timeline fails exactly if something is wrong with
the entries that it needs, and with the first fault: no start or one that is no number of seconds, the
same of the end, an end before the start, and no number of ranks or one that is none or too large. What
is reported of a value is the value as it was written. With the same three entries it fails with the
same fault or succeeds, whatever the records, the other entries and the shared file may be. -/
theorem Timeline.ofRecords_error_iff (records : List Record) (metadata : Metadata)
    (classifier : Classifier) :
    (∀ fault, Timeline.ofRecords records metadata classifier = .error fault ↔
      FoundFirst metadata.HasFault fault) ∧
    ((∃ timeline, Timeline.ofRecords records metadata classifier = .ok timeline) ↔
      ∀ turn fault, ¬ metadata.HasFault turn fault) ∧
    ∀ records' metadata' classifier',
      (∀ required : Requirement, metadata'.get? required.key = metadata.get? required.key) →
      (∀ fault, Timeline.ofRecords records' metadata' classifier' = .error fault ↔
        Timeline.ofRecords records metadata classifier = .error fault) ∧
      ((∃ timeline, Timeline.ofRecords records' metadata' classifier' = .ok timeline) ↔
        ∃ timeline, Timeline.ofRecords records metadata classifier = .ok timeline) := by
  have herror : ∀ records metadata classifier fault,
      Timeline.ofRecords records metadata classifier = .error fault ↔
        FoundFirst metadata.HasFault fault := fun records metadata classifier fault =>
    (checks_ofRecords records metadata classifier).eq_error_iff (fun _ _ => Metadata.HasFault.turn_lt)
      fun _ _ _ => Metadata.HasFault.unique
  have hok : ∀ records metadata classifier,
      (∃ timeline, Timeline.ofRecords records metadata classifier = .ok timeline) ↔
        ∀ turn fault, ¬ metadata.HasFault turn fault := fun records metadata classifier =>
    (checks_ofRecords records metadata classifier).exists_ok_iff fun _ _ => Metadata.HasFault.turn_lt
  refine ⟨herror records metadata classifier, hok records metadata classifier,
    fun records' metadata' classifier' hsame => ?_⟩
  have hfaults : metadata'.HasFault = metadata.HasFault := by
    funext turn fault
    exact propext ⟨fun h => h.congr fun required => (hsame required).symm, fun h => h.congr hsame⟩
  refine ⟨fun fault => ?_, ?_⟩
  · rw [herror, herror, hfaults]
  · rw [hok, hok, hfaults]

/-- The end is missing and the number of ranks too large: what is reported is the end, also where
there are records and other entries. -/
theorem timeline_without_end :
    let metadata := (({} : Metadata).insert "start_time" " 1e2 ").insert "nprocs" "4194305"
    let record : Record :=
      { ioModule := "X_POSIX", file := "/lustre/a.h5", rank := 0
        operation := "write", segment := 0, offset := 0, length := 1024
        start := 0.5, stop := 0.75 }
    FoundFirst metadata.HasFault (.missing "end_time") ∧
      Timeline.ofRecords [record] (metadata.insert "exe" "./a") ⟨some "a.h5"⟩ =
        .error (.missing "end_time") := by
  intro metadata record
  obtain ⟨hfault, -, hsame⟩ := Timeline.ofRecords_error_iff [] metadata ⟨none⟩
  have hmissing : Timeline.ofRecords [] metadata ⟨none⟩ = .error (.missing "end_time") := by
    have herror : (match Timeline.ofRecords [] metadata ⟨none⟩ with
        | .ok _ => none
        | .error fault => some fault) = some (.missing "end_time") := by decide +kernel
    split at herror
    · cases herror
    · rename_i hfault
      rw [hfault, Option.some.inj herror]
  refine ⟨(hfault _).mp hmissing, ((hsame _ _ _ fun required => ?_).1 _).mpr hmissing⟩
  cases required <;> decide +kernel

end TraceTimeline
