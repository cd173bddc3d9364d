import TraceTimeline.Proofs.Number.Grammar
import TraceTimeline.Proofs.Trace.FirstFault
import TraceTimeline.Trace.Record

/-!
# Data lines

A data line is a record if its first eight words fit their columns and its times are in order. Where
something is wrong with it, several things may be, and the line is refused for the one that is looked
at first: the number of words, the two times, their order, and then the whole numbers from left to
right. Main statement: a line is read as the record that the grammar says it holds, and otherwise
refused for the first fault.
-/

namespace TraceTimeline.Trace

open Number

def HasFields (line : String) (fields : List String) : Prop :=
  Text.HasWords line.toList (fields.map String.toList)

theorem hasFields_iff {line : String} {fields : List String} :
    HasFields line fields ↔ Record.columns line = fields := by
  rw [HasFields, Text.hasWords_iff, Record.columns]
  constructor
  · intro h
    rw [h, List.map_map]
    exact List.map_id'' (fun _ => String.ofList_toList) fields
  · rintro rfl
    rw [List.map_map]
    exact (List.map_id'' (fun _ => String.toList_ofList) _).symm

/-- The field of a line at a place, counted from zero. -/
def IsField (line : String) (place : Nat) (text : String) : Prop :=
  ∃ fields, HasFields line fields ∧ fields[place]? = some text

theorem isField_iff {line : String} {place : Nat} {text : String} :
    IsField line place text ↔ (Record.columns line)[place]? = some text := by
  simp only [IsField, hasFields_iff, exists_eq_left']

def IsTime (text : String) (x : Float) : Prop :=
  FloatText text.toList x ∧ x.isFinite = true

theorem filter_float?_eq_some_iff {text : String} {x : Float} :
    (float? text).filter Float.isFinite = some x ↔ IsTime text x := by
  rw [Option.filter_eq_some_iff, float?_eq_some_iff, IsTime]

namespace Column

def place : Column → Nat
  | rank => 1
  | segment => 3
  | offset => 4
  | length => 5
  | start => 6
  | stop => 7

/-- When a column is looked at. The number of fields comes before all columns, and the order of the
times comes right after them. -/
def turn : Column → Nat
  | start => 1
  | stop => 2
  | rank => 4
  | segment => 5
  | offset => 6
  | length => 7

def Admits (column : Column) (text : String) : Prop :=
  match column with
  | rank => ∃ n : UInt32, NaturalText text.toList n.toNat
  | segment | offset | length => ∃ n : UInt64, NaturalText text.toList n.toNat
  | start | stop => ∃ x, IsTime text x

def fault (column : Column) (text : String) : LineFault :=
  match column with
  | rank | segment | offset | length => .invalidInteger column text
  | start | stop => .invalidNumber column text

theorem turn_injective {column other : Column} (h : column.turn = other.turn) : column = other := by
  cases column <;> cases other <;> first | rfl | cases h

end Column

/-- The record on a line, apart from the file that its section names. -/
def Record.IsOn (line : String) (record : Record) : Prop :=
  ∃ rank segment offset length start stop more,
    HasFields line (record.ioModule :: rank :: record.operation :: segment :: offset :: length ::
      start :: stop :: more) ∧
    NaturalText rank.toList record.rank.toNat ∧
    NaturalText segment.toList record.segment.toNat ∧
    NaturalText offset.toList record.offset.toNat ∧
    NaturalText length.toList record.length.toNat ∧
    IsTime start record.start ∧ IsTime stop record.stop ∧ ¬ record.stop < record.start

/-- What is wrong with a line, and when it is looked for. -/
inductive HasFault (line : String) : Nat → LineFault → Prop
  | tooFewFields {fields : List String} : HasFields line fields → fields.length < 8 →
      HasFault line 0 (.tooFewFields fields.length)
  | notAdmitted {column : Column} {text : String} : IsField line column.place text →
      ¬ column.Admits text → HasFault line column.turn (column.fault text)
  | endBeforeStart {start stop : String} {x y : Float} : IsField line Column.start.place start →
      IsField line Column.stop.place stop → IsTime start x → IsTime stop y → y < x →
      HasFault line 3 (.endBeforeStart x y)

/-! ## What is found at each turn -/

namespace HasFault

variable {line : String} {fault other : LineFault}

theorem at_fields (h : HasFault line 0 fault) :
    ∃ fields, HasFields line fields ∧ fields.length < 8 ∧ fault = .tooFewFields fields.length := by
  generalize hturn : 0 = turn at h
  cases h with
  | tooFewFields hfields hlt => exact ⟨_, hfields, hlt, rfl⟩
  | @notAdmitted column => cases column <;> cases hturn
  | endBeforeStart => cases hturn

theorem at_column {column : Column} (h : HasFault line column.turn fault) :
    ∃ text, IsField line column.place text ∧ ¬ column.Admits text ∧ fault = column.fault text := by
  generalize hturn : column.turn = turn at h
  cases h with
  | tooFewFields => cases column <;> cases hturn
  | notAdmitted hfield hadmits =>
      obtain rfl := Column.turn_injective hturn
      exact ⟨_, hfield, hadmits, rfl⟩
  | endBeforeStart => cases column <;> cases hturn

theorem at_times (h : HasFault line 3 fault) :
    ∃ start stop x y, IsField line Column.start.place start ∧ IsField line Column.stop.place stop ∧
      IsTime start x ∧ IsTime stop y ∧ y < x ∧ fault = .endBeforeStart x y := by
  generalize hturn : 3 = turn at h
  cases h with
  | tooFewFields => cases hturn
  | @notAdmitted column => cases column <;> cases hturn
  | endBeforeStart hstart hstop hx hy hlt => exact ⟨_, _, _, _, hstart, hstop, hx, hy, hlt, rfl⟩

theorem turn_lt {turn : Nat} (h : HasFault line turn fault) : turn < 8 := by
  cases h with
  | tooFewFields => decide
  | @notAdmitted column => cases column <;> decide
  | endBeforeStart => decide

end HasFault

theorem HasFields.unique {line : String} {fields fields' : List String} (h : HasFields line fields)
    (h' : HasFields line fields') : fields = fields' :=
  (hasFields_iff.mp h).symm.trans (hasFields_iff.mp h')

theorem IsField.unique {line text text' : String} {place : Nat} (h : IsField line place text)
    (h' : IsField line place text') : text = text' :=
  Option.some.inj ((isField_iff.mp h).symm.trans (isField_iff.mp h'))

theorem IsTime.unique {text : String} {x y : Float} (h : IsTime text x) (h' : IsTime text y) :
    x = y :=
  Option.some.inj ((filter_float?_eq_some_iff.mpr h).symm.trans (filter_float?_eq_some_iff.mpr h'))

/-- At each turn there is one thing at most to be found. -/
theorem HasFault.unique {line : String} {turn : Nat} {fault other : LineFault}
    (h : HasFault line turn fault) (h' : HasFault line turn other) : fault = other := by
  cases h with
  | tooFewFields hfields hlt =>
      obtain ⟨fields', hfields', -, rfl⟩ := h'.at_fields
      rw [hfields.unique hfields']
  | notAdmitted hfield hadmits =>
      obtain ⟨text', hfield', -, rfl⟩ := h'.at_column
      rw [hfield.unique hfield']
  | endBeforeStart hstart hstop hx hy hlt =>
      obtain ⟨start', stop', x', y', hstart', hstop', hx', hy', -, rfl⟩ := h'.at_times
      obtain rfl := hstart.unique hstart'
      obtain rfl := hstop.unique hstop'
      rw [hx.unique hx', hy.unique hy']

/-! ## Reading a line -/

theorem Record.time_eq_ok_iff {column : Column} {text : String} {x : Float} :
    Record.time column text = .ok x ↔ IsTime text x := by
  rw [← filter_float?_eq_some_iff, Record.time]
  cases (float? text).filter Float.isFinite <;> simp

theorem Record.integer_eq_ok_iff {α : Type} {read? : String → Option α} {column : Column}
    {text : String} {n : α} : Record.integer read? column text = .ok n ↔ read? text = some n := by
  rw [Record.integer]
  cases read? text <;> simp

/-- A column is looked at by reading it. -/
theorem checks_column {α : Type} {line text : String} {column : Column}
    {program : Except LineFault α} {Holds : α → Prop} (hfield : IsField line column.place text)
    (hadmits : column.Admits text ↔ ∃ a, Holds a) (hok : ∀ a, program = .ok a ↔ Holds a)
    (herror : ∀ fault, program = .error fault → fault = column.fault text) :
    Checks (HasFault line) column.turn (column.turn + 1) program Holds := by
  refine Checks.single (fun a ha => ⟨fun fault hfault => ?_, (hok a).mp ha⟩) fun fault hfault => ?_
  · obtain ⟨text', hfield', hrefused, -⟩ := hfault.at_column
    obtain rfl := hfield.unique hfield'
    exact hrefused (hadmits.mpr ⟨a, (hok a).mp ha⟩)
  · obtain rfl := herror fault hfault
    refine .notAdmitted hfield fun hadmitted => ?_
    obtain ⟨a, ha⟩ := hadmits.mp hadmitted
    exact nomatch hfault.symm.trans ((hok a).mpr ha)

theorem checks_time {line text : String} {column : Column}
    (hfield : IsField line column.place text) (hadmits : column.Admits text ↔ ∃ x, IsTime text x)
    (hfault : column.fault text = .invalidNumber column text) :
    Checks (HasFault line) column.turn (column.turn + 1) (Record.time column text)
      (IsTime text) := by
  refine checks_column hfield hadmits (fun _ => Record.time_eq_ok_iff) fun fault h => ?_
  rw [hfault]
  unfold Record.time at h
  split at h
  · cases h
  · exact (Except.error.inj h).symm

theorem checks_integer {α : Type} {line text : String} {read? : String → Option α}
    {Holds : α → Prop} {column : Column} (hfield : IsField line column.place text)
    (hadmits : column.Admits text ↔ ∃ n, Holds n) (hread : ∀ n, read? text = some n ↔ Holds n)
    (hfault : column.fault text = .invalidInteger column text) :
    Checks (HasFault line) column.turn (column.turn + 1) (Record.integer read? column text)
      Holds := by
  refine checks_column hfield hadmits (fun n => Record.integer_eq_ok_iff.trans (hread n))
    fun fault h => ?_
  rw [hfault]
  unfold Record.integer at h
  split at h
  · cases h
  · exact (Except.error.inj h).symm

/-- Reading a line makes all its checks, and a line that passes them holds the record that is read. -/
theorem checks_ofLine (line file : String) :
    Checks (HasFault line) 0 8 (Record.ofLine line file)
      (fun record => record.IsOn line ∧ record.file = file) := by
  unfold Record.ofLine
  split
  · rename_i ioModule rank operation segment offset length start stop more hcolumns
    have hfields := hasFields_iff.mpr hcolumns
    have hfield : ∀ place text, (ioModule :: rank :: operation :: segment :: offset :: length ::
        start :: stop :: more)[place]? = some text → IsField line place text := fun place text h =>
      ⟨_, hfields, h⟩
    have hstart : IsField line Column.start.place start := hfield 6 start rfl
    have hstop : IsField line Column.stop.place stop := hfield 7 stop rfl
    have hrank : IsField line Column.rank.place rank := hfield 1 rank rfl
    have hsegment : IsField line Column.segment.place segment := hfield 3 segment rfl
    have hoffset : IsField line Column.offset.place offset := hfield 4 offset rfl
    have hlength : IsField line Column.length.place length := hfield 5 length rfl
    -- Turn 0 asks for eight fields; the turns behind it follow the order of the reads.
    have hpassed : ∀ fault, ¬ HasFault line 0 fault := by
      intro fault hfault
      obtain ⟨fields', hfields', hlt, -⟩ := hfault.at_fields
      rw [← hfields.unique hfields'] at hlt
      simp only [List.length_cons] at hlt
      omega
    refine Checks.after (passes_succ hpassed) ?_ (Nat.zero_le 1)
    refine (checks_time hstart Iff.rfl rfl).bind (fun x hx => ?_) (by decide) (by decide)
    refine (checks_time hstop Iff.rfl rfl).bind (fun y hy => ?_) (by decide) (by decide)
    refine Checks.orThrow (fun hlt => .endBeforeStart hstart hstop hx hy hlt)
      (fun hle fault hfault => ?_) (fun hle => ?_) (by decide)
    · obtain ⟨start', stop', x', y', hstart', hstop', hx', hy', hlt, -⟩ := hfault.at_times
      obtain rfl := hstart.unique hstart'
      obtain rfl := hstop.unique hstop'
      rw [hx.unique hx', hy.unique hy'] at hle
      exact hle hlt
    · refine (checks_integer hrank Iff.rfl (fun _ => uint32?_eq_some_iff) rfl).bind
        (fun _ hrank => ?_) (by decide) (by decide)
      refine (checks_integer hsegment Iff.rfl (fun _ => uint64?_eq_some_iff) rfl).bind
        (fun _ hsegment => ?_) (by decide) (by decide)
      refine (checks_integer hoffset Iff.rfl (fun _ => uint64?_eq_some_iff) rfl).bind
        (fun _ hoffset => ?_) (by decide) (by decide)
      refine (checks_integer hlength Iff.rfl (fun _ => uint64?_eq_some_iff) rfl).bind
        (fun _ hlength => ?_) (by decide) (by decide)
      exact Checks.pure ⟨⟨rank, segment, offset, length, start, stop, more, hfields, hrank,
        hsegment, hoffset, hlength, hx, hy, hle⟩, rfl⟩
  · rename_i hshort
    have hlt : (Record.columns line).length < 8 := by
      rcases hcolumns : Record.columns line with _ | ⟨a, _ | ⟨b, _ | ⟨c, _ | ⟨d, _ | ⟨e, _ | ⟨f, _ |
        ⟨g, _ | ⟨h, more⟩⟩⟩⟩⟩⟩⟩⟩
      case cons.cons.cons.cons.cons.cons.cons.cons =>
        exact absurd hcolumns (hshort a b c d e f g h more)
      all_goals simp
    refine ⟨nofun, ?_⟩
    rintro _ ⟨⟩
    exact ⟨0, Nat.le_refl 0, by decide, .tooFewFields (hasFields_iff.mpr rfl) hlt,
      fun _ _ _ hlt => absurd hlt (Nat.not_lt_zero _)⟩

/-- A line with a record on it is read as that record. -/
theorem Record.IsOn.ofLine_eq {line : String} {record : Record} (h : record.IsOn line) :
    Record.ofLine line record.file = .ok record := by
  obtain ⟨rank, segment, offset, length, start, stop, more, hfields, hrank, hsegment, hoffset,
    hlength, hstart, hstop, hle⟩ := h
  rw [Record.ofLine, hasFields_iff.mp hfields]
  simp only [time_eq_ok_iff.mpr hstart, time_eq_ok_iff.mpr hstop,
    integer_eq_ok_iff.mpr (uint32?_eq_some_iff.mpr hrank),
    integer_eq_ok_iff.mpr (uint64?_eq_some_iff.mpr hsegment),
    integer_eq_ok_iff.mpr (uint64?_eq_some_iff.mpr hoffset),
    integer_eq_ok_iff.mpr (uint64?_eq_some_iff.mpr hlength)]
  show (if record.stop < record.start then _ else _) = _
  rw [if_neg hle]
  rfl

/-- **Which lines are records.** A line is read as a record exactly if it holds that record: eight
fields or more, of which the second is a whole number of 32 bits, the fourth to sixth are whole
numbers of 64 bits, the seventh and eighth are finite times in order, and the other two are taken as
they are. Every other line is refused for what is found first: too few fields, a time that is none,
times out of order, or a whole number that is none, of several the one furthest to the left. -/
theorem Record.ofLine_iff (line file : String) :
    (∀ record, Record.ofLine line file = .ok record ↔ record.IsOn line ∧ record.file = file) ∧
      ∀ fault, Record.ofLine line file = .error fault ↔ FoundFirst (HasFault line) fault := by
  have hchecks := checks_ofLine line file
  refine ⟨fun record => ⟨fun h => (hchecks.of_ok record h).2, ?_⟩, fun fault =>
    hchecks.eq_error_iff (fun _ _ => HasFault.turn_lt) fun _ _ _ => HasFault.unique⟩
  rintro ⟨hrecord, rfl⟩
  exact hrecord.ofLine_eq

end TraceTimeline.Trace
