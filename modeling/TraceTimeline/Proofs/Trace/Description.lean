import TraceTimeline.Proofs.Trace.DataLine
import TraceTimeline.Proofs.Trace.History
import TraceTimeline.Proofs.Trace.SharedFile
import Mathlib.Data.Finset.Card
import Mathlib.Data.List.Infix

/-!
# What a trace says about its run

A trace describes its run in two ways, and in both the last word counts. Lines `# key: value` outside
of blocks set the value of a key, and section headers tell of the shared file; a header that tells of
none leaves the one that was told of before. Main statement: which lines set a key, and what the
metadata of a trace are, said by its lines.
-/

namespace TraceTimeline.Trace

section LastGives

variable {α : Type} {gives : List String → String → α → Prop} {lines : List String} {line : String}
variable {a : α}

/-- `a` is given on these lines, and no line further down gives anything. What a line gives may hang
on the lines in front of it. -/
def LastGives (gives : List String → String → α → Prop) (lines : List String) (a : α) : Prop :=
  ∃ front line, front ++ [line] <+: lines ∧ gives front line a ∧
    ∀ front' line' b, front' ++ [line'] <+: lines → gives front' line' b →
      front'.length ≤ front.length

/-- The next line either has the last word or gives nothing. -/
theorem lastGives_snoc :
    LastGives gives (lines ++ [line]) a ↔
      gives lines line a ∨ (∀ b, ¬ gives lines line b) ∧ LastGives gives lines a := by
  constructor
  · rintro ⟨front, line', hfront, ha, hlast⟩
    rcases List.prefix_concat_iff.mp hfront with heq | hfront
    · obtain ⟨rfl, rfl⟩ := List.append_singleton_inj.mp heq
      exact .inl ha
    · refine .inr ⟨fun b hb => ?_, front, line', hfront, ha, fun front' line'' b hfront' hb => ?_⟩
      · have hle := hlast lines line b List.prefix_rfl hb
        have hlt := hfront.length_le
        rw [List.length_append, List.length_singleton] at hlt
        omega
      · exact hlast front' line'' b (hfront'.trans (List.prefix_append _ _)) hb
  · rintro (ha | ⟨hnone, front, line', hfront, ha, hlast⟩)
    · refine ⟨lines, line, List.prefix_rfl, ha, fun front' line' b hfront' _ => ?_⟩
      have hle := hfront'.length_le
      rw [List.length_append, List.length_append] at hle
      exact Nat.le_of_succ_le_succ hle
    · refine ⟨front, line', hfront.trans (List.prefix_append _ _), ha,
        fun front' line'' b hfront' hb => ?_⟩
      rcases List.prefix_concat_iff.mp hfront' with heq | hfront'
      · obtain ⟨rfl, rfl⟩ := List.append_singleton_inj.mp heq
        exact absurd hb (hnone b)
      · exact hlast front' line'' b hfront' hb

/-- There is a last word as soon as there is any. -/
theorem exists_lastGives_iff :
    (∃ a, LastGives gives lines a) ↔
      ∃ front line a, front ++ [line] <+: lines ∧ gives front line a := by
  refine ⟨fun ⟨a, front, line, hfront, ha, _⟩ => ⟨front, line, a, hfront, ha⟩, ?_⟩
  induction lines using List.reverseRecOn with
  | nil =>
      rintro ⟨front, line, -, hfront, -⟩
      exact absurd (List.prefix_nil.mp hfront) (by simp)
  | append_singleton lines line ih =>
      rintro ⟨front, line', a, hfront, ha⟩
      by_cases hlast : ∃ b, gives lines line b
      · obtain ⟨b, hb⟩ := hlast
        exact ⟨b, lastGives_snoc.mpr (.inl hb)⟩
      · have hnone : ∀ b, ¬ gives lines line b := not_exists.mp hlast
        rcases List.prefix_concat_iff.mp hfront with heq | hfront
        · obtain ⟨rfl, rfl⟩ := List.append_singleton_inj.mp heq
          exact absurd ha (hnone a)
        · obtain ⟨b, hb⟩ := ih ⟨front, line', a, hfront, ha⟩
          exact ⟨b, lastGives_snoc.mpr (.inr ⟨hnone, hb⟩)⟩

/-- What a scan remembers is the last word, if it has nothing to remember at first and each line
replaces what it remembers by what the line gives, if that is anything. -/
theorem lastGives_of_step {remembered : Scan → Option α} (hstart : remembered {} = none)
    (hstep : ∀ lines line a, remembered ((lines.foldl Scan.step {}).step line) = some a ↔
      gives lines line a ∨
        (∀ b, ¬ gives lines line b) ∧ remembered (lines.foldl Scan.step {}) = some a) :
    remembered (lines.foldl Scan.step {}) = some a ↔ LastGives gives lines a := by
  induction lines using List.reverseRecOn generalizing a with
  | nil =>
      rw [List.foldl_nil, hstart]
      refine ⟨nofun, fun ⟨front, line, hfront, _⟩ => ?_⟩
      exact absurd (List.prefix_nil.mp hfront) (by simp)
  | append_singleton lines line ih =>
      rw [List.foldl_append, List.foldl_cons, List.foldl_nil, hstep, ih, lastGives_snoc]

theorem eq_none_iff_of_lastGives {remembered : Option α}
    (h : ∀ a, remembered = some a ↔ LastGives gives lines a) :
    remembered = none ↔ ¬ ∃ front line a, front ++ [line] <+: lines ∧ gives front line a := by
  rw [← exists_lastGives_iff, Option.eq_none_iff_forall_ne_some, not_exists]
  exact forall_congr' fun a => not_congr (h a)

end LastGives

/-! ## Lines that set a key -/

/-- A line that says something about the run: behind `# ` there is a `: `, the line is not blank and
has neither mark, and data lines are not expected. -/
def IsDescription (earlier : List String) (line : String) : Prop :=
  "# ".toList <+: line.toList ∧ ": ".toList <:+: line.toList.drop 2 ∧ ¬ IsBlankLine line ∧
    ¬ Line.sectionMarker <:+: line.toList ∧ ¬ Line.columnMarker <:+: line.toList ∧
    ¬ InBlock earlier

/-- The key reaches from `# ` to the first `: ` behind it, and everything behind that is the value. -/
def IsEntry (earlier : List String) (line key value : String) : Prop :=
  IsDescription earlier line ∧
    Text.CutsFirst ": ".toList (line.toList.drop 2) key.toList value.toList

theorem keyValue?_eq_some_iff {line key value : String} :
    Line.keyValue? line.toList = some (key, value) ↔
      "# ".toList <+: line.toList ∧
        Text.CutsFirst ": ".toList (line.toList.drop 2) key.toList value.toList := by
  unfold Line.keyValue?
  rw [Option.ite_none_right_eq_some, List.isPrefixOf_iff_prefix, Option.map_eq_some_iff]
  refine and_congr_right fun _ => ?_
  rw [← Text.cut_eq_some_iff]
  constructor
  · rintro ⟨⟨front, after⟩, hcut, heq⟩
    obtain ⟨rfl, rfl⟩ := Prod.mk.inj heq
    rw [@String.toList_ofList front, @String.toList_ofList after]
    exact hcut
  · intro hcut
    refine ⟨_, hcut, ?_⟩
    show (String.ofList key.toList, String.ofList value.toList) = _
    rw [String.ofList_toList, String.ofList_toList]

theorem isEntry_iff {earlier : List String} {line key value : String} :
    IsEntry earlier line key value ↔
      ¬ IsBoundary line ∧ ¬ InBlock earlier ∧ Line.keyValue? line.toList = some (key, value) := by
  rw [not_isBoundary_iff, keyValue?_eq_some_iff]
  constructor
  · rintro ⟨⟨hmark, -, hblank, hsection, hcolumn, hblock⟩, hcut⟩
    exact ⟨⟨hblank, hsection, hcolumn⟩, hblock, hmark, hcut⟩
  · rintro ⟨⟨hblank, hsection, hcolumn⟩, hblock, hmark, hcut⟩
    exact ⟨⟨hmark, ⟨_, _, hcut.1.symm⟩, hblank, hsection, hcolumn, hblock⟩, hcut⟩

theorem isDescription_iff {earlier : List String} {line : String} :
    IsDescription earlier line ↔ ∃ key value, IsEntry earlier line key value := by
  refine ⟨fun h => ?_, fun ⟨_, _, h⟩ => h.1⟩
  obtain ⟨⟨front, after⟩, hcut⟩ := Option.isSome_iff_exists.mp (Text.contains_iff_infix.mpr h.2.1)
  refine ⟨String.ofList front, String.ofList after, h, ?_⟩
  rw [@String.toList_ofList front, @String.toList_ofList after]
  exact Text.cutsFirst_of_cut hcut

/-- A line is taken for metadata exactly where it sets a key. -/
theorem Scan.Recalls.classify_eq_metadata_iff {lines : List String} {scan : Scan}
    (h : scan.Recalls lines) {line key value : String} :
    Line.classify line scan.block = .metadata key value ↔ IsEntry lines line key value := by
  rw [isEntry_iff, ← h.block]
  by_cases hboundary : IsBoundary line
  · have hother := (classify_ne_of_isBoundary hboundary scan.block).2 key value
    exact ⟨fun hmetadata => absurd hmetadata hother, fun hentry => absurd hboundary hentry.1⟩
  · rw [classify_of_not_isBoundary hboundary]
    cases scan.block with
    | inside => exact ⟨nofun, fun hentry => absurd rfl hentry.2.1⟩
    | outside =>
        cases Line.keyValue? line.toList with
        | none => simp
        | some entry => simp [hboundary, Prod.ext_iff]

section step

variable {lines : List String} {scan : Scan} {line key value name : String}

theorem Scan.Recalls.step_get? (h : scan.Recalls lines) :
    (scan.step line).metadata.get? key = some value ↔
      IsEntry lines line key value ∨
        (∀ other, ¬ IsEntry lines line key other) ∧ scan.metadata.get? key = some value := by
  simp only [← h.classify_eq_metadata_iff]
  by_cases hmetadata : ∃ key value, Line.classify line scan.block = .metadata key value
  · obtain ⟨key', value', hkind⟩ := hmetadata
    have hstep : (scan.step line).metadata = scan.metadata.insert key' value' := by
      rw [Scan.step, hkind]
      rfl
    rw [hstep, hkind, Metadata.get?_insert]
    by_cases hkey : key' = key
    · simp [hkey]
    · simp [hkey]
  · have hother : ∀ key value, Line.classify line scan.block ≠ .metadata key value :=
      fun key value hkind => hmetadata ⟨key, value, hkind⟩
    rw [Metadata.get?, scan.step_entries_of_ne_metadata line hother]
    simp [hother, Metadata.get?]

/-- The shared file that a line tells of: it is a section header, and its sixth word tells of the
file. -/
def NamesShared (line name : String) : Prop :=
  IsSectionHeader line ∧ ∃ identifier, IsField line 5 identifier ∧ TellsOf identifier name

theorem namesShared_iff :
    NamesShared line name ↔
      IsSectionHeader line ∧ (sixthWord? line).bind sharedFile? = some name := by
  simp only [NamesShared, isField_iff, ← sharedFile?_eq_some_iff, Option.bind_eq_some_iff, sixthWord?]

theorem Scan.step_primaryFile_of_isSectionHeader (h : IsSectionHeader line) :
    (scan.step line).metadata.primaryFile =
      ((sixthWord? line).bind sharedFile?).or scan.metadata.primaryFile := by
  rw [Scan.step, classify_of_isSectionHeader h]
  cases sixthWord? line <;> rfl

theorem Scan.step_primaryFile_of_not_isSectionHeader (h : ¬ IsSectionHeader line) :
    (scan.step line).metadata.primaryFile = scan.metadata.primaryFile := by
  by_cases hb : IsBlankLine line
  · rw [Scan.step, classify_of_isBlankLine hb]
    rfl
  · by_cases hc : IsColumnHeader line
    · rw [Scan.step, classify_of_isColumnHeader hc]
      rfl
    · have hboundary : ¬ IsBoundary line := by
        rintro (hb' | hs | hc')
        exacts [hb hb', h hs, hc hc']
      rw [Scan.step, classify_of_not_isBoundary hboundary]
      cases scan.block with
      | inside => exact congrArg Metadata.primaryFile (Scan.takeData_metadata _ line)
      | outside => cases Line.keyValue? line.toList <;> rfl

theorem Scan.step_primaryFile :
    (scan.step line).metadata.primaryFile = some name ↔
      NamesShared line name ∨
        (∀ other, ¬ NamesShared line other) ∧ scan.metadata.primaryFile = some name := by
  simp only [namesShared_iff]
  by_cases h : IsSectionHeader line
  · rw [Scan.step_primaryFile_of_isSectionHeader h, Option.or_eq_some_iff,
      Option.eq_none_iff_forall_ne_some]
    simp [h]
  · rw [Scan.step_primaryFile_of_not_isSectionHeader h]
    simp [h]

end step

/-! ## All lines -/

/-- The metadata have one entry for each key that has a value. -/
theorem Metadata.exists_keys (metadata : Metadata) :
    ∃ keys : Finset String, (∀ key, key ∈ keys ↔ ∃ value, metadata.get? key = some value) ∧
      metadata.size = keys.card := by
  refine ⟨metadata.entries.keys.toFinset, fun key => ?_, ?_⟩
  · rw [List.mem_toFinset, Std.TreeMap.mem_keys, Std.TreeMap.mem_iff_isSome_getElem?,
      Option.isSome_iff_exists]
    rfl
  · rw [List.toFinset_card_of_nodup Std.TreeMap.nodup_keys, Std.TreeMap.length_keys]
    rfl

/-- **What a trace says about its run is said by its lines.** A line is taken for metadata exactly if
it is a description, and its key and value are those of its entry. The value of a key is the one that
was set last, there are as many entries as keys that are set, and the shared file is the one that the
last header told of which told of any. -/
theorem metadata_ofLines (lines : List String) :
    (∀ front line,
      (∀ key value, Line.classify line (front.foldl Scan.step {}).block = .metadata key value ↔
        IsEntry front line key value) ∧
      (IsDescription front line ↔ ∃ key value, IsEntry front line key value)) ∧
    (∀ key value, (ofLines lines).metadata.get? key = some value ↔
      LastGives (fun front line value => IsEntry front line key value) lines value) ∧
    (∀ key, (ofLines lines).metadata.get? key = none ↔
      ¬ ∃ front line value, front ++ [line] <+: lines ∧ IsEntry front line key value) ∧
    (∃ keys : Finset String,
      (∀ key, key ∈ keys ↔
        ∃ front line value, front ++ [line] <+: lines ∧ IsEntry front line key value) ∧
      (ofLines lines).metadata.size = keys.card) ∧
    (∀ name, (ofLines lines).metadata.primaryFile = some name ↔
      LastGives (fun _ header name => NamesShared header name) lines name) ∧
    ((ofLines lines).metadata.primaryFile = none ↔
      ¬ ∃ header name, header ∈ lines ∧ NamesShared header name) := by
  have hvalue : ∀ key value, (ofLines lines).metadata.get? key = some value ↔
      LastGives (fun front line value => IsEntry front line key value) lines value :=
    fun key value => @lastGives_of_step String _ lines value (fun scan => scan.metadata.get? key)
      Std.TreeMap.getElem?_emptyc fun lines _ _ => (recalls_foldl lines).step_get?
  have hfile : ∀ name, (ofLines lines).metadata.primaryFile = some name ↔
      LastGives (fun _ header name => NamesShared header name) lines name := fun name =>
    @lastGives_of_step String _ lines name (fun scan => scan.metadata.primaryFile) rfl
      fun _ _ _ => Scan.step_primaryFile
  refine ⟨fun front line => ⟨fun _ _ => (recalls_foldl front).classify_eq_metadata_iff,
    isDescription_iff⟩, hvalue, fun key => eq_none_iff_of_lastGives (hvalue key), ?_, hfile, ?_⟩
  · obtain ⟨keys, hkeys, hsize⟩ := (ofLines lines).metadata.exists_keys
    refine ⟨keys, fun key => ?_, hsize⟩
    rw [hkeys, ← exists_lastGives_iff]
    exact exists_congr (hvalue key)
  · rw [eq_none_iff_of_lastGives hfile]
    refine not_congr ⟨?_, ?_⟩
    · rintro ⟨front, header, name, hfront, hname⟩
      exact ⟨header, name, hfront.subset (by simp), hname⟩
    · rintro ⟨header, name, hmem, hname⟩
      obtain ⟨front, back, rfl⟩ := List.append_of_mem hmem
      exact ⟨front, header, name, ⟨back, by simp⟩, hname⟩

end TraceTimeline.Trace
