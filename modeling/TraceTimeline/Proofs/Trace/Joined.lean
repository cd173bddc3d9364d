import TraceTimeline.Proofs.Trace.Description

/-!
# Traces joined at a section header

A section header ends the block in front of it and settles anew which file is current, even one that
names no file. So the lines from a header on contribute the same whatever stands above them. Main
statement: a trace that is joined to one beginning with a section header has the records and the
diagnostics of both, one after the other, and says about its run what the second says, and otherwise
what the first does.
-/

namespace TraceTimeline.Trace

def BeginsSection (lines : List String) : Prop :=
  ∃ header rest, lines = header :: rest ∧ IsSectionHeader header

variable {front earlier rest : List String} {line : String}

theorem BeginsSection.of_isPrefix (h : BeginsSection rest) (hline : earlier ++ [line] <+: rest) :
    BeginsSection (earlier ++ [line]) := by
  obtain ⟨header, more, rfl, hheader⟩ := h
  cases earlier with
  | nil =>
      obtain ⟨rfl, -⟩ := List.cons_prefix_cons.mp hline
      exact ⟨line, [], rfl, hheader⟩
  | cons first earlier =>
      obtain ⟨rfl, -⟩ := List.cons_prefix_cons.mp hline
      exact ⟨first, earlier ++ [line], rfl, hheader⟩

/-- Above a line that is no section header itself there is the one that the lines begin with. -/
theorem BeginsSection.of_snoc (h : BeginsSection (earlier ++ [line]))
    (hline : ¬ IsSectionHeader line) : BeginsSection earlier := by
  obtain ⟨header, more, heq, hheader⟩ := h
  cases earlier with
  | nil =>
      obtain ⟨rfl, -⟩ := List.cons.inj heq
      exact absurd hheader hline
  | cons first earlier =>
      obtain ⟨rfl, -⟩ := List.cons.inj heq
      exact ⟨first, earlier, rfl, hheader⟩

/-! ## What a header screens off -/

theorem last?_append (p : String → Prop) [DecidablePred p] (front rest : List String) :
    last? p (front ++ rest) = (last? p rest).or (last? p front) := by
  rw [last?, List.reverse_append, List.find?_append]
  rfl

/-- Where the lines begin with one that has the property, no line above them is the last. -/
theorem BeginsSection.last?_append {p : String → Prop} [DecidablePred p]
    (hp : ∀ header, IsSectionHeader header → p header) (h : BeginsSection rest)
    (front : List String) : last? p (front ++ rest) = last? p rest := by
  obtain ⟨header, more, rfl, hheader⟩ := h
  have hsome : (last? p (header :: more)).isSome = true := by
    rw [last?, List.find?_isSome]
    exact ⟨header, by simp, by simpa using hp header hheader⟩
  rw [Trace.last?_append, Option.or_of_isSome hsome]

theorem BeginsSection.inBlock_append_iff (h : BeginsSection rest) (front : List String) :
    InBlock (front ++ rest) ↔ InBlock rest := by
  have hlast : last? IsBoundary (front ++ rest) = last? IsBoundary rest :=
    h.last?_append (fun _ hheader => Or.inr (Or.inl hheader)) front
  rw [InBlock, hlast]
  rfl

theorem BeginsSection.file?_append (h : BeginsSection rest) (front : List String) :
    file? (front ++ rest) = file? rest := by
  rw [file?, h.last?_append (fun _ hheader => hheader) front]
  rfl

theorem BeginsSection.isData_append_iff (h : BeginsSection (earlier ++ [line]))
    (front : List String) : IsData (front ++ earlier) line ↔ IsData earlier line := by
  refine and_congr_right fun _ => and_congr_right fun hline => and_congr_right fun _ => ?_
  exact (h.of_snoc hline).inBlock_append_iff front

/-- Whatever is made of a data line and its file, the lines above the first header do not count. -/
theorem BeginsSection.ite_isData_append {α : Type} (h : BeginsSection (earlier ++ [line]))
    (front : List String) (read : Option String → α) (other : α) :
    (if IsData (front ++ earlier) line then read (file? (front ++ earlier)) else other) =
      if IsData earlier line then read (file? earlier) else other := by
  by_cases hd : IsData earlier line
  · rw [if_pos hd, if_pos ((h.isData_append_iff front).mpr hd),
      (h.of_snoc hd.2.1).file?_append front]
  · rw [if_neg hd, if_neg (mt (h.isData_append_iff front).mp hd)]

theorem BeginsSection.record?_append (h : BeginsSection (earlier ++ [line]))
    (front : List String) : record? (front ++ earlier) line = record? earlier line :=
  h.ite_isData_append front (fun file => dataRecord? file line) none

theorem BeginsSection.fault?_append (h : BeginsSection (earlier ++ [line]))
    (front : List String) : fault? (front ++ earlier) line = fault? earlier line := by
  rw [fault?, fault?, h.ite_isData_append front fun file => dataFault? file line]

theorem BeginsSection.isEntry_append_iff (h : BeginsSection (earlier ++ [line]))
    (front : List String) {key value : String} :
    IsEntry (front ++ earlier) line key value ↔ IsEntry earlier line key value := by
  rw [isEntry_iff, isEntry_iff]
  refine and_congr_right fun hline => and_congr_left fun _ => not_congr ?_
  exact (h.of_snoc fun hheader => hline (Or.inr (Or.inl hheader))).inBlock_append_iff front

/-! ## Going along joined lines -/

/-- Where the lines below are made the same of with and without those above, going along all of them
is going along one part after the other. -/
theorem along_append {α : Type} {f g : Nat → List String → String → Option α}
    {front rest : List String}
    (h : ∀ earlier line, earlier ++ [line] <+: rest →
      f (front.length + earlier.length) (front ++ earlier) line = g earlier.length earlier line) :
    along f (front ++ rest) = along f front ++ along g rest := by
  induction rest using List.reverseRecOn with
  | nil => simp [along]
  | append_singleton rest line ih =>
      have hlast := h rest line List.prefix_rfl
      have hrest := ih fun earlier line hline => h earlier line (hline.trans (List.prefix_append _ _))
      rw [← List.append_assoc, along_snoc, along_snoc, hrest, List.length_append, hlast,
        List.append_assoc]

theorem map_along {α β : Type} (f : Nat → List String → String → Option α) (g : α → β)
    (lines : List String) :
    (along f lines).map g = along (fun i earlier line => (f i earlier line).map g) lines :=
  List.map_filterMap

def Diagnostic.down (lines : Nat) (diagnostic : Diagnostic) : Diagnostic :=
  { diagnostic with line := lines + diagnostic.line }

theorem BeginsSection.recordsOn_append (h : BeginsSection rest) (front : List String) :
    recordsOn (front ++ rest) = recordsOn front ++ recordsOn rest :=
  along_append fun _ _ hline => (h.of_isPrefix hline).record?_append front

theorem BeginsSection.diagnosticsOn_append (h : BeginsSection rest) (front : List String) :
    diagnosticsOn (front ++ rest) =
      diagnosticsOn front ++ (diagnosticsOn rest).map (Diagnostic.down front.length) := by
  rw [diagnosticsOn, diagnosticsOn, diagnosticsOn, map_along]
  refine along_append fun earlier line hline => ?_
  rw [(h.of_isPrefix hline).fault?_append front, Option.map_map]
  rfl

/-- What a scan remembers of joined lines is the last word of the second part if that has any, and
otherwise the last word of the first. -/
theorem remembered_append {α : Type} {gives : List String → String → α → Prop}
    (remembered : Scan → Option α) (hstart : remembered {} = none)
    (hstep : ∀ lines line a, remembered ((lines.foldl Scan.step {}).step line) = some a ↔
      gives lines line a ∨
        (∀ b, ¬ gives lines line b) ∧ remembered (lines.foldl Scan.step {}) = some a)
    (h : ∀ earlier line a, earlier ++ [line] <+: rest →
      (gives (front ++ earlier) line a ↔ gives earlier line a)) :
    remembered ((front ++ rest).foldl Scan.step {}) =
      (remembered (rest.foldl Scan.step {})).or (remembered (front.foldl Scan.step {})) := by
  induction rest using List.reverseRecOn with
  | nil => rw [List.append_nil, List.foldl_nil, hstart, Option.none_or]
  | append_singleton rest line ih =>
      have hrest := ih fun earlier line a hline =>
        h earlier line a (hline.trans (List.prefix_append _ _))
      have hlast : ∀ a, gives (front ++ rest) line a ↔ gives rest line a :=
        fun a => h rest line a List.prefix_rfl
      have hwhole : (front ++ (rest ++ [line])).foldl Scan.step {} =
          ((front ++ rest).foldl Scan.step {}).step line := by
        rw [← List.append_assoc, List.foldl_append]
        rfl
      have hpart : (rest ++ [line]).foldl Scan.step {} = (rest.foldl Scan.step {}).step line := by
        rw [List.foldl_append]
        rfl
      rw [hwhole, hpart]
      -- The last line says something in both readings, or leaves both as they were.
      by_cases hgives : ∃ a, gives rest line a
      · obtain ⟨a, ha⟩ := hgives
        rw [(hstep _ line a).mpr (.inl ((hlast a).mpr ha)), (hstep _ line a).mpr (.inl ha)]
        rfl
      · have hnone : ∀ a, ¬ gives rest line a := not_exists.mp hgives
        have hkept : ∀ lines, (∀ a, ¬ gives lines line a) →
            remembered ((lines.foldl Scan.step {}).step line) =
              remembered (lines.foldl Scan.step {}) := by
          intro lines hfree
          ext a
          rw [hstep, or_iff_right (hfree a), and_iff_right hfree]
        rw [hkept _ fun a => mt (hlast a).mp (hnone a), hkept rest hnone, hrest]

/-! ## The joined trace -/

/-- **A trace is read section by section.** Behind a section header, with or without a file in it,
the lines mean what they mean in a trace of their own. So the records of joined traces are those of
the first and then those of the second; so are the diagnostics, those of the second standing as many
lines further down as the first has lines; and a key has the value that the second gives it, if it
does, and otherwise that of the first, and so has the shared file. -/
theorem ofLines_append {header : String} (h : IsSectionHeader header)
    (front rest : List String) :
    let first := ofLines front
    let second := ofLines (header :: rest)
    let whole := ofLines (front ++ header :: rest)
    whole.records = first.records ++ second.records ∧
      whole.diagnostics =
        first.diagnostics ++ second.diagnostics.map (Diagnostic.down front.length) ∧
      (∀ key, whole.metadata.get? key =
        (second.metadata.get? key).or (first.metadata.get? key)) ∧
      whole.metadata.primaryFile = second.metadata.primaryFile.or first.metadata.primaryFile := by
  intro first second whole
  have hbegins : BeginsSection (header :: rest) := ⟨header, rest, rfl, h⟩
  have hfirst := recalls_foldl front
  have hsecond := recalls_foldl (header :: rest)
  have hwhole := recalls_foldl (front ++ header :: rest)
  refine ⟨?_, ?_, fun key => ?_, ?_⟩
  · show (Scan.records _).toList = (Scan.records _).toList ++ (Scan.records _).toList
    rw [hwhole.records, hfirst.records, hsecond.records, hbegins.recordsOn_append]
  · show (Scan.diagnostics _).toList = (Scan.diagnostics _).toList ++ (Scan.diagnostics _).toList.map _
    rw [hwhole.diagnostics, hfirst.diagnostics, hsecond.diagnostics, hbegins.diagnosticsOn_append]
  · exact remembered_append (fun scan => scan.metadata.get? key) Std.TreeMap.getElem?_emptyc
      (fun lines _ _ => (recalls_foldl lines).step_get?)
      fun _ _ _ hline => (hbegins.of_isPrefix hline).isEntry_append_iff front
  · exact remembered_append (fun scan => scan.metadata.primaryFile) rfl
      (fun _ _ _ => Scan.step_primaryFile) fun _ _ _ _ => Iff.rfl

/-- A header that names no file leaves nothing of the section above: the data line below it belongs to
no file, although the trace in front ends within a block. -/
theorem joined_at_nameless_header :
    let front := ["# nprocs: 1", "# exe: a", "# DXT, file_id: 1, file_name: /a/b.h5", "# Module Rank"]
    let header := "# DXT, file_id: 2,"
    let rest := ["# nprocs: 2", "# Module Rank", "X_POSIX 0 write 0 0 8 0.25 0.5"]
    let whole := ofLines (front ++ header :: rest)
    IsSectionHeader header ∧ whole.records = [] ∧ whole.diagnostics.map Diagnostic.line = [5, 8] ∧
      whole.metadata.get? "nprocs" = some "2" ∧ whole.metadata.get? "exe" = some "a" ∧
      whole.metadata.primaryFile = some "b.h5" := by
  intro front header rest whole
  have hheader : IsSectionHeader header := by decide +kernel
  obtain ⟨hrecords, hdiagnostics, hkeys, hfile⟩ := ofLines_append hheader front rest
  refine ⟨hheader, ?_, ?_, ?_, ?_, ?_⟩
  · rw [hrecords, List.append_eq_nil_iff, ← List.isEmpty_iff, ← List.isEmpty_iff]
    decide +kernel
  · rw [hdiagnostics]
    decide +kernel
  · rw [hkeys]
    decide +kernel
  · rw [hkeys]
    decide +kernel
  · rw [hfile]
    decide +kernel

end TraceTimeline.Trace
