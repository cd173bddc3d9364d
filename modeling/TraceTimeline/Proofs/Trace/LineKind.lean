import TraceTimeline.Trace.Line
import TraceTimeline.Trace.Record

/-!
# Kinds of lines

Whether a line is blank, a section header or a column header is a matter of its text alone. These
three are the boundaries of a trace: after one of them it is settled anew whether data lines follow.
Every other line is told apart by the block it stands in. Main statement: `classify` returns the
kind that these predicates say.
-/

namespace TraceTimeline

namespace Text

/-- The search finds a piece of text exactly where there is one. -/
theorem contains_iff_infix {piece s : List Char} : contains piece s = true ↔ piece <:+: s := by
  constructor
  · intro h
    obtain ⟨⟨front, after⟩, hc⟩ := Option.isSome_iff_exists.mp h
    exact ⟨front, after, (eq_of_cut hc).symm⟩
  · intro h
    induction s with
    | nil =>
        have hp : piece = [] := List.eq_nil_of_infix_nil h
        subst hp
        rfl
    | cons c s ih =>
        rw [contains, cut]
        by_cases hp : piece.isPrefixOf (c :: s) = true
        · rw [if_pos hp]
          rfl
        · rw [if_neg hp, Option.isSome_map]
          rcases List.infix_cons_iff.mp h with h | h
          · exact absurd (List.isPrefixOf_iff_prefix.mpr h) hp
          · exact ih h

end Text

namespace Trace

def IsBlankLine (line : String) : Prop :=
  ∀ c ∈ line.toList, Text.isBlank c = true

def IsSectionHeader (line : String) : Prop :=
  Line.sectionMarker <:+: line.toList

/-- A line with the mark of column headers that is no section header: where a line has both marks,
it is a section header. -/
def IsColumnHeader (line : String) : Prop :=
  ¬ IsSectionHeader line ∧ Line.columnMarker <:+: line.toList

/-- A line that settles whether data lines follow. -/
def IsBoundary (line : String) : Prop :=
  IsBlankLine line ∨ IsSectionHeader line ∨ IsColumnHeader line

theorem isBlankLine_iff {line : String} :
    IsBlankLine line ↔ Text.isBlankLine line.toList = true := by
  rw [Text.isBlankLine, List.all_eq_true]
  rfl

instance (line : String) : Decidable (IsBlankLine line) :=
  decidable_of_iff (Text.isBlankLine line.toList = true) isBlankLine_iff.symm

instance (line : String) : Decidable (IsSectionHeader line) :=
  decidable_of_iff (Text.contains Line.sectionMarker line.toList = true) Text.contains_iff_infix

instance (line : String) : Decidable (IsColumnHeader line) :=
  decidable_of_iff
    (¬ IsSectionHeader line ∧ Text.contains Line.columnMarker line.toList = true)
    (and_congr_right fun _ => Text.contains_iff_infix)

instance (line : String) : Decidable (IsBoundary line) :=
  inferInstanceAs (Decidable (_ ∨ _ ∨ _))

def sixthWord? (line : String) : Option String :=
  (Record.columns line)[5]?

/-- A blank line has no marks, since every mark holds a letter. -/
theorem not_isSectionHeader_of_isBlankLine {line : String} (h : IsBlankLine line) :
    ¬ IsSectionHeader line := by
  intro hs
  have hD : Text.isBlank 'D' = true := h 'D' (hs.subset (by decide))
  exact absurd hD (by decide)

theorem not_isColumnHeader_of_isBlankLine {line : String} (h : IsBlankLine line) :
    ¬ IsColumnHeader line := by
  rintro ⟨_, hc⟩
  have hM : Text.isBlank 'M' = true := h 'M' (hc.subset (by decide))
  exact absurd hM (by decide)

theorem not_isColumnHeader_of_isSectionHeader {line : String} (h : IsSectionHeader line) :
    ¬ IsColumnHeader line :=
  fun hc => hc.1 h

theorem not_isBoundary_iff {line : String} :
    ¬ IsBoundary line ↔ ¬ IsBlankLine line ∧ ¬ Line.sectionMarker <:+: line.toList ∧
      ¬ Line.columnMarker <:+: line.toList := by
  rw [IsBoundary, not_or, not_or]
  refine and_congr_right fun _ => and_congr_right fun hs => ?_
  rw [IsColumnHeader, not_and]
  exact ⟨fun h => h hs, fun h _ => h⟩

/-! ## `classify` returns the kind of a line -/

theorem classify_of_isBlankLine {line : String} (h : IsBlankLine line) (block : Block) :
    Line.classify line block = .blank := by
  rw [Line.classify.eq_def]
  exact if_pos (isBlankLine_iff.mp h)

theorem classify_of_isSectionHeader {line : String} (h : IsSectionHeader line) (block : Block) :
    Line.classify line block = .sectionHeader (sixthWord? line) := by
  have hb : ¬ Text.isBlankLine line.toList = true := fun hb =>
    not_isSectionHeader_of_isBlankLine (isBlankLine_iff.mpr hb) h
  rw [Line.classify.eq_def]
  refine (if_neg hb).trans ((if_pos (Text.contains_iff_infix.mpr h)).trans ?_)
  rw [sixthWord?, Record.columns, List.getElem?_map]
  rfl

theorem classify_of_isColumnHeader {line : String} (h : IsColumnHeader line) (block : Block) :
    Line.classify line block = .columnHeader := by
  have hb : ¬ Text.isBlankLine line.toList = true := fun hb =>
    not_isColumnHeader_of_isBlankLine (isBlankLine_iff.mpr hb) h
  have hs : ¬ Text.contains Line.sectionMarker line.toList = true := fun hs =>
    h.1 (Text.contains_iff_infix.mp hs)
  rw [Line.classify.eq_def]
  exact (if_neg hb).trans ((if_neg hs).trans (if_pos (Text.contains_iff_infix.mpr h.2)))

/-- A boundary is a boundary in every block, neither data nor metadata. -/
theorem classify_ne_of_isBoundary {line : String} (h : IsBoundary line) (block : Block) :
    Line.classify line block ≠ .data ∧
      ∀ key value, Line.classify line block ≠ .metadata key value := by
  rcases h with hb | hs | hc
  · rw [classify_of_isBlankLine hb]
    exact ⟨nofun, nofun⟩
  · rw [classify_of_isSectionHeader hs]
    exact ⟨nofun, nofun⟩
  · rw [classify_of_isColumnHeader hc]
    exact ⟨nofun, nofun⟩

/-- What the block decides about a line that is no boundary. -/
theorem classify_of_not_isBoundary {line : String} (h : ¬ IsBoundary line) (block : Block) :
    Line.classify line block =
      match block with
      | .inside => .data
      | .outside =>
        match Line.keyValue? line.toList with
        | some (key, value) => .metadata key value
        | none => .ignored := by
  have hb : ¬ Text.isBlankLine line.toList = true := fun hb =>
    h (Or.inl (isBlankLine_iff.mpr hb))
  have hs : ¬ Text.contains Line.sectionMarker line.toList = true := fun hs =>
    h (Or.inr (Or.inl (Text.contains_iff_infix.mp hs)))
  have hc : ¬ Text.contains Line.columnMarker line.toList = true := fun hc =>
    h (Or.inr (Or.inr ⟨fun hs' => hs (Text.contains_iff_infix.mpr hs'),
      Text.contains_iff_infix.mp hc⟩))
  rw [Line.classify.eq_def]
  exact (if_neg hb).trans ((if_neg hs).trans (if_neg hc))

end Trace
end TraceTimeline
