import TraceTimeline.Proofs.Trace.BaseName
import TraceTimeline.Proofs.Trace.LineKind

/-!
# The file that an identifier tells of

A file in a cache directory stands in for the shared file that the directory is named after, and a
shared file stands for itself. What the search for a piece of text comes to is said without
searching: the text is cut at the first place where the piece occurs. Main statement: the shared file
of an identifier is the one that the naming of caches and shared files says it is.
-/

namespace TraceTimeline

namespace Text

variable {piece s front after : List Char}

/-- The text is `front`, the piece and `after`, and the piece occurs nowhere before. -/
def CutsFirst (piece s front after : List Char) : Prop :=
  s = front ++ piece ++ after ∧
    ∀ front' after', s = front' ++ piece ++ after' → front.length ≤ front'.length

theorem CutsFirst.unique {front' after' : List Char} (h : CutsFirst piece s front after)
    (h' : CutsFirst piece s front' after') : front = front' ∧ after = after' := by
  have hlength : front.length = front'.length :=
    Nat.le_antisymm (h.2 front' after' h'.1) (h'.2 front after h.1)
  have heq := h.1.symm.trans h'.1
  rw [List.append_assoc, List.append_assoc] at heq
  obtain ⟨hfront, hafter⟩ := List.append_inj heq hlength
  exact ⟨hfront, List.append_cancel_left hafter⟩

theorem cutsFirst_of_cut (h : cut piece s = some (front, after)) :
    CutsFirst piece s front after := by
  refine ⟨eq_of_cut h, ?_⟩
  induction s generalizing front with
  | nil =>
      have hempty : front = [] ∧ piece = [] ∧ after = [] := by simpa using (eq_of_cut h).symm
      rw [hempty.1]
      exact fun _ _ _ => Nat.zero_le _
  | cons c s ih =>
      rw [cut] at h
      by_cases hp : piece.isPrefixOf (c :: s) = true
      · rw [if_pos hp] at h
        obtain ⟨rfl, -⟩ := Prod.mk.inj (Option.some.inj h)
        exact fun _ _ _ => Nat.zero_le _
      · rw [if_neg hp] at h
        obtain ⟨⟨front, after⟩, hcut, heq⟩ := Option.map_eq_some_iff.mp h
        obtain ⟨rfl, rfl⟩ := Prod.mk.inj heq
        intro front' after' hs
        cases front' with
        | nil => exact absurd (List.isPrefixOf_iff_prefix.mpr ⟨after', hs.symm⟩) hp
        | cons d front' => exact Nat.succ_le_succ (ih hcut front' after' (List.cons.inj hs).2)

/-- **The search cuts a text at the first place where the piece occurs.** -/
theorem cut_eq_some_iff : cut piece s = some (front, after) ↔ CutsFirst piece s front after := by
  refine ⟨cutsFirst_of_cut, fun h => ?_⟩
  have hcontains : contains piece s = true := contains_iff_infix.mpr ⟨front, after, h.1.symm⟩
  obtain ⟨⟨front', after'⟩, hcut⟩ := Option.isSome_iff_exists.mp hcontains
  obtain ⟨rfl, rfl⟩ := h.unique (cutsFirst_of_cut hcut)
  exact hcut

/-- `front` is what stands before the first place where the piece occurs, and everything if there is
no such place. -/
def IsBefore (piece s front : List Char) : Prop :=
  (∃ after, CutsFirst piece s front after) ∨ ¬ piece <:+: s ∧ front = s

theorem before_eq_iff : before piece s = front ↔ IsBefore piece s front := by
  rw [before, IsBefore, ← contains_iff_infix, contains]
  cases hcut : cut piece s with
  | none =>
      refine ⟨fun h => .inr ⟨Bool.false_ne_true, h.symm⟩, ?_⟩
      rintro (⟨after, h⟩ | ⟨-, rfl⟩)
      · rw [cut_eq_some_iff.mpr h] at hcut
        cases hcut
      · rfl
  | some parts =>
      obtain ⟨front', after'⟩ := parts
      constructor
      · rintro rfl
        exact .inl ⟨after', cut_eq_some_iff.mp hcut⟩
      · rintro (⟨after, h⟩ | ⟨hnone, -⟩)
        · exact ((cutsFirst_of_cut hcut).unique h).1
        · exact absurd rfl hnone

theorem IsBefore.isPrefix (h : IsBefore piece s front) : front <+: s := by
  rcases h with ⟨after, rfl, -⟩ | ⟨-, rfl⟩
  · rw [List.append_assoc]
    exact List.prefix_append _ _
  · exact List.prefix_rfl

end Text

namespace Trace

/-! ## The component in front of the last one -/

def IsParentComponent (identifier parent : String) : Prop :=
  ∃ directory last, identifier = directory ++ "/" ++ last ∧ '/' ∉ last.toList ∧
    IsLastComponent directory parent

theorem IsParentComponent.isInfix {identifier parent : String}
    (h : IsParentComponent identifier parent) :
    '/' ∉ parent.toList ∧ parent.toList <:+: identifier.toList := by
  obtain ⟨directory, last, rfl, -, hparent⟩ := h
  refine ⟨hparent.1, ?_⟩
  rw [String.toList_append, String.toList_append, List.append_assoc]
  exact hparent.isSuffix.isInfix.trans (List.prefix_append _ _).isInfix

theorem parentName_append {last : String} (directory : String) (h : '/' ∉ last.toList) :
    parentName (directory ++ "/" ++ last) = baseName directory := by
  have hs : (directory ++ "/" ++ last).toList = directory.toList ++ '/' :: last.toList := by simp
  rw [parentName, hs, List.splitOn_append_cons_self, List.splitOn_eq_singleton h,
    List.dropLast_concat]
  rfl

theorem parentName_eq_of_isParentComponent {identifier parent : String}
    (h : IsParentComponent identifier parent) : parentName identifier = parent := by
  obtain ⟨directory, last, rfl, hlast, hparent⟩ := h
  rw [parentName_append directory hlast, baseName_eq_of_isLastComponent hparent]

theorem isParentComponent_parentName {identifier : String} (h : '/' ∈ identifier.toList) :
    IsParentComponent identifier (parentName identifier) := by
  obtain ⟨front, back, hs, hback⟩ := Text.exists_last_separator h
  have hlast : '/' ∉ (String.ofList back).toList := by rwa [String.toList_ofList]
  have hidentifier : identifier = String.ofList front ++ "/" ++ String.ofList back := by
    rw [← String.toList_inj]
    simp [hs]
  refine ⟨String.ofList front, String.ofList back, hidentifier, hlast, ?_⟩
  rw [hidentifier, parentName_append _ hlast]
  exact isLastComponent_baseName _

/-! ## Shared files -/

/-- The shared file that an identifier tells of. Of a file in a cache directory it is what stands in
front of the first `-cache` in the name of the directory, unless that is nothing; of any other
identifier that ends like a shared file it is the last component. -/
inductive TellsOf (identifier name : String) : Prop
  | cached {parent : String} : "-cache/mmap-".toList <:+: identifier.toList →
      IsParentComponent identifier parent →
      Text.IsBefore "-cache".toList parent.toList name.toList → name ≠ "" → TellsOf identifier name
  | shared : ¬ "-cache/mmap-".toList <:+: identifier.toList → "h5".toList <:+ identifier.toList →
      IsLastComponent identifier name → TellsOf identifier name

theorem cacheMarker_eq : cacheMarker = "-cache/mmap-".toList := by
  decide

theorem mem_slash_of_cacheMarker {s : List Char} (h : cacheMarker <:+: s) : '/' ∈ s :=
  h.subset (by decide)

theorem sharedFile?_of_cached {identifier name : String}
    (h : cacheMarker <:+: identifier.toList) :
    sharedFile? identifier = some name ↔
      name ≠ "" ∧ Text.before cacheDirectoryBack (parentName identifier).toList = name.toList := by
  unfold sharedFile?
  rw [if_pos (Text.contains_iff_infix.mpr h)]
  generalize Text.before cacheDirectoryBack (parentName identifier).toList = front
  show (if front.isEmpty = true then none else some (String.ofList front)) = some name ↔ _
  rw [Option.ite_none_left_eq_some, List.isEmpty_iff, Option.some_inj]
  constructor
  · rintro ⟨hne, rfl⟩
    exact ⟨fun h => hne (String.ofList_eq_empty_iff.mp h), String.toList_ofList.symm⟩
  · rintro ⟨hne, rfl⟩
    exact ⟨fun h => hne (String.toList_eq_nil_iff.mp h), String.ofList_toList⟩

theorem sharedFile?_of_not_cached {identifier name : String}
    (h : ¬ cacheMarker <:+: identifier.toList) :
    sharedFile? identifier = some name ↔
      sharedBack <:+ identifier.toList ∧ baseName identifier = name := by
  unfold sharedFile?
  rw [if_neg (mt Text.contains_iff_infix.mp h), Option.ite_none_right_eq_some,
    List.isSuffixOf_iff_suffix, Option.some_inj]

/-- **The shared file of an identifier is the one it tells of.** -/
theorem sharedFile?_eq_some_iff {identifier name : String} :
    sharedFile? identifier = some name ↔ TellsOf identifier name := by
  by_cases hcached : cacheMarker <:+: identifier.toList
  · have hmarker := cacheMarker_eq ▸ hcached
    rw [sharedFile?_of_cached hcached]
    constructor
    · rintro ⟨hne, hname⟩
      exact .cached hmarker (isParentComponent_parentName (mem_slash_of_cacheMarker hcached))
        (Text.before_eq_iff.mp hname) hne
    · intro h
      cases h with
      | cached _ hparent hbefore hne =>
          rw [parentName_eq_of_isParentComponent hparent]
          exact ⟨hne, Text.before_eq_iff.mpr hbefore⟩
      | shared hnone => exact absurd hmarker hnone
  · have hnone := cacheMarker_eq ▸ hcached
    rw [sharedFile?_of_not_cached hcached, ← isLastComponent_iff]
    constructor
    · rintro ⟨hback, hname⟩
      exact .shared hnone hback hname
    · intro h
      cases h with
      | cached hmarker => exact absurd hmarker hnone
      | shared _ hback hname => exact ⟨hback, hname⟩

end Trace
end TraceTimeline
