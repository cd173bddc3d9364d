/-!
# Searching in a text

`cut pattern s` splits `s` around the first place where `pattern` occurs. Everything else that looks
for a piece of text is said through it.
-/

namespace TraceTimeline.Text

/-- What stands before and after the first occurrence of `pattern`, or `none` where there is none. -/
def cut (pattern s : List Char) : Option (List Char × List Char) :=
  if pattern.isPrefixOf s then some ([], s.drop pattern.length)
  else
    match s with
    | [] => none
    | c :: rest => (cut pattern rest).map fun (front, after) => (c :: front, after)

def contains (pattern s : List Char) : Bool :=
  (cut pattern s).isSome

/-- What stands before the first occurrence of `pattern`; all of the text where there is none. -/
def before (pattern s : List Char) : List Char :=
  match cut pattern s with
  | some (front, _) => front
  | none => s

/-- The piece after the last separator; all of the text where there is no separator. -/
def afterLast (separator : Char) (s : List Char) : List Char :=
  (s.splitOn separator).getLastD []

/-- The two parts that `cut` returns lie around the pattern. -/
theorem eq_of_cut {pattern s front after : List Char} (h : cut pattern s = some (front, after)) :
    s = front ++ pattern ++ after := by
  induction s generalizing front with
  | nil =>
    rw [cut] at h
    split at h
    · simp_all
    · cases h
  | cons c s ih =>
    rw [cut] at h
    split at h
    · rename_i hp
      obtain ⟨t, ht⟩ := List.isPrefixOf_iff_prefix.1 hp
      simp only [Option.some.injEq, Prod.mk.injEq] at h
      obtain ⟨rfl, rfl⟩ := h
      simp [← ht]
    · obtain ⟨⟨front', after'⟩, hc, he⟩ := Option.map_eq_some_iff.1 h
      simp only [Prod.mk.injEq] at he
      obtain ⟨rfl, rfl⟩ := he
      simp [ih hc]

end TraceTimeline.Text
