import TraceTimeline.Proofs.Text.Encoding
import TraceTimeline.Text.Line
import Mathlib.Data.List.Induction

/-!
# Lines of characters and lines of bytes

Every text is a row of lines with a newline behind each, and a rest without one. Of a text that is
written like this the lines can be read off. Since a newline and a carriage return are one byte each
that occurs in no other character, it makes no difference whether a text is split before or after it
is encoded. Main statements: the lines of the bytes of a text are the bytes of its lines, and bytes
whose lines are all texts are a text.
-/

namespace TraceTimeline.Text

section Lines

variable {α : Type} {newline : α}

def terminated (newline : α) (lines : List (List α)) : List α :=
  lines.flatMap fun line => line ++ [newline]

theorem terminated_cons (newline : α) (line : List α) (lines : List (List α)) :
    terminated newline (line :: lines) = line ++ newline :: terminated newline lines := by
  rw [terminated, List.flatMap_cons, List.append_assoc]
  rfl

/-- Every text is written line by line. -/
theorem exists_terminated (newline : α) (s : List α) :
    ∃ lines rest, s = terminated newline lines ++ rest ∧ (∀ line ∈ lines, newline ∉ line) ∧
      newline ∉ rest := by
  induction s with
  | nil => exact ⟨[], [], rfl, fun _ h => absurd h List.not_mem_nil, List.not_mem_nil⟩
  | cons a s ih =>
      obtain ⟨lines, rest, rfl, hlines, hrest⟩ := ih
      by_cases ha : a = newline
      · subst ha
        exact ⟨[] :: lines, rest, by rw [terminated_cons]; rfl,
          List.forall_mem_cons.mpr ⟨List.not_mem_nil, hlines⟩, hrest⟩
      · have hcons : ∀ line : List α, newline ∉ line → newline ∉ a :: line := fun line hline =>
          List.not_mem_cons_of_ne_of_not_mem (Ne.symm ha) hline
        cases lines with
        | nil => exact ⟨[], a :: rest, rfl, hlines, hcons rest hrest⟩
        | cons line lines =>
            obtain ⟨hline, hlines⟩ := List.forall_mem_cons.mp hlines
            refine ⟨(a :: line) :: lines, rest, ?_,
              List.forall_mem_cons.mpr ⟨hcons line hline, hlines⟩, hrest⟩
            rw [terminated_cons, terminated_cons]
            rfl

variable [BEq α] [LawfulBEq α]

theorem splitOn_terminated {lines : List (List α)} {rest : List α}
    (hlines : ∀ line ∈ lines, newline ∉ line) (hrest : newline ∉ rest) :
    (terminated newline lines ++ rest).splitOn newline = lines ++ [rest] := by
  induction lines with
  | nil => exact List.splitOn_eq_singleton hrest
  | cons line lines ih =>
      obtain ⟨hline, hlines⟩ := List.forall_mem_cons.mp hlines
      rw [terminated_cons, List.append_assoc, List.cons_append, List.splitOn_append_cons_self,
        List.splitOn_eq_singleton hline, ih hlines]
      rfl

/-- The lines of a text that is written line by line. -/
theorem linesBy_terminated (carriageReturn : α) {lines : List (List α)} {rest : List α}
    (hlines : ∀ line ∈ lines, newline ∉ line) (hrest : newline ∉ rest) :
    linesBy newline carriageReturn (terminated newline lines ++ rest) =
      lines.map (dropReturn carriageReturn) ++ if rest.isEmpty then [] else [rest] := by
  rw [linesBy, splitOn_terminated hlines hrest, List.dropLast_concat, List.getLastD_concat]

theorem dropReturn_of_getLast?_ne {carriageReturn : α} {line : List α}
    (h : line.getLast? ≠ some carriageReturn) : dropReturn carriageReturn line = line :=
  if_neg fun heq => h (beq_iff_eq.mp heq)

theorem dropReturn_append_return (carriageReturn : α) (line : List α) :
    dropReturn carriageReturn (line ++ [carriageReturn]) = line := by
  rw [dropReturn, List.getLast?_concat, if_pos (beq_self_eq_true _), List.dropLast_concat]

/-- At most one carriage return is taken from a line. -/
theorem eq_dropReturn_or (carriageReturn : α) (line : List α) :
    line = dropReturn carriageReturn line ∨
      line = dropReturn carriageReturn line ++ [carriageReturn] := by
  by_cases h : line.getLast? = some carriageReturn
  · obtain ⟨front, rfl⟩ := List.getLast?_eq_some_iff.mp h
    rw [dropReturn_append_return]
    exact Or.inr rfl
  · exact Or.inl (dropReturn_of_getLast?_ne h).symm

end Lines

/-! ## Lines before and after encoding -/

open Json

def encode (s : List Char) : Bytes :=
  s.flatMap String.utf8EncodeChar

theorem encode_append (s t : List Char) : encode (s ++ t) = encode s ++ encode t :=
  List.flatMap_append

theorem encode_singleton_of_lt {c : Char} (h : c.toNat < 128) : encode [c] = [ascii c] := by
  rw [encode, List.flatMap_singleton, utf8EncodeChar_of_lt h]

theorem isEmpty_encode (s : List Char) : List.isEmpty (encode s) = s.isEmpty := by
  cases s with
  | nil => rfl
  | cons c s =>
      have hne : encode (c :: s) ≠ [] := fun h =>
        String.utf8EncodeChar_ne_nil (List.append_eq_nil_iff.mp h).1
      rw [List.isEmpty_cons, List.isEmpty_eq_false_iff]
      exact hne

theorem ascii_mem_encode_iff {c : Char} (hc : c.toNat < 128) {s : List Char} :
    ascii c ∈ encode s ↔ c ∈ s := by
  rw [encode, List.mem_flatMap]
  constructor
  · rintro ⟨d, hd, hbyte⟩
    obtain rfl := eq_of_ascii_mem hc hbyte
    exact hd
  · intro h
    refine ⟨c, h, ?_⟩
    rw [utf8EncodeChar_of_lt hc]
    exact List.mem_singleton_self _

theorem encode_terminated (lines : List (List Char)) :
    encode (terminated '\n' lines) = terminated (ascii '\n') (lines.map encode) := by
  induction lines with
  | nil => rfl
  | cons line lines ih =>
      rw [List.map_cons, terminated_cons, terminated_cons, encode_append, ← ih,
        ← List.singleton_append, encode_append, encode_singleton_of_lt (by decide)]
      rfl

theorem dropReturn_encode (line : List Char) :
    dropReturn (ascii '\r') (encode line) = encode (dropReturn '\r' line) := by
  cases line using List.reverseRecOn with
  | nil => rfl
  | append_singleton line c =>
      by_cases hc : c = '\r'
      · rw [hc, encode_append, encode_singleton_of_lt (by decide), dropReturn_append_return,
          dropReturn_append_return]
      · -- The last byte of another character is not the one of a carriage return.
        have hlast : (encode (line ++ [c])).getLast? ≠ some (ascii '\r') := by
          have hsome : (encode [c]).getLast?.isSome = true := by
            rw [List.getLast?_isSome, Ne, ← List.isEmpty_iff, isEmpty_encode]
            exact nofun
          rw [encode_append, List.getLast?_append, Option.or_of_isSome hsome]
          intro h
          have hmem := (ascii_mem_encode_iff (by decide)).mp (List.mem_of_getLast? h)
          exact hc (List.mem_singleton.mp hmem).symm
        rw [dropReturn_of_getLast?_ne hlast, dropReturn_of_getLast?_ne]
        rw [List.getLast?_concat]
        exact fun h => hc (Option.some.inj h)

/-- **The lines of the bytes of a text are the bytes of its lines.** -/
theorem linesBy_encode (s : List Char) :
    linesBy (ascii '\n') (ascii '\r') (encode s) = (lines s).map encode := by
  obtain ⟨front, rest, rfl, hfront, hrest⟩ := exists_terminated '\n' s
  have hbytes : ∀ line : List Char, '\n' ∉ line → ascii '\n' ∉ encode line := fun line =>
    mt (ascii_mem_encode_iff (by decide)).mp
  rw [encode_append, encode_terminated, lines, linesBy_terminated _ _ (hbytes rest hrest),
    linesBy_terminated _ hfront hrest, isEmpty_encode, List.map_append, List.map_map, List.map_map]
  · congr 1
    · exact List.map_congr_left fun line _ => dropReturn_encode line
    · split <;> rfl
  · rw [List.forall_mem_map]
    exact fun line hline => hbytes line (hfront line hline)

def IsText (bytes : Bytes) : Prop :=
  ∃ s, bytes = encode s

theorem IsText.append {front back : Bytes} (hfront : IsText front) (hback : IsText back) :
    IsText (front ++ back) := by
  obtain ⟨s, rfl⟩ := hfront
  obtain ⟨t, rfl⟩ := hback
  exact ⟨s ++ t, (encode_append s t).symm⟩

theorem isText_ascii {c : Char} (hc : c.toNat < 128) : IsText [ascii c] :=
  ⟨[c], (encode_singleton_of_lt hc).symm⟩

theorem isText_terminated {lines : List Bytes} (h : ∀ line ∈ lines, IsText line) :
    IsText (terminated (ascii '\n') lines) := by
  induction lines with
  | nil => exact ⟨[], rfl⟩
  | cons line lines ih =>
      obtain ⟨hline, hlines⟩ := List.forall_mem_cons.mp h
      rw [terminated_cons, ← List.singleton_append]
      exact hline.append ((isText_ascii (by decide)).append (ih hlines))

/-- **Bytes whose lines are all texts are a text.** -/
theorem isText_of_linesBy {bytes : Bytes}
    (h : ∀ line ∈ linesBy (ascii '\n') (ascii '\r') bytes, IsText line) : IsText bytes := by
  obtain ⟨front, rest, rfl, hfront, hrest⟩ := exists_terminated (ascii '\n') bytes
  rw [linesBy_terminated _ hfront hrest, List.forall_mem_append, List.forall_mem_map] at h
  obtain ⟨hlines, hlast⟩ := h
  refine (isText_terminated fun line hline => ?_).append ?_
  · rcases eq_dropReturn_or (ascii '\r') line with heq | heq
    · rw [heq]
      exact hlines line hline
    · rw [heq]
      exact (hlines line hline).append (isText_ascii (by decide))
  · cases rest with
    | nil => exact ⟨[], rfl⟩
    | cons b rest => exact List.forall_mem_singleton.mp hlast

end TraceTimeline.Text
