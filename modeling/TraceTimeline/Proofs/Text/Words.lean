import TraceTimeline.Text.Blank
import Mathlib.Data.List.Chain
import Mathlib.Data.List.Infix
import Mathlib.Data.List.TakeWhile

/-!
# The words of a text that is put together of words

A text made of words with blanks between them has just these words. What is found in such a text
without a blank in it is found in one of the words; and what is found across a single blank shows at
the end of one word and at the beginning of the next.
-/

namespace TraceTimeline.Text

structure IsWord (w : List Char) : Prop where
  ne_nil : w ≠ []
  not_isBlank : ∀ c ∈ w, isBlank c = false

theorem IsWord.not_mem {w : List Char} (h : IsWord w) {b : Char} (hb : isBlank b = true) : b ∉ w :=
  fun hmem => Bool.false_ne_true ((h.not_isBlank b hmem).symm.trans hb)

instance (w : List Char) : Decidable (IsWord w) :=
  decidable_of_iff (w ≠ [] ∧ w.all (fun c => !isBlank c) = true)
    ⟨fun h => ⟨h.1, by simpa using h.2⟩, fun h => ⟨h.ne_nil, by simpa using h.not_isBlank⟩⟩

structure IsGap (gap : List Char) : Prop where
  ne_nil : gap ≠ []
  isBlank : ∀ c ∈ gap, Text.isBlank c = true

instance (gap : List Char) : Decidable (IsGap gap) :=
  decidable_of_iff (gap ≠ [] ∧ gap.all Text.isBlank = true)
    ⟨fun h => ⟨h.1, by simpa using h.2⟩, fun h => ⟨h.ne_nil, by simpa using h.isBlank⟩⟩

def joined (first : List Char) : List (List Char × List Char) → List Char
  | [] => first
  | (gap, next) :: rest => first ++ gap ++ joined next rest

theorem not_mem_joined {b : Char} {first : List Char} {rest : List (List Char × List Char)}
    (hfirst : b ∉ first) (hrest : ∀ next ∈ rest, b ∉ next.1 ∧ b ∉ next.2) :
    b ∉ joined first rest := by
  induction rest generalizing first with
  | nil => exact hfirst
  | cons next rest ih =>
      obtain ⟨⟨hgap, hnext⟩, hrest⟩ := List.forall_mem_cons.mp hrest
      rw [joined, List.mem_append, List.mem_append]
      rintro ((h | h) | h)
      · exact hfirst h
      · exact hgap h
      · exact ih hnext hrest h

/-- Behind the last word there is nothing. -/
theorem getLast?_joined_ne {b : Char} (hb : isBlank b = true) {first : List Char}
    {rest : List (List Char × List Char)} (hfirst : IsWord first)
    (hrest : ∀ next ∈ rest, IsWord next.2) : (joined first rest).getLast? ≠ some b := by
  induction rest generalizing first with
  | nil => exact fun h => hfirst.not_mem hb (List.mem_of_getLast? h)
  | cons next rest ih =>
      obtain ⟨hnext, hrest⟩ := List.forall_mem_cons.mp hrest
      have hne : joined next.2 rest ≠ [] := by
        cases rest with
        | nil => exact hnext.ne_nil
        | cons => exact fun h => hnext.ne_nil (List.append_eq_nil_iff.mp
            (List.append_eq_nil_iff.mp h).1).1
      rw [joined, List.getLast?_append, Option.or_of_isSome (List.getLast?_isSome.mpr hne)]
      exact ih hnext hrest

/-- The visible characters of ASCII are no blanks. -/
theorem isBlank_of_visible {c : Char} (hlow : 0x20 < c.toNat) (hhigh : c.toNat < 0x7F) :
    Text.isBlank c = false := by
  rw [Text.isBlank, Bool.eq_false_iff]
  simp only [ne_eq, Bool.or_eq_true, Bool.and_eq_true, beq_iff_eq, decide_eq_true_eq]
  omega

theorem words_of_isWord {w : List Char} (h : IsWord w) : words w = [w] := by
  rw [words, List.splitOnP_eq_singleton h.not_isBlank, List.filter_singleton]
  cases w with
  | nil => exact absurd rfl h.ne_nil
  | cons c w => rfl

theorem words_cons_of_isBlank {b : Char} (hb : isBlank b = true) (s : List Char) :
    words (b :: s) = words s :=
  words_append_cons hb [] s

theorem words_blanks_append {gap : List Char} (h : ∀ c ∈ gap, isBlank c = true) (s : List Char) :
    words (gap ++ s) = words s := by
  induction gap with
  | nil => rfl
  | cons b gap ih =>
      obtain ⟨hb, hgap⟩ := List.forall_mem_cons.mp h
      rw [List.cons_append, words_cons_of_isBlank hb, ih hgap]

theorem words_append_gap {gap : List Char} (h : IsGap gap) (s t : List Char) :
    words (s ++ gap ++ t) = words s ++ words t := by
  obtain ⟨b, gap, rfl⟩ := List.exists_cons_of_ne_nil h.ne_nil
  obtain ⟨hb, hgap⟩ := List.forall_mem_cons.mp h.isBlank
  rw [List.append_assoc, List.cons_append, words_append_cons hb, words_blanks_append hgap]

/-- **Words that are put together are the words of the text.** -/
theorem words_joined {first : List Char} {rest : List (List Char × List Char)}
    (hfirst : IsWord first) (hrest : ∀ next ∈ rest, IsGap next.1 ∧ IsWord next.2) :
    words (joined first rest) = first :: rest.map Prod.snd := by
  induction rest generalizing first with
  | nil => exact words_of_isWord hfirst
  | cons next rest ih =>
      obtain ⟨⟨hgap, hnext⟩, hrest⟩ := List.forall_mem_cons.mp hrest
      rw [joined, words_append_gap hgap, words_of_isWord hfirst, ih hnext hrest]
      rfl

/-! ## Which words a text has -/

/-- These are the words of a text: it is put together of them, with blanks between one word and the
next and perhaps at both ends. -/
inductive HasWords : List Char → List (List Char) → Prop
  | nil {blanks : List Char} : (∀ c ∈ blanks, isBlank c = true) → HasWords blanks []
  | cons {blanks w rest : List Char} {ws : List (List Char)} :
      (∀ c ∈ blanks, isBlank c = true) → IsWord w → (∀ c ∈ rest.head?, isBlank c = true) →
      HasWords rest ws → HasWords (blanks ++ w ++ rest) (w :: ws)

theorem HasWords.words_eq {s : List Char} {ws : List (List Char)} (h : HasWords s ws) :
    words s = ws := by
  induction h with
  | @nil blanks hblanks => rw [← List.append_nil blanks, words_blanks_append hblanks, words_nil]
  | @cons blanks w rest ws hblanks hw hrest _ ih =>
      rw [List.append_assoc, words_blanks_append hblanks, ← ih]
      cases rest with
      | nil => rw [List.append_nil, words_of_isWord hw, words_nil]
      | cons b rest =>
          have hb : isBlank b = true := hrest b rfl
          rw [words_append_cons hb, words_of_isWord hw, words_cons_of_isBlank hb]
          rfl

theorem exists_hasWords (s : List Char) : ∃ ws, HasWords s ws := by
  induction s with
  | nil => exact ⟨[], .nil nofun⟩
  | cons c s ih =>
      obtain ⟨ws, ih⟩ := ih
      cases hc : isBlank c with
      | true =>
          cases ih with
          | nil hblanks => exact ⟨[], .nil (List.forall_mem_cons.mpr ⟨hc, hblanks⟩)⟩
          | cons hblanks hw hrest h =>
              exact ⟨_, .cons (List.forall_mem_cons.mpr ⟨hc, hblanks⟩) hw hrest h⟩
      | false =>
          have hword : IsWord [c] := ⟨List.cons_ne_nil c [], by simpa using hc⟩
          -- The character is a word of its own unless a word follows without a blank.
          cases ih with
          | nil hblanks =>
              refine ⟨[[c]], @HasWords.cons [] [c] s [] nofun hword ?_ (.nil hblanks)⟩
              exact fun b hb => hblanks b (List.mem_of_mem_head? hb)
          | @cons blanks w rest ws hblanks hw hrest h =>
              cases blanks with
              | nil =>
                  have hlonger : IsWord (c :: w) :=
                    ⟨List.cons_ne_nil c w, List.forall_mem_cons.mpr ⟨hc, hw.not_isBlank⟩⟩
                  exact ⟨(c :: w) :: ws, @HasWords.cons [] (c :: w) rest ws nofun hlonger hrest h⟩
              | cons b blanks =>
                  refine ⟨[c] :: w :: ws,
                    @HasWords.cons [] [c] _ _ nofun hword ?_ (.cons hblanks hw hrest h)⟩
                  rintro _ ⟨⟩
                  exact hblanks b List.mem_cons_self

/-- **The words of a text are the words it is put together of.** -/
theorem hasWords_iff {s : List Char} {ws : List (List Char)} : HasWords s ws ↔ words s = ws := by
  refine ⟨HasWords.words_eq, ?_⟩
  rintro rfl
  obtain ⟨ws, h⟩ := exists_hasWords s
  rwa [h.words_eq]

theorem HasWords.isWord {s w : List Char} {ws : List (List Char)} (h : HasWords s ws)
    (hmem : w ∈ ws) : IsWord w := by
  induction h with
  | nil => exact absurd hmem List.not_mem_nil
  | cons _ hword _ _ ih =>
      rcases List.mem_cons.mp hmem with rfl | hmem
      · exact hword
      · exact ih hmem

theorem dropWhile_blanks_append {blanks w : List Char} (hblanks : ∀ c ∈ blanks, isBlank c = true)
    (hw : ∀ c ∈ w.head?, isBlank c = false) : (blanks ++ w).dropWhile isBlank = w := by
  rw [List.dropWhile_append_of_pos hblanks]
  cases w with
  | nil => rfl
  | cons c w => exact List.dropWhile_cons_of_neg (Bool.eq_false_iff.mp (hw c rfl))

def Encloses (s piece : List Char) : Prop :=
  ∃ front back, s = front ++ piece ++ back ∧ (∀ c ∈ front, isBlank c = true) ∧
    ∀ c ∈ back, isBlank c = true

/-- Of a word between blanks the word is left. -/
theorem trim_append {front w back : List Char} (hfront : ∀ c ∈ front, isBlank c = true)
    (hw : IsWord w) (hback : ∀ c ∈ back, isBlank c = true) : trim (front ++ w ++ back) = w := by
  have hfirst : ∀ c ∈ (w ++ back).head?, isBlank c = false := fun c hc =>
    hw.not_isBlank c (List.mem_of_mem_head? (by rwa [List.head?_append_of_ne_nil _ hw.ne_nil] at hc))
  have hlast : ∀ c ∈ w.reverse.head?, isBlank c = false := fun c hc =>
    hw.not_isBlank c (List.mem_reverse.mp (List.mem_of_mem_head? hc))
  rw [trim, List.append_assoc, dropWhile_blanks_append hfront hfirst, List.reverse_append,
    dropWhile_blanks_append (fun c hc => hback c (List.mem_reverse.mp hc)) hlast,
    List.reverse_reverse]

/-- Only blanks are dropped at the ends of a text. -/
theorem encloses_trim (s : List Char) : Encloses s (trim s) := by
  refine ⟨s.takeWhile isBlank, ((s.dropWhile isBlank).reverse.takeWhile isBlank).reverse, ?_,
    fun c => List.mem_takeWhile_imp, fun c hc => List.mem_takeWhile_imp (List.mem_reverse.mp hc)⟩
  rw [trim, List.append_assoc, ← List.reverse_append, List.takeWhile_append_dropWhile,
    List.reverse_reverse, List.takeWhile_append_dropWhile]

theorem Encloses.trim_eq {s w : List Char} (h : Encloses s w) (hw : IsWord w) : trim s = w := by
  obtain ⟨front, back, rfl, hfront, hback⟩ := h
  exact trim_append hfront hw hback

/-- The trimmed text has a property of words exactly if a text with blanks around it has. -/
theorem trim_iff_exists_encloses {p : List Char → Prop} (hp : ∀ w, p w → IsWord w)
    {s : List Char} : p (trim s) ↔ ∃ w, Encloses s w ∧ p w := by
  constructor
  · intro h
    exact ⟨_, encloses_trim s, h⟩
  · rintro ⟨w, hencloses, h⟩
    rwa [hencloses.trim_eq (hp w h)]

/-! ## Pieces without blanks -/

theorem eq_nil_or_mem_of_prefix_cons {α : Type} {l t : List α} {b : α} (h : l <+: b :: t) :
    l = [] ∨ b ∈ l := by
  cases l with
  | nil => exact Or.inl rfl
  | cons a l =>
      obtain ⟨rfl, -⟩ := List.cons_prefix_cons.mp h
      exact Or.inr List.mem_cons_self

theorem infix_append_cons {α : Type} {piece s t : List α} {b : α} (hb : b ∉ piece)
    (h : piece <:+: s ++ b :: t) : piece <:+: s ∨ piece <:+: t := by
  rcases List.infix_append_iff.mp h with h | h | ⟨front, back, rfl, hfront, hback⟩
  · exact Or.inl h
  · rcases List.infix_cons_iff.mp h with h | h
    · rcases eq_nil_or_mem_of_prefix_cons h with rfl | hmem
      · exact Or.inl List.nil_infix
      · exact absurd hmem hb
    · exact Or.inr h
  · rcases eq_nil_or_mem_of_prefix_cons hback with rfl | hmem
    · rw [List.append_nil]
      exact Or.inl hfront.isInfix
    · exact absurd (List.mem_append_right front hmem) hb

theorem infix_blanks_append {piece gap t : List Char} (hpiece : IsWord piece)
    (hgap : ∀ c ∈ gap, isBlank c = true) (h : piece <:+: gap ++ t) : piece <:+: t := by
  induction gap with
  | nil => exact h
  | cons b gap ih =>
      obtain ⟨hb, hgap⟩ := List.forall_mem_cons.mp hgap
      rcases infix_append_cons (s := []) (hpiece.not_mem hb) h with h | h
      · exact absurd (List.eq_nil_of_infix_nil h) hpiece.ne_nil
      · exact ih hgap h

theorem infix_append_gap {piece s gap t : List Char} (hpiece : IsWord piece) (hgap : IsGap gap)
    (h : piece <:+: s ++ gap ++ t) : piece <:+: s ∨ piece <:+: t := by
  obtain ⟨b, gap, rfl⟩ := List.exists_cons_of_ne_nil hgap.ne_nil
  obtain ⟨hb, hblank⟩ := List.forall_mem_cons.mp hgap.isBlank
  rw [List.append_assoc, List.cons_append] at h
  exact (infix_append_cons (hpiece.not_mem hb) h).imp_right (infix_blanks_append hpiece hblank)

/-- A piece without blanks lies in one of the words. -/
theorem infix_joined {piece first : List Char} {rest : List (List Char × List Char)}
    (hpiece : IsWord piece) (hrest : ∀ next ∈ rest, IsGap next.1)
    (h : piece <:+: joined first rest) :
    piece <:+: first ∨ ∃ next ∈ rest, piece <:+: next.2 := by
  induction rest generalizing first with
  | nil => exact Or.inl h
  | cons next rest ih =>
      obtain ⟨hgap, hrest⟩ := List.forall_mem_cons.mp hrest
      rw [joined] at h
      rcases infix_append_gap hpiece hgap h with h | h
      · exact Or.inl h
      · refine Or.inr ?_
        rcases ih hrest h with h | ⟨other, hmem, h⟩
        · exact ⟨next, List.mem_cons_self, h⟩
        · exact ⟨other, List.mem_cons_of_mem next hmem, h⟩

/-! ## Pieces across a blank -/

theorem words_cons_cases {c : Char} (hc : isBlank c = false) (s : List Char) :
    words (c :: s) = [c] :: words s ∨
      ∃ w ws, words s = w :: ws ∧ words (c :: s) = (c :: w) :: ws := by
  obtain ⟨w, ws, hsplit⟩ := List.exists_cons_of_ne_nil (List.splitOnP_ne_nil isBlank s)
  have hwords : words (c :: s) = (c :: w) :: ws.filter fun w => !w.isEmpty := by
    rw [words, List.splitOnP_cons_eq_if_modifyHead, hc, if_neg Bool.false_ne_true, hsplit]
    rfl
  cases w with
  | nil =>
      refine Or.inl ?_
      rw [hwords, words, hsplit]
      rfl
  | cons d w =>
      refine Or.inr ⟨d :: w, _, ?_, hwords⟩
      rw [words, hsplit]
      rfl

theorem exists_words_cons {c : Char} (hc : isBlank c = false) (s : List Char) :
    ∃ w ws, words (c :: s) = w :: ws ∧ c ∈ w := by
  rcases words_cons_cases hc s with h | ⟨w, ws, -, h⟩
  · exact ⟨_, _, h, List.mem_cons_self⟩
  · exact ⟨_, _, h, List.mem_cons_self⟩

theorem exists_words_concat {c : Char} (hc : isBlank c = false) (s : List Char) :
    ∃ ws w, words (s ++ [c]) = ws ++ [w] ∧ c ∈ w := by
  induction s with
  | nil => exact ⟨[], [c], words_of_isWord ⟨List.cons_ne_nil c [], by simpa using hc⟩,
      List.mem_cons_self⟩
  | cons d s ih =>
      obtain ⟨ws, w, hwords, hmem⟩ := ih
      rw [List.cons_append]
      cases hd : isBlank d with
      | true =>
          rw [words_cons_of_isBlank hd]
          exact ⟨ws, w, hwords, hmem⟩
      | false =>
          rcases words_cons_cases hd (s ++ [c]) with h | ⟨first, more, hfirst, h⟩
          · exact ⟨[d] :: ws, w, by rw [h, hwords]; rfl, hmem⟩
          · -- The character is put in front of the first word, which may be the last one too.
            rw [hwords] at hfirst
            cases ws with
            | nil =>
                obtain ⟨rfl, rfl⟩ := List.cons.inj hfirst
                exact ⟨[], d :: w, h, List.mem_cons_of_mem d hmem⟩
            | cons w' ws =>
                obtain ⟨rfl, rfl⟩ := List.cons.inj hfirst
                exact ⟨(d :: w') :: ws, w, h, hmem⟩

/-- A piece across a blank takes a word with its first character, and one behind it with its last. -/
theorem not_infix_of_isChain {x b y : Char} (hx : isBlank x = false) (hb : isBlank b = true)
    (hy : isBlank y = false) {s : List Char}
    (h : (words s).IsChain fun w w' => ¬ (x ∈ w ∧ y ∈ w')) : ¬ [x, b, y] <:+: s := by
  rintro ⟨front, back, rfl⟩
  have hsplit : front ++ [x, b, y] ++ back = (front ++ [x]) ++ b :: y :: back := by simp
  obtain ⟨ws, w, hfront, hxw⟩ := exists_words_concat hx front
  obtain ⟨w', ws', hback, hyw⟩ := exists_words_cons hy back
  rw [hsplit, words_append_cons hb, hfront, hback, List.isChain_append] at h
  exact h.2.2 w (by simp) w' (by simp) ⟨hxw, hyw⟩

end TraceTimeline.Text
