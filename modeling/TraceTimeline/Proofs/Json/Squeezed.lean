import Mathlib.Tactic.SplitIfs
import TraceTimeline.Proofs.Json.NumeralText
import TraceTimeline.Text.Blank

/-!
# Documents without their white space

White space between tokens is no part of a document, white space inside a string is. `squeeze` drops
the one and keeps the other: it goes through the characters and remembers whether it is inside a
string. Main statements: a rendered document comes to the bare spellings of its tokens, whichever
layout it has; and the compact layout is these spellings.
-/

namespace TraceTimeline.Json

/-- Where a character stands: outside of strings, in one, or in one right behind a backslash. -/
inductive StringMode where
  | outside
  | inside
  | escaped
  deriving DecidableEq, Repr

def StringMode.after (mode : StringMode) (c : Char) : StringMode :=
  match mode with
  | outside => if c = '"' then inside else outside
  | inside => if c = '"' then outside else if c = '\\' then escaped else inside
  | escaped => inside

def withModes (mode : StringMode) : List Char → List (StringMode × Char)
  | [] => []
  | c :: s => (mode, c) :: withModes (mode.after c) s

def modeBehind (mode : StringMode) (s : List Char) : StringMode :=
  s.foldl StringMode.after mode

/-- The text without the white space that stands outside of strings. -/
def squeeze (s : List Char) : List Char :=
  ((withModes .outside s).filter fun (mode, c) =>
    !(decide (mode = .outside) && Text.isBlank c)).map Prod.snd

variable {mode : StringMode} {s t : List Char} {c : Char}

theorem modeBehind_append (mode : StringMode) (s t : List Char) :
    modeBehind mode (s ++ t) = modeBehind (modeBehind mode s) t :=
  List.foldl_append

theorem withModes_append (mode : StringMode) (s t : List Char) :
    withModes mode (s ++ t) = withModes mode s ++ withModes (modeBehind mode s) t := by
  induction s generalizing mode with
  | nil => rfl
  | cons c s ih => exact congrArg ((mode, c) :: ·) (ih (mode.after c))

theorem map_snd_withModes (mode : StringMode) (s : List Char) :
    (withModes mode s).map Prod.snd = s := by
  induction s generalizing mode with
  | nil => rfl
  | cons c s ih => exact congrArg (c :: ·) (ih (mode.after c))

theorem squeeze_append (hs : modeBehind .outside s = .outside) (t : List Char) :
    squeeze (s ++ t) = squeeze s ++ squeeze t := by
  rw [squeeze, withModes_append, hs, List.filter_append, List.map_append]
  rfl

/-- White space leaves the mode as it is, and nothing of it is kept. -/
theorem squeeze_blanks (h : ∀ c ∈ s, Text.isBlank c = true) :
    modeBehind .outside s = .outside ∧ squeeze s = [] := by
  induction s with
  | nil => exact ⟨rfl, rfl⟩
  | cons c s ih =>
      obtain ⟨hc, hs⟩ := List.forall_mem_cons.mp h
      obtain ⟨hmode, hnone⟩ := ih hs
      have hquote : c ≠ '"' := by
        rintro rfl
        exact absurd hc (by decide)
      have hafter : StringMode.outside.after c = .outside := if_neg hquote
      constructor
      · rw [modeBehind, List.foldl_cons, hafter]
        exact hmode
      · rw [squeeze] at hnone ⊢
        rw [withModes, hafter, List.filter_cons_of_neg (by simp [hc])]
        exact hnone

theorem isBlank_of_mem_newLine {depth : Nat} (hc : c ∈ newLine depth) : Text.isBlank c = true := by
  rcases List.mem_cons.mp hc with rfl | hc
  · decide
  · rw [List.eq_of_mem_replicate hc]
    decide

theorem isBlank_of_mem_gap {style : Style} {depth : Nat} {left right : Token}
    (hc : c ∈ gap style depth left right) : Text.isBlank c = true := by
  unfold gap at hc
  repeat' split at hc
  all_goals first
    | exact absurd hc List.not_mem_nil
    | exact isBlank_of_mem_newLine hc
    | (rw [List.mem_singleton.mp hc]; decide)

/-! ## Spellings -/

/-- The text ends outside of strings, as it begins, and has no white space there. -/
structure IsSolid (s : List Char) : Prop where
  modeBehind : modeBehind .outside s = .outside
  notBlank : ∀ c, (.outside, c) ∈ withModes .outside s → Text.isBlank c = false

namespace IsSolid

theorem nil : IsSolid [] :=
  ⟨rfl, fun _ hc => absurd hc List.not_mem_nil⟩

theorem append (hs : IsSolid s) (ht : IsSolid t) : IsSolid (s ++ t) where
  modeBehind := by rw [modeBehind_append, hs.modeBehind, ht.modeBehind]
  notBlank c hc := by
    rw [withModes_append, hs.modeBehind] at hc
    exact (List.mem_append.mp hc).elim (hs.notBlank c) (ht.notBlank c)

theorem flatMap {α : Type} {f : α → List Char} (h : ∀ a, IsSolid (f a)) (as : List α) :
    IsSolid (as.flatMap f) := by
  induction as with
  | nil => exact nil
  | cons a as ih => exact (h a).append ih

/-- Nothing of it is dropped. -/
theorem squeeze_eq (h : IsSolid s) : squeeze s = s := by
  have hall : ∀ pair ∈ withModes .outside s,
      (!(decide (pair.1 = .outside) && Text.isBlank pair.2)) = true := by
    rintro ⟨mode, c⟩ hmem
    by_cases hmode : mode = .outside
    · subst hmode
      simp [h.notBlank c hmem]
    · simp [hmode]
  rw [squeeze, List.filter_eq_self.mpr hall, map_snd_withModes]

end IsSolid

def standsBare (c : Char) : Bool :=
  c != '"' && !Text.isBlank c

theorem isSolid_of_standsBare (h : s.all standsBare = true) : IsSolid s := by
  induction s with
  | nil => exact IsSolid.nil
  | cons c s ih =>
      obtain ⟨hc, hs⟩ := Bool.and_eq_true_iff.mp h
      obtain ⟨hquote, hblank⟩ := Bool.and_eq_true_iff.mp hc
      have hone : IsSolid [c] := by
        refine ⟨if_neg (bne_iff_ne.mp hquote), fun d hd => ?_⟩
        rw [(Prod.mk.inj (List.mem_singleton.mp hd)).2]
        rwa [Bool.not_eq_true'] at hblank
      exact hone.append (ih hs)

theorem isSolid_of_isNumeralChar (h : ∀ c ∈ s, isNumeralChar c = true) : IsSolid s := by
  refine isSolid_of_standsBare (List.all_eq_true.mpr fun c hc => ?_)
  -- Of the characters below 128, all white space and the quotation mark come in front of the plus
  -- sign.
  have hrange := toNat_of_isNumeralChar (h c hc)
  have hbare : ∀ n < 128, 43 ≤ n → standsBare (Char.ofNat n) = true := by decide
  have hc' := hbare c.toNat hrange.2 hrange.1
  rwa [Char.ofNat_toNat] at hc'

theorem isSolid_null : IsSolid "null".toList :=
  isSolid_of_standsBare (by decide)

def IsInner (s : List Char) : Prop :=
  modeBehind .inside s = .inside ∧ ∀ pair ∈ withModes .inside s, pair.1 ≠ .outside

/-- What a character is escaped by does not end the string. -/
theorem isInner_escape (c : Char) : IsInner (escape c) := by
  have hcontrol : ∀ n < 32,
      IsInner ['\\', 'u', '0', '0', hexDigit (n / 16), hexDigit (n % 16)] := by
    unfold IsInner
    decide
  unfold escape
  split_ifs with hquote hbackslash _ _ _ _ _ hc
  · exact ⟨rfl, by decide⟩
  · exact ⟨rfl, by decide⟩
  · exact ⟨rfl, by decide⟩
  · exact ⟨rfl, by decide⟩
  · exact ⟨rfl, by decide⟩
  · exact ⟨rfl, by decide⟩
  · exact ⟨rfl, by decide⟩
  · exact hcontrol c.toNat hc
  · have hafter : StringMode.inside.after c = .inside := by
      rw [StringMode.after, if_neg hquote, if_neg hbackslash]
    refine ⟨hafter, fun pair hmem => ?_⟩
    rw [List.mem_singleton.mp hmem]
    exact StringMode.noConfusion

theorem isInner_flatMap_escape (s : List Char) : IsInner (s.flatMap escape) := by
  induction s with
  | nil => exact ⟨rfl, fun _ hmem => absurd hmem List.not_mem_nil⟩
  | cons c s ih =>
      obtain ⟨hmode, hinside⟩ := isInner_escape c
      rw [List.flatMap_cons]
      refine ⟨by rw [modeBehind_append, hmode, ih.1], fun pair hmem => ?_⟩
      rw [withModes_append, hmode] at hmem
      exact (List.mem_append.mp hmem).elim (hinside pair) (ih.2 pair)

theorem isSolid_quoted (s : String) : IsSolid (quoted s) := by
  obtain ⟨hmode, hinside⟩ := isInner_flatMap_escape s.toList
  have hopen : StringMode.outside.after '"' = .inside := rfl
  refine ⟨?_, fun c hc => ?_⟩
  · show modeBehind .inside (s.toList.flatMap escape ++ ['"']) = .outside
    rw [modeBehind_append, hmode]
    rfl
  · rw [quoted, withModes, hopen, withModes_append, hmode] at hc
    -- Only the opening quotation mark stands outside.
    rcases List.mem_cons.mp hc with heq | hc
    · rw [(Prod.mk.inj heq).2]
      decide
    · rcases List.mem_append.mp hc with hc | hc
      · exact absurd rfl (hinside _ hc)
      · cases (Prod.mk.inj (List.mem_singleton.mp hc)).1

theorem isSolid_spelling (token : Token) : IsSolid token.spelling := by
  cases token with
  | openObject | closeObject | openArray | closeArray | comma | colon =>
      exact isSolid_of_standsBare (by decide)
  | null => exact isSolid_null
  | text s => exact isSolid_quoted s
  | natural n => exact isSolid_of_isNumeralChar (numeralText_naturalText n).isNumeralChar
  | float x =>
      rw [Token.spelling]
      rcases floatText_cases x with hnull | ⟨numeral, hnumeral⟩
      · rw [hnull]
        exact isSolid_null
      · exact isSolid_of_isNumeralChar hnumeral.isNumeralChar

/-! ## Documents -/

def spelled (tokens : List Token) : List Char :=
  tokens.flatMap Token.spelling

theorem isSolid_spelled (tokens : List Token) : IsSolid (spelled tokens) :=
  IsSolid.flatMap isSolid_spelling tokens

/-- A token is put behind white space. -/
theorem exists_toList_put (style : Style) (page : Page) (token : Token) :
    ∃ space, (∀ c ∈ space, Text.isBlank c = true) ∧ (style = .compact → space = []) ∧
      (page.put style token).text.toList = page.text.toList ++ (space ++ token.spelling) := by
  cases hlast : page.last with
  | none =>
      refine ⟨[], fun _ hc => absurd hc List.not_mem_nil, fun _ => rfl, ?_⟩
      simp [Page.put, hlast]
  | some left =>
      refine ⟨gap style page.depth left token, fun _ hc => isBlank_of_mem_gap hc, ?_, ?_⟩
      · rintro rfl
        rfl
      · simp [Page.put, hlast]

/-- What is put on a page, squeezed, is what the page has been and the spellings of the tokens. -/
theorem squeeze_foldl_put (style : Style) (tokens : List Token) (page : Page)
    (h : modeBehind .outside page.text.toList = .outside) :
    squeeze (tokens.foldl (Page.put style) page).text.toList =
      squeeze page.text.toList ++ spelled tokens := by
  induction tokens generalizing page with
  | nil => exact (List.append_nil _).symm
  | cons token tokens ih =>
      obtain ⟨space, hspace, -, htext⟩ := exists_toList_put style page token
      obtain ⟨hmode, hnone⟩ := squeeze_blanks hspace
      have hsolid := isSolid_spelling token
      have hput : modeBehind .outside (page.put style token).text.toList = .outside := by
        rw [htext, modeBehind_append, h, modeBehind_append, hmode, hsolid.modeBehind]
      calc squeeze ((token :: tokens).foldl (Page.put style) page).text.toList
          = squeeze (page.put style token).text.toList ++ spelled tokens := ih _ hput
        _ = squeeze page.text.toList ++ (squeeze space ++ squeeze token.spelling) ++
              spelled tokens := by
            rw [htext, squeeze_append h, squeeze_append hmode]
        _ = squeeze page.text.toList ++ spelled (token :: tokens) := by
            rw [hnone, hsolid.squeeze_eq, List.nil_append, List.append_assoc]
            rfl

/-- **A document squeezed is its tokens**, whichever layout it has. -/
theorem squeeze_render (style : Style) (tokens : List Token) :
    squeeze (render style tokens).toList = spelled tokens :=
  squeeze_foldl_put style tokens {} rfl

example :
    squeeze (render .pretty [.openArray, .text "a \" b", .comma, .natural 1, .closeArray]).toList =
      "[\"a \\\" b\",1]".toList := by
  decide +kernel

theorem toList_foldl_put_compact (tokens : List Token) (page : Page) :
    (tokens.foldl (Page.put .compact) page).text.toList = page.text.toList ++ spelled tokens := by
  induction tokens generalizing page with
  | nil => exact (List.append_nil _).symm
  | cons token tokens ih =>
      obtain ⟨space, -, hnone, htext⟩ := exists_toList_put .compact page token
      rw [List.foldl_cons, ih, htext, hnone rfl, List.nil_append, List.append_assoc]
      rfl

/-- The compact layout has nothing between its tokens. -/
theorem toList_render_compact (tokens : List Token) :
    (render .compact tokens).toList = spelled tokens :=
  toList_foldl_put_compact tokens {}

end TraceTimeline.Json
