import TraceTimeline.Proofs.Number.NumberText

/-!
# The grammar of numbers

Which texts are numbers, said without reading them. A whole number is digits, perhaps behind a plus.
A float has digits with at most one point among them and perhaps a power of ten, or it is one of the
names of the floats that are not finite; either may stand behind a sign. Main statements: a text is
read as a number exactly if it stands for that number by the grammar, and what is written for a whole
number stands for it.
-/

namespace TraceTimeline.Number

/-- These are digits, at least one, and they come to `n` where `append` puts a digit behind a
number. -/
structure ComesTo (append : Nat → Nat → Nat) (s : List Char) (n : Nat) : Prop where
  ne_nil : s ≠ []
  isDigit : ∀ c ∈ s, c.isDigit = true
  value : s.foldl (fun value c => append value (c.toNat - '0'.toNat)) 0 = n

def DigitsText (s : List Char) (n : Nat) : Prop :=
  ComesTo (fun value d => value * 10 + d) s n

/-- Digits that stand for `n` in an exponent, where a number beyond the bound counts no further. -/
def ExponentText (s : List Char) (n : Nat) : Prop :=
  ComesTo (fun value d => if value < exponentBound then value * 10 + d else value) s n

theorem digits?_eq_some_iff {s : List Char} {n : Nat} : digits? s = some n ↔ DigitsText s n := by
  rw [digits?, Option.ite_none_left_eq_some, foldlM_digit?_eq_some_iff, List.isEmpty_iff]
  exact ⟨fun h => ⟨h.1, h.2.1, h.2.2⟩, fun h => ⟨h.ne_nil, h.isDigit, h.value⟩⟩

theorem exponentDigits?_eq_some_iff {s : List Char} {n : Nat} :
    exponentDigits? s = some n ↔ ExponentText s n := by
  rw [exponentDigits?, Option.ite_none_left_eq_some, List.isEmpty_iff,
    @foldlM_digit?_eq_some_iff fun value d =>
      if value < exponentBound then value * 10 + d else value]
  exact ⟨fun h => ⟨h.1, h.2.1, h.2.2⟩, fun h => ⟨h.ne_nil, h.isDigit, h.value⟩⟩

theorem digitsText_naturalText (n : Nat) : DigitsText (naturalText n) n :=
  ⟨naturalText_ne_nil n, fun _ => isDigit_of_mem_naturalText, foldl_naturalText n⟩

/-- Digits do not begin with anything else. -/
theorem ComesTo.ne_cons {append : Nat → Nat → Nat} {s : List Char} {n : Nat}
    (h : ComesTo append s n) {c : Char} (hc : c.isDigit = false) (r : List Char) : s ≠ c :: r := by
  rintro rfl
  exact Bool.false_ne_true (hc.symm.trans (h.isDigit c List.mem_cons_self))

theorem ComesTo.append_ne_cons {append : Nat → Nat → Nat} {s : List Char} {n : Nat}
    (h : ComesTo append s n) {c : Char} (hc : c.isDigit = false) (t r : List Char) :
    s ++ t ≠ c :: r := by
  intro heq
  obtain ⟨a, s, rfl⟩ := List.exists_cons_of_ne_nil h.ne_nil
  obtain ⟨rfl, -⟩ := List.cons.inj heq
  exact h.ne_cons hc s rfl

/-- Digits end where something else follows. -/
theorem ComesTo.unique {append : Nat → Nat → Nat} {s s' t t' : List Char} {n n' : Nat}
    {c c' : Char} (h : ComesTo append s n) (h' : ComesTo append s' n') (hc : c.isDigit = false)
    (hc' : c'.isDigit = false) (heq : s ++ c :: t = s' ++ c' :: t') :
    n = n' ∧ c :: t = c' :: t' := by
  obtain ⟨htake, hdrop⟩ := @takeWhile_append_of_head? _ Char.isDigit s (c :: t) h.isDigit
    (by rintro _ ⟨⟩; exact hc)
  obtain ⟨htake', hdrop'⟩ := @takeWhile_append_of_head? _ Char.isDigit s' (c' :: t') h'.isDigit
    (by rintro _ ⟨⟩; exact hc')
  rw [heq] at htake hdrop
  obtain rfl : s = s' := htake.symm.trans htake'
  exact ⟨h.value.symm.trans h'.value, hdrop.symm.trans hdrop'⟩

/-! ## Whole numbers -/

inductive NaturalText : List Char → Nat → Prop
  | plain {s : List Char} {n : Nat} : DigitsText s n → NaturalText s n
  | plus {s : List Char} {n : Nat} : DigitsText s n → NaturalText ('+' :: s) n

theorem natural?_eq_some_iff {limit n : Nat} {s : List Char} :
    natural? limit s = some n ↔ NaturalText s n ∧ n < limit := by
  unfold natural?
  dsimp only
  rw [Option.filter_eq_some_iff, decide_eq_true_eq]
  refine and_congr_left fun _ => ⟨fun h => ?_, fun h => ?_⟩
  · split at h
    · exact .plus (digits?_eq_some_iff.mp h)
    · exact .plain (digits?_eq_some_iff.mp h)
  · cases h with
    | plus h => exact digits?_eq_some_iff.mpr h
    | plain h =>
        split
        · exact absurd rfl (h.ne_cons rfl _)
        · exact digits?_eq_some_iff.mpr h

theorem NaturalText.isWord {s : List Char} {n : Nat} (h : NaturalText s n) : Text.IsWord s := by
  cases h with
  | plain h => exact IsNumberWord.isWord ⟨h.ne_nil, fun c hc => .inl (h.isDigit c hc)⟩
  | plus h =>
      refine IsNumberWord.isWord ⟨List.cons_ne_nil _ _, List.forall_mem_cons.mpr ⟨?_, ?_⟩⟩
      · exact .inr (by decide)
      · exact fun c hc => .inl (h.isDigit c hc)

/-- What is written for a number stands for it. -/
theorem naturalText_naturalText (n : Nat) :
    NaturalText (String.ofList (naturalText n)).toList n := by
  rw [String.toList_ofList]
  exact .plain (digitsText_naturalText n)

/-- **A text is read as a number of some width exactly if it is written as one**, where the numbers
of that width are those below the limit. -/
theorem map_natural?_eq_some_iff {α : Type} {limit : Nat} {toNat : α → Nat} {ofNat : Nat → α}
    (hlt : ∀ a, toNat a < limit) (hofNat : ∀ a, ofNat (toNat a) = a)
    (htoNat : ∀ n < limit, toNat (ofNat n) = n) {s : List Char} {a : α} :
    (natural? limit s).map ofNat = some a ↔ NaturalText s (toNat a) := by
  rw [Option.map_eq_some_iff]
  constructor
  · rintro ⟨n, hn, rfl⟩
    obtain ⟨htext, hlimit⟩ := natural?_eq_some_iff.mp hn
    rwa [htoNat n hlimit]
  · intro htext
    exact ⟨toNat a, natural?_eq_some_iff.mpr ⟨htext, hlt a⟩, hofNat a⟩

theorem uint32?_eq_some_iff {s : String} {n : UInt32} :
    uint32? s = some n ↔ NaturalText s.toList n.toNat :=
  map_natural?_eq_some_iff UInt32.toNat_lt (fun _ => UInt32.ofNat_toNat)
    fun _ => UInt32.toNat_ofNat_of_lt'

theorem uint64?_eq_some_iff {s : String} {n : UInt64} :
    uint64? s = some n ↔ NaturalText s.toList n.toNat :=
  map_natural?_eq_some_iff UInt64.toNat_lt (fun _ => UInt64.ofNat_toNat)
    fun _ => UInt64.toNat_ofNat_of_lt'

/-! ## Floats -/

inductive PowerText : List Char → Int → Prop
  | none : PowerText [] 0
  | plain {mark : Char} {s : List Char} {n : Nat} : mark = 'e' ∨ mark = 'E' →
      ExponentText s n → PowerText (mark :: s) n
  | plus {mark : Char} {s : List Char} {n : Nat} : mark = 'e' ∨ mark = 'E' →
      ExponentText s n → PowerText (mark :: '+' :: s) n
  | minus {mark : Char} {s : List Char} {n : Nat} : mark = 'e' ∨ mark = 'E' →
      ExponentText s n → PowerText (mark :: '-' :: s) (-n)

/-- A float without a sign: a name in letters of either case, digits, or digits around a point. -/
inductive UnsignedText : List Char → Float → Prop
  | infinity {s : List Char} :
      s.map Char.toLower = "inf".toList ∨ s.map Char.toLower = "infinity".toList →
      UnsignedText s (1.0 / 0.0)
  | nan {s : List Char} : s.map Char.toLower = "nan".toList → UnsignedText s (0.0 / 0.0)
  | whole {digits power : List Char} {n : Nat} {exponent : Int} :
      DigitsText digits n → PowerText power exponent →
      UnsignedText (digits ++ power) (nearestFloat n exponent)
  | point {digits fraction power : List Char} {n : Nat} {exponent : Int} :
      DigitsText (digits ++ fraction) n → PowerText power exponent →
      UnsignedText (digits ++ '.' :: (fraction ++ power)) (nearestFloat n (exponent - fraction.length))

inductive FloatText : List Char → Float → Prop
  | plain {s : List Char} {x : Float} : UnsignedText s x → FloatText s x
  | plus {s : List Char} {x : Float} : UnsignedText s x → FloatText ('+' :: s) x
  | minus {s : List Char} {x : Float} : UnsignedText s x → FloatText ('-' :: s) (-x)

theorem exponent?_eq_some_iff {s : List Char} {exponent : Int} :
    exponent? s = some exponent ↔ PowerText s exponent := by
  constructor
  · intro h
    cases s with
    | nil =>
        obtain rfl := Option.some.inj h
        exact .none
    | cons mark s =>
        unfold exponent? at h
        dsimp only at h
        split at h
        · rename_i hmark
          split at h
          · obtain ⟨n, hn, rfl⟩ := Option.map_eq_some_iff.mp h
            exact .plus hmark (exponentDigits?_eq_some_iff.mp hn)
          · obtain ⟨n, hn, rfl⟩ := Option.map_eq_some_iff.mp h
            exact .minus hmark (exponentDigits?_eq_some_iff.mp hn)
          · obtain ⟨n, hn, rfl⟩ := Option.map_eq_some_iff.mp h
            exact .plain hmark (exponentDigits?_eq_some_iff.mp hn)
        · cases h
  · intro h
    cases h with
    | none => rfl
    | plus hmark h =>
        rw [exponent?, if_pos hmark, exponentDigits?_eq_some_iff.mpr h]
        rfl
    | minus hmark h =>
        rw [exponent?, if_pos hmark, exponentDigits?_eq_some_iff.mpr h]
        rfl
    | plain hmark h =>
        unfold exponent?
        dsimp only
        rw [if_pos hmark]
        split
        · exact absurd rfl (h.ne_cons rfl _)
        · exact absurd rfl (h.ne_cons rfl _)
        · rw [exponentDigits?_eq_some_iff.mpr h]
          rfl

/-- Behind its digits a number goes on with something else. -/
theorem PowerText.head?_not_isDigit {s : List Char} {exponent : Int} (h : PowerText s exponent) :
    ∀ c ∈ s.head?, c.isDigit = false ∧ c ≠ '.' := by
  have hmark : ∀ {mark : Char}, mark = 'e' ∨ mark = 'E' → mark.isDigit = false ∧ mark ≠ '.' := by
    rintro mark (rfl | rfl) <;> decide
  cases h with
  | none => nofun
  | plain h =>
      rintro _ ⟨⟩
      exact hmark h
  | plus h =>
      rintro _ ⟨⟩
      exact hmark h
  | minus h =>
      rintro _ ⟨⟩
      exact hmark h

/-- The digits behind a point at the front, and what is left; nothing and all of it where there is no
point. -/
def fraction : List Char → List Char × List Char
  | '.' :: s => (s.takeWhile Char.isDigit, s.dropWhile Char.isDigit)
  | s => ([], s)

theorem fraction_of_head?_ne {s : List Char} (h : s.head? ≠ some '.') : fraction s = ([], s) := by
  unfold fraction
  split
  · exact absurd rfl h
  · rfl

/-- A number is its digits on both sides of the point, and the power behind them. -/
theorem unsigned?_eq (s : List Char) :
    unsigned? s =
      (digits? (s.takeWhile Char.isDigit ++ (fraction (s.dropWhile Char.isDigit)).1)).bind fun n =>
        (exponent? (fraction (s.dropWhile Char.isDigit)).2).map fun exponent =>
          nearestFloat n (exponent - (fraction (s.dropWhile Char.isDigit)).1.length) := by
  unfold unsigned?
  split
  rename_i part power hparts
  have hfraction : fraction (s.dropWhile Char.isDigit) = (part, power) := hparts
  rw [hfraction]
  dsimp only
  cases digits? (s.takeWhile Char.isDigit ++ part) with
  | none => rfl
  | some n => cases exponent? power <;> rfl

theorem unsigned?_of_whole {digits power : List Char} {n : Nat} {exponent : Int}
    (hdigits : DigitsText digits n) (hpower : PowerText power exponent) :
    unsigned? (digits ++ power) = some (nearestFloat n exponent) := by
  obtain ⟨htake, hdrop⟩ := takeWhile_append_of_head? hdigits.isDigit fun c hc =>
    (hpower.head?_not_isDigit c hc).1
  have hpoint : power.head? ≠ some '.' := fun h => (hpower.head?_not_isDigit '.' h).2 rfl
  rw [unsigned?_eq, htake, hdrop, fraction_of_head?_ne hpoint, List.append_nil,
    digits?_eq_some_iff.mpr hdigits, exponent?_eq_some_iff.mpr hpower, List.length_nil,
    Option.bind_some, Option.map_some, Int.ofNat_zero, Int.sub_zero]

theorem unsigned?_of_point {digits fraction power : List Char} {n : Nat} {exponent : Int}
    (hdigits : DigitsText (digits ++ fraction) n) (hpower : PowerText power exponent) :
    unsigned? (digits ++ '.' :: (fraction ++ power)) =
      some (nearestFloat n (exponent - fraction.length)) := by
  obtain ⟨hwhole, hfraction⟩ := List.forall_mem_append.mp hdigits.isDigit
  obtain ⟨htake, hdrop⟩ := takeWhile_append_of_head? (t := '.' :: (fraction ++ power)) hwhole
    (by rintro _ ⟨⟩; rfl)
  obtain ⟨htake', hdrop'⟩ := takeWhile_append_of_head? hfraction fun c hc =>
    (hpower.head?_not_isDigit c hc).1
  rw [unsigned?_eq, htake, hdrop, Number.fraction, htake', hdrop', digits?_eq_some_iff.mpr hdigits,
    exponent?_eq_some_iff.mpr hpower]
  rfl

theorem unsignedText_of_unsigned? {s : List Char} {x : Float} (h : unsigned? s = some x) :
    UnsignedText s x := by
  rw [unsigned?_eq] at h
  obtain ⟨n, hdigits, h⟩ := Option.bind_eq_some_iff.mp h
  obtain ⟨exponent, hpower, rfl⟩ := Option.map_eq_some_iff.mp h
  rw [digits?_eq_some_iff] at hdigits
  rw [exponent?_eq_some_iff] at hpower
  have hs : s = s.takeWhile Char.isDigit ++ s.dropWhile Char.isDigit :=
    List.takeWhile_append_dropWhile.symm
  generalize s.takeWhile Char.isDigit = front at *
  generalize s.dropWhile Char.isDigit = back at *
  subst hs
  by_cases hpoint : back.head? = some '.'
  · obtain ⟨back, rfl⟩ := List.head?_eq_some_iff.mp hpoint
    have htext := UnsignedText.point hdigits hpower
    rw [fraction, List.takeWhile_append_dropWhile] at htext
    exact htext
  · rw [fraction_of_head?_ne hpoint, List.append_nil] at hdigits
    rw [fraction_of_head?_ne hpoint] at hpower ⊢
    rw [List.length_nil, Int.ofNat_zero, Int.sub_zero]
    exact .whole hdigits hpower

/-- No number is a name, since each name has a letter that no number has. -/
theorem named?_of_unsigned? {s : List Char} {x : Float} (h : unsigned? s = some x) :
    named? s = none := by
  have hletter : ∀ c : Char, IsNumberChar c → c.toLower ≠ 'n' := by
    rintro c (hc | hc)
    · have hsmall : ¬ (c.val ≥ 'A'.val ∧ c.val ≤ 'Z'.val) := by
        intro hcapital
        have hle : c.val ≤ 57 := of_decide_eq_true (Bool.and_eq_true_iff.mp hc).2
        exact absurd (UInt32.le_trans hcapital.1 hle) (by decide)
      have hlower : c.toLower = c := dif_neg hsmall
      rw [hlower]
      rintro rfl
      exact absurd hc (by decide)
    · simp only [List.mem_cons, List.not_mem_nil, or_false] at hc
      rcases hc with rfl | rfl | rfl | rfl | rfl <;> decide
  have hname : ∀ name : List Char, 'n' ∈ name → s.map Char.toLower ≠ name := by
    rintro name hn rfl
    obtain ⟨c, hc, hlower⟩ := List.mem_map.mp hn
    exact hletter c (isNumberChar_of_unsigned? h c hc) hlower
  unfold named?
  dsimp only
  rw [if_neg, if_neg]
  · exact hname _ (by decide)
  · rintro (h | h)
    · exact hname _ (by decide) h
    · exact hname _ (by decide) h

theorem read_eq_some_iff {s : List Char} {x : Float} :
    (named? s).or (unsigned? s) = some x ↔ UnsignedText s x := by
  constructor
  · intro h
    rcases Option.or_eq_some_iff.mp h with h | ⟨-, h⟩
    · unfold named? at h
      dsimp only at h
      split at h
      · rename_i hname
        obtain rfl := Option.some.inj h
        exact .infinity hname
      · split at h
        · rename_i hname
          obtain rfl := Option.some.inj h
          exact .nan hname
        · cases h
    · exact unsignedText_of_unsigned? h
  · intro h
    cases h with
    | infinity hname =>
        rw [named?, if_pos hname]
        rfl
    | nan hname =>
        rw [named?, hname]
        rfl
    | whole hdigits hpower =>
        have hread := unsigned?_of_whole hdigits hpower
        rw [named?_of_unsigned? hread, hread]
        rfl
    | point hdigits hpower =>
        have hread := unsigned?_of_point hdigits hpower
        rw [named?_of_unsigned? hread, hread]
        rfl

/-- What stands behind a sign has none of its own. -/
theorem UnsignedText.not_isSign {s : List Char} {x : Float} (h : UnsignedText s x) :
    ∀ c ∈ s.head?, c ≠ '+' ∧ c ≠ '-' := by
  have hname : ∀ (first : Char) (name : List Char), first ≠ '+' ∧ first ≠ '-' →
      s.map Char.toLower = first :: name → ∀ c ∈ s.head?, c ≠ '+' ∧ c ≠ '-' := by
    rintro first name ⟨hplus, hminus⟩ hs c hc
    obtain ⟨r, rfl⟩ := List.head?_eq_some_iff.mp hc
    obtain rfl := (List.cons.inj hs).1
    constructor
    · rintro rfl
      exact hplus (by decide)
    · rintro rfl
      exact hminus (by decide)
  have hdigit : ∀ {c : Char}, c.isDigit = true → c ≠ '+' ∧ c ≠ '-' := by
    intro c hc
    constructor
    · rintro rfl
      exact absurd hc (by decide)
    · rintro rfl
      exact absurd hc (by decide)
  cases h with
  | infinity hs => exact hs.elim (hname 'i' _ (by decide)) (hname 'i' _ (by decide))
  | nan hs => exact hname 'n' _ (by decide) hs
  | whole hdigits _ =>
      obtain ⟨c, digits, rfl⟩ := List.exists_cons_of_ne_nil hdigits.ne_nil
      rintro _ ⟨⟩
      exact hdigit (hdigits.isDigit _ List.mem_cons_self)
  | @point digits _ _ _ _ hdigits _ =>
      cases digits with
      | nil =>
          rintro _ ⟨⟩
          decide
      | cons c digits =>
          rintro _ ⟨⟩
          exact hdigit (hdigits.isDigit _ List.mem_cons_self)

/-- **A text is read as a float exactly if it is written as that float.** -/
theorem float?_eq_some_iff {s : String} {x : Float} :
    float? s = some x ↔ FloatText s.toList x := by
  unfold float?
  dsimp only
  generalize s.toList = s
  constructor
  · intro h
    split at h
    · exact .plus (read_eq_some_iff.mp h)
    · obtain ⟨y, hy, rfl⟩ := Option.map_eq_some_iff.mp h
      exact .minus (read_eq_some_iff.mp hy)
    · exact .plain (read_eq_some_iff.mp h)
  · intro h
    cases h with
    | plus h => exact read_eq_some_iff.mpr h
    | minus h => exact Option.map_eq_some_iff.mpr ⟨_, read_eq_some_iff.mpr h, rfl⟩
    | plain h =>
        split
        · exact absurd rfl (h.not_isSign '+' rfl).1
        · exact absurd rfl (h.not_isSign '-' rfl).2
        · exact read_eq_some_iff.mpr h

/-- A finite float is written without blanks. -/
theorem FloatText.isWord {s : List Char} {x : Float} (h : FloatText s x) (hx : x.isFinite = true) :
    Text.IsWord s := by
  have hread : float? (String.ofList s) = some x := by rwa [float?_eq_some_iff, String.toList_ofList]
  have hword := isNumberWord_of_float? hread hx
  rw [String.toList_ofList] at hword
  exact hword.isWord

end TraceTimeline.Number
