import TraceTimeline.Proofs.Json.AnyOrder

/-!
# Values that are cut off

A value is cut where only the bytes in front of some place before its end are left. A text, a list or
an object that is cut is never complete, and the reader finds that the input ends too early. A number
that is cut may be a number still, but then nothing follows it, and what it stands in is not complete.
Main statements: lists and objects fail wherever they are cut, if their items stop at the cut.
-/

namespace TraceTimeline.Json

open Reader

variable {α β σ ρ : Type}

/-- What is made of the bytes has the property wherever they are cut. -/
def OnCuts (p : ρ → Prop) (run : Bytes → ρ) (bytes : Bytes) : Prop :=
  ∀ ⦃front back : Bytes⦄, front ++ back = bytes → back ≠ [] → p (run front)

section Cuts

variable {p : ρ → Prop} {run run' : Bytes → ρ} {bytes more : Bytes} {b : UInt8}

theorem onCuts_nil : OnCuts p run [] := by
  intro front back h hback
  exact absurd (List.append_eq_nil_iff.mp h).2 hback

theorem OnCuts.cons (hnil : p (run [])) (h : OnCuts p (fun s => run (b :: s)) bytes) :
    OnCuts p run (b :: bytes) := by
  intro front back heq hback
  cases front with
  | nil => exact hnil
  | cons a front =>
      obtain ⟨rfl, heq'⟩ := List.cons.inj heq
      exact h heq' hback

theorem OnCuts.tail (h : OnCuts p run (b :: bytes)) : OnCuts p (fun s => run (b :: s)) bytes :=
  fun front back heq hback => @h (b :: front) back (congrArg (b :: ·) heq) hback

theorem OnCuts.append (h : OnCuts p run bytes) (hmore : OnCuts p (fun s => run (bytes ++ s)) more) :
    OnCuts p run (bytes ++ more) := by
  intro front back heq hback
  rcases List.append_eq_append_iff.mp heq with ⟨between, rfl, rfl⟩ | ⟨between, rfl, rfl⟩
  · rcases eq_or_ne between [] with rfl | hbetween
    · have hcut := hmore (List.nil_append more) hback
      simpa only [List.append_nil] using hcut
    · exact h rfl hbetween
  · exact hmore rfl hback

theorem OnCuts.congr (h : OnCuts p run' bytes)
    (heq : ∀ ⦃front back⦄, front ++ back = bytes → run front = run' front) :
    OnCuts p run bytes := by
  intro front back hbytes hback
  rw [heq hbytes]
  exact h hbytes hback

theorem onCuts_of_forall (h : ∀ front, front <+: bytes → p (run front)) : OnCuts p run bytes :=
  fun front back heq _ => h front ⟨back, heq⟩

end Cuts

def Truncated (result : Except Fault α) : Prop :=
  result = .error .truncated

/-- The whole input has been taken, whether a value could be made of it or not. -/
def Exhausted (result : Except Fault (α × Bytes)) : Prop :=
  Truncated result ∨ ∃ a, result = .ok (a, [])

theorem Truncated.bind {x : Reader α} {s : Bytes} (h : Truncated (x.run s)) (f : α → Reader β) :
    Truncated ((x >>= f).run s) := by
  rw [Truncated] at h
  rw [Truncated, run_bind, h]

theorem onCuts_bind {x : Reader α} {bytes : Bytes} (h : OnCuts Truncated x.run bytes)
    (f : α → Reader β) : OnCuts Truncated (x >>= f).run bytes :=
  fun _ _ heq hback => (h heq hback).bind f

theorem IsSpaces.of_isPrefix {spaces front : Bytes} (hs : IsSpaces spaces) (h : front <+: spaces) :
    IsSpaces front :=
  fun b hb => hs b (h.subset hb)

theorem dropWhile_isSpaces {spaces : Bytes} (hs : IsSpaces spaces) :
    spaces.dropWhile isSpace = [] := by
  rw [← List.append_nil spaces, List.dropWhile_append_of_pos hs, List.dropWhile_nil]

theorem run_ahead_spaces {spaces : Bytes} (hs : IsSpaces spaces) :
    Truncated (ahead.run spaces) := by
  unfold Truncated ahead Reader.spaces
  simp only [run_bind, run_takeWhile, dropWhile_isSpaces hs, run_pure, run_peek, List.head?_nil,
    run_fail]

/-- A cut in the white space in front is one in front of everything. -/
theorem onCuts_spaces {p : ρ → Prop} {run : Bytes → ρ} {spaces bytes : Bytes} {b : UInt8}
    (hrun : ∀ front, IsSpaces front → p (run front)) (hs : IsSpaces spaces)
    (h : OnCuts p (fun s => run (spaces ++ b :: s)) bytes) :
    OnCuts p run (spaces ++ b :: bytes) := by
  refine OnCuts.append (onCuts_of_forall fun front hfront => hrun front (hs.of_isPrefix hfront))
    (OnCuts.cons (hrun _ ?_) h)
  rwa [List.append_nil]

theorem onCuts_ahead {p : Except Fault (β × Bytes) → Prop} (hp : p (.error .truncated))
    {f : UInt8 → Reader β} {spaces bytes : Bytes} (hs : IsSpaces spaces) {b : UInt8}
    (hb : isSpace b = false) (h : OnCuts p (fun s => (f b).run (b :: s)) bytes) :
    OnCuts p (ahead >>= f).run (spaces ++ b :: bytes) := by
  refine onCuts_spaces (fun front hfront => ?_) hs (h.congr fun front _ _ => ?_)
  · rw [(run_ahead_spaces hfront).bind f]
    exact hp
  · simp only [run_bind, run_ahead hs hb]

theorem onCuts_mark {c : Char} {spaces : Bytes} (hs : IsSpaces spaces)
    (hc : isSpace (ascii c) = false) : OnCuts Truncated (mark c).run (spaces ++ [ascii c]) :=
  onCuts_ahead (p := Truncated) rfl hs hc onCuts_nil

/-- Wherever the form is cut, the input ends too early. -/
def Reader.FailsCut (x : Reader α) (form : Form) : Prop :=
  ∀ ⦃spaces bytes : Bytes⦄, IsSpaces spaces → form bytes → OnCuts Truncated x.run (spaces ++ bytes)

/-- Wherever the form is cut, all that is left of it is taken. -/
def Reader.StopsCut (x : Reader α) (form : Form) : Prop :=
  ∀ ⦃spaces bytes : Bytes⦄, IsSpaces spaces → form bytes → OnCuts Exhausted x.run (spaces ++ bytes)

theorem Reader.FailsCut.stopsCut {x : Reader α} {form : Form} (h : x.FailsCut form) :
    x.StopsCut form :=
  fun _ _ hs hbytes _ _ heq hback => .inl (h hs hbytes heq hback)

theorem onCuts_map {x : Reader α} {bytes : Bytes} (h : OnCuts Exhausted x.run bytes) (f : α → β) :
    OnCuts Exhausted (do let a ← x; return f a : Reader β).run bytes := by
  intro front back heq hback
  rcases h heq hback with h | ⟨a, h⟩
  · exact .inl (h.bind _)
  · refine .inr ⟨f a, ?_⟩
    rw [run_bind, h]
    rfl

theorem Reader.StopsCut.map {x : Reader α} {form : Form} (h : x.StopsCut form) (f : α → β) :
    (do let a ← x; return f a : Reader β).StopsCut form :=
  fun _ _ hs hbytes => onCuts_map (h hs hbytes) f

/-! ## Texts -/

theorem UnitText.onCuts {n : Nat} {bytes : Bytes} (h : UnitText n bytes) :
    OnCuts Truncated hexUnit.run bytes := by
  obtain ⟨ha, hb, hc, hd⟩ := h
  exact .cons rfl (.cons rfl (.cons rfl (.cons rfl onCuts_nil)))

theorem onCuts_lowSurrogate {n : Nat} {bytes : Bytes} (h : UnitText n bytes) :
    OnCuts Truncated lowSurrogate.run (ascii '\\' :: ascii 'u' :: bytes) := by
  refine .cons rfl (.cons rfl ?_)
  intro front back heq hback
  have hcut := h.onCuts heq hback
  rw [Truncated] at hcut
  unfold lowSurrogate Truncated
  simp only [literal, run_bind, run_next_cons, if_true, run_pure, hcut]

theorem onCuts_unicodeEscape_pair {n m : Nat} {high low : Bytes} (hhigh : UnitText n high)
    (hn : isHighSurrogate n = true) (hlow : UnitText m low) :
    OnCuts Truncated unicodeEscape.run (high ++ ascii '\\' :: ascii 'u' :: low) := by
  have hnotlow : ¬ isLowSurrogate n = true := by
    rw [isHighSurrogate_iff] at hn
    rw [isLowSurrogate_iff]
    omega
  refine .append (onCuts_bind hhigh.onCuts _) ?_
  intro front back heq hback
  have hcut := onCuts_lowSurrogate hlow heq hback
  rw [Truncated] at hcut
  unfold unicodeEscape Truncated
  simp only [run_bind, hhigh.run_hexUnit, if_neg hnotlow, if_pos hn, hcut]

theorem truncated_escapedBy (unicode : Reader Bytes) : Truncated ((escapedBy unicode).run []) :=
  rfl

theorem quotedFrom_nil (unicode : Reader Bytes) (taken : Bytes) :
    Truncated (quotedFrom unicode taken []) := by
  rw [quotedFrom, Truncated]

/-- An escape that is cut. -/
theorem truncated_quotedFrom_escape {unicode : Reader Bytes} {r : Bytes}
    (h : Truncated ((escapedBy unicode).run r)) (taken : Bytes) :
    Truncated (quotedFrom unicode taken (ascii '\\' :: r)) := by
  have hquote : ¬ ascii '\\' = ascii '"' := by decide
  rw [quotedFrom, if_neg hquote, if_pos rfl]
  rw [Truncated] at h
  split
  · rename_i fault hfault
    rw [h] at hfault
    cases hfault
    rfl
  · rename_i found left hfound
    rw [h] at hfound
    cases hfound

theorem onCuts_escape {unicode : Reader Bytes} {bytes : Bytes}
    (h : OnCuts Truncated unicode.run bytes) (taken : Bytes) :
    OnCuts Truncated (quotedFrom unicode taken) (ascii '\\' :: ascii 'u' :: bytes) := by
  refine .cons (quotedFrom_nil unicode taken) (.cons ?_ ?_)
  · exact truncated_quotedFrom_escape (truncated_escapedBy _) taken
  · intro front back heq hback
    refine truncated_quotedFrom_escape ?_ taken
    rw [run_escapedBy_unicode]
    exact h heq hback

theorem CharacterText.onCuts {c : Char} {bytes : Bytes} (h : CharacterText c bytes)
    (taken : Bytes) : OnCuts Truncated (Json.quotedFrom unicodeEscape taken) bytes := by
  cases h with
  | plain hq he hc =>
      intro front back heq _
      have hplain : ∀ b ∈ front, IsPlain b := fun b hb =>
        isPlain_utf8EncodeChar hq he hc b (heq ▸ List.mem_append_left back hb)
      have hrun := @quotedFrom_plain unicodeEscape front hplain taken []
      rw [List.append_nil] at hrun
      rw [hrun]
      exact quotedFrom_nil _ _
  | short =>
      exact .cons (quotedFrom_nil _ taken)
        (.cons (truncated_quotedFrom_escape (truncated_escapedBy _) taken) onCuts_nil)
  | unit hunit =>
      exact onCuts_escape (onCuts_bind hunit.onCuts _) taken
  | pair hle hhigh hlow =>
      have hvalid : c.toNat < 0xD800 ∨ 0xDFFF < c.toNat ∧ c.toNat < 0x110000 := c.valid
      obtain ⟨hn, -, -⟩ := surrogates_spec hle (by omega)
      exact onCuts_escape (onCuts_unicodeEscape_pair hhigh hn hlow) taken

theorem CharactersText.onCuts {s : List Char} {bytes : Bytes} (h : CharactersText s bytes)
    (taken : Bytes) :
    OnCuts Truncated (Json.quotedFrom unicodeEscape taken) (bytes ++ [ascii '"']) := by
  induction h generalizing taken with
  | nil => exact .cons (quotedFrom_nil _ taken) onCuts_nil
  | cons hc _ ih =>
      rw [List.append_assoc]
      exact (hc.onCuts taken).append ((ih _).congr fun front _ _ => hc.quotedFrom taken front)

/-- Behind its opening quotation mark, a text that is cut has no closing one. -/
theorem CharactersText.onCuts_textAfterQuote {s : List Char} {bytes : Bytes}
    (h : CharactersText s bytes) :
    OnCuts Truncated textAfterQuote.run (bytes ++ [ascii '"']) := by
  have hquoted : OnCuts Truncated (quotedBy unicodeEscape).run (bytes ++ [ascii '"']) := h.onCuts []
  exact onCuts_bind hquoted _

theorem failsCut_text (s : String) : Reader.text.FailsCut (QuotedText s) := by
  rintro spaces _ hs ⟨inner, hinner, rfl⟩
  exact onCuts_ahead (p := Truncated) rfl hs (by decide) hinner.onCuts_textAfterQuote

/-! ## Items -/

theorem Ends.of_append {front back : Bytes} (h : Ends (front ++ back)) : Ends front := by
  cases front with
  | nil => exact ends_nil
  | cons b front => exact h

/-- A cut behind an item leaves the end of the item as it is. -/
theorem BehindItem.ends_of_append {bracket : Bracket} {items : List Form} {bytes front back : Bytes}
    (h : BehindItem bracket items bytes) (heq : front ++ back = bytes) : Ends front := by
  have hends := h.ends []
  rw [List.append_nil, ← heq] at hends
  exact hends.of_append

theorem itemsAfter_spaces {close : UInt8} {item : σ → Reader σ} {state : σ} {spaces : Bytes}
    (hs : IsSpaces spaces) : Truncated (itemsAfter close item state spaces) := by
  rw [itemsAfter]
  split
  · rfl
  · rename_i b t hb
    rw [dropWhile_isSpaces hs] at hb
    cases hb

/-- Where an item is cut, no closing bracket follows it. -/
theorem onCuts_item {close : UInt8} {item : σ → Reader σ} {run : Bytes → Except Fault (σ × Bytes)}
    {bytes : Bytes} (h : OnCuts Exhausted run bytes) :
    OnCuts Truncated
      (fun s => (run s).bind fun found => itemsAfter close item found.1 found.2) bytes := by
  intro front back heq hback
  show Truncated ((run front).bind _)
  rcases h heq hback with hcut | ⟨a, hcut⟩
  · rw [Truncated] at hcut
    rw [hcut]
    rfl
  · rw [hcut]
    exact itemsAfter_spaces isSpaces_nil

def StopsEach (item : σ → Reader σ) (items : List Form) : Prop :=
  ∀ form ∈ items, ∀ state next, (item state).Yields form (.ok next) → (item state).StopsCut form

theorem onCuts_itemsAfter {bracket : Bracket} {item : σ → Reader σ} {state last : σ}
    {items : List Form} (h : YieldsEach item state items (.ok last)) (hstops : StopsEach item items)
    {bytes : Bytes} (hbytes : BehindItem bracket items bytes) :
    OnCuts Truncated (itemsAfter bracket.close item state) bytes := by
  -- A cut in an item leaves nothing behind it; a cut behind an item is one in what follows it.
  generalize hresult : (.ok last : Except Fault σ) = result at h
  induction h generalizing bytes with
  | nil =>
      obtain ⟨hs⟩ := hbytes
      exact onCuts_spaces (fun _ => itemsAfter_spaces) hs onCuts_nil
  | @cons state next form more result hform hitem hmore ih =>
      obtain ⟨hstop, hstops⟩ := List.forall_mem_cons.mp hstops
      obtain _ | ⟨hs, hs', hbytes, hback⟩ := hbytes
      rename_i spaces spaces' bytes back
      have hrun : ∀ s, itemsAfter bracket.close item state (spaces ++ ascii ',' :: s) =
          ((item state).run s).bind fun found => itemsAfter bracket.close item found.1 found.2 := by
        intro s
        rw [itemsAfter_cons (dropWhile_spaces hs (by decide) s), if_neg bracket.close_ne_comma.symm,
          if_pos rfl]
        cases (item state).run s <;> rfl
      refine onCuts_spaces (fun _ => itemsAfter_spaces) hs ?_
      simp only [hrun, ← List.append_assoc]
      refine (onCuts_item (hstop state next hitem hs' hbytes)).append ?_
      refine (ih hstops hback hresult).congr fun front rest heq => ?_
      rw [List.append_assoc, hitem hs' hbytes (hback.ends_of_append heq)]
      rfl
  | fault => cases hresult

/-- **Items that are cut** lack the closing bracket. -/
theorem onCuts_items {bracket : Bracket} {c : Char} (hc : bracket.close = ascii c)
    {item : σ → Reader σ} {state last : σ} {items : List Form}
    (h : YieldsEach item state items (.ok last)) (hstops : StopsEach item items) {bytes : Bytes}
    (hbytes : BehindOpening bracket items bytes) :
    OnCuts Truncated (Reader.items c item state).run bytes := by
  cases hbytes with
  | close hs => exact onCuts_ahead (p := Truncated) rfl hs bracket.isSpace_close onCuts_nil
  | @item spaces bytes back form more hs hbytes hback =>
      obtain _ | ⟨hform, hitem, hmore⟩ := h
      rename_i next
      obtain ⟨hstop, hstops⟩ := List.forall_mem_cons.mp hstops
      have hcut := hstop state next hitem isSpaces_nil hbytes
      have hread := fun rest hrest => @hitem [] bytes rest isSpaces_nil hbytes hrest
      obtain ⟨b, r, rfl, hb⟩ := hform hbytes
      have hclose : ¬ b = ascii c := hc ▸ bracket.ne_close hb
      have hrun : ∀ s, (Reader.items c item state).run (spaces ++ b :: s) =
          ((item state).run (b :: s)).bind fun found =>
            itemsAfter bracket.close item found.1 found.2 := by
        intro s
        unfold Reader.items
        simp only [run_bind, run_ahead hs (isSpace_of_beginsItem hb), if_neg hclose, hc]
        cases (item state).run (b :: s) <;> rfl
      refine onCuts_spaces (fun front hfront => (run_ahead_spaces hfront).bind _) hs ?_
      simp only [hrun]
      refine (onCuts_item (OnCuts.tail hcut)).append ?_
      refine (onCuts_itemsAfter hmore hstops hback).congr fun front rest heq => ?_
      have h := hread front (hback.ends_of_append heq)
      rw [List.nil_append, List.cons_append] at h
      rw [h]
      rfl

/-! ## Lists and objects -/

/-- A list that is cut fails if its items stop at the cut. -/
theorem failsCut_list {value : Reader α} {form : β → Form} {result : β → Except Fault α}
    {entries : List β} {found : List α} (hfound : entries.mapM result = .ok found)
    (h : ∀ b ∈ entries, (form b).BeginsItem ∧ value.Yields (form b) (result b))
    (hstops : ∀ b ∈ entries, value.StopsCut (form b)) :
    (Reader.list value).FailsCut (Enclosed .array (entries.map form)) := by
  rintro spaces _ hs ⟨inner, hinner, rfl⟩
  have heach := yieldsEach_add h #[]
  rw [hfound] at heach
  have hclose : Bracket.array.close = ascii ']' := rfl
  refine onCuts_ahead (p := Truncated) rfl hs Bracket.array.isSpace_opening ?_
  refine onCuts_bind (onCuts_items hclose heach (fun item hitem => ?_) hinner) _
  · obtain ⟨b, hb, rfl⟩ := List.mem_map.mp hitem
    exact fun found _ _ => (hstops b hb).map found.push

/-- An object that is cut fails if its members stop at the cut. -/
theorem failsCut_read {shape : Shape σ α} {members : List Form} {last : σ}
    (h : YieldsEach shape.member shape.start members (.ok last))
    (hstops : StopsEach shape.member members) :
    shape.read.FailsCut (Enclosed .object members) := by
  rintro spaces _ hs ⟨inner, hinner, rfl⟩
  have hclose : Bracket.object.close = ascii '}' := rfl
  refine onCuts_ahead (p := Truncated) rfl hs Bracket.object.isSpace_opening ?_
  exact onCuts_bind (onCuts_items hclose h hstops hinner) _

/-- A member that is cut is cut in its name, in front of its value, or in its value. -/
theorem stopsCut_member {shape : Shape σ α} {draft next : σ} {member : Member} {field : Field σ}
    (hfield : shape.field? member.1 = some field)
    (hmember : (shape.member draft).Yields member.form (.ok next))
    (hvalue : (field.read draft).StopsCut member.2) :
    (shape.member draft).StopsCut member.form := by
  intro spaces bytes hs hbytes
  have hset : ¬ field.isSet draft = true := by
    intro hset
    obtain ⟨_, _, _, _, hrun⟩ := run_member hs hbytes []
    rw [hmember hs hbytes ends_nil] at hrun
    simp only [hfield, if_pos hset] at hrun
    cases hrun
  obtain ⟨_, gap, spaces', back, ⟨inner, hinner, rfl⟩, hgap, hs', hback, rfl⟩ := hbytes
  have hquote : isSpace (ascii '"') = false := by decide
  have hcolon : isSpace (ascii ':') = false := by decide
  -- Behind the name and behind the colon the member is read as what is left of it.
  have hname : ∀ s, (shape.member draft).run (spaces ++ ascii '"' :: (inner ++ [ascii '"'] ++ s)) =
      (mark ':' >>= fun _ => field.read draft : Reader σ).run s := by
    intro s
    unfold Shape.member
    simp only [List.append_assoc, List.singleton_append, run_bind, run_ahead hs hquote, if_true,
      run_drop, List.tail_cons, hinner.run_textAfterQuote, hfield, if_neg hset]
  have hmark : ∀ s, (mark ':' >>= fun _ => field.read draft : Reader σ).run
      (gap ++ [ascii ':'] ++ s) = (field.read draft).run s := by
    intro s
    simp only [List.append_assoc, List.singleton_append, run_bind, run_mark hgap hcolon]
  refine onCuts_spaces (fun front hfront => .inl ((run_ahead_spaces hfront).bind _)) hs ?_
  refine .append (fun front rest heq hrest => .inl ?_) ?_
  · have hcut := hinner.onCuts_textAfterQuote heq hrest
    rw [Truncated] at hcut
    unfold Shape.member Truncated
    simp only [run_bind, run_ahead hs hquote, if_true, run_drop, List.tail_cons, hcut]
  · simp only [hname]
    rw [← List.singleton_append, ← List.append_assoc gap]
    refine .append (fun front rest heq hrest => .inl ?_) ?_
    · exact (onCuts_mark hgap hcolon heq hrest).bind _
    · simp only [hmark]
      exact hvalue hs' hback

def Stops (shape : Shape σ α) (member : Member) : Prop :=
  ∃ field, shape.field? member.1 = some field ∧ ∀ draft, (field.read draft).StopsCut member.2

theorem stops_field {shape : Shape σ α} {name : String} {get : σ → Option β} {set : σ → β → σ}
    {value : Reader β} {required : Bool} {form : Form}
    (hfield : shape.field? name = some (.of name get set value required))
    (hvalue : value.StopsCut form) : Stops shape (name, form) :=
  ⟨_, hfield, fun draft => hvalue.map (set draft)⟩

def noForm : Form := fun _ =>
  False

theorem yields_noForm (x : Reader α) (result : Except Fault α) : x.Yields noForm result :=
  fun _ _ _ _ h _ => h.elim

/-- **An object that is cut fails**, whatever the order of its members, if each of their values stops
at the cut, and there are no others. -/
theorem failsCut_object {shape : Shape σ α} {view : List String → σ} {known : List Member}
    (hknown : ReadsKnown shape view known (.ok ()))
    (hstops : ∀ member ∈ known, Stops shape member) :
    shape.read.FailsCut (ObjectText shape noForm known) := by
  rintro spaces bytes hs ⟨members, harranges, hbytes⟩
  obtain ⟨done, -, hmembers⟩ := harranges.exists_yieldsEach hknown (yields_noForm _ _)
  obtain ⟨others, hothers, hperm⟩ := harranges
  refine failsCut_read hmembers (fun form hform draft next hyields => ?_) hs hbytes
  obtain ⟨member, hmember, rfl⟩ := List.mem_map.mp hform
  rcases List.mem_append.mp (hperm.mem_iff.mp hmember) with hmember | hmember
  · obtain ⟨field, hfield, hvalue⟩ := hstops member hmember
    exact stopsCut_member hfield hyields (hvalue draft)
  · rintro _ _ _ ⟨_, _, _, back, -, -, -, hback, -⟩
    rw [(hothers member hmember).2] at hback
    exact hback.elim

theorem onCuts_literal (bytes : Bytes) : OnCuts Truncated (literal bytes).run bytes := by
  induction bytes with
  | nil => exact onCuts_nil
  | cons b bytes ih =>
      refine .cons rfl (ih.congr fun front _ _ => ?_)
      simp only [literal, run_bind, run_next_cons, if_true]

theorem failsCut_optional_null (value : Reader α) :
    (Reader.optional value).FailsCut Token.null.form := by
  rintro spaces _ hs rfl
  have hbytes : Token.null.bytes = ascii 'n' :: "ull".toList.map ascii := rfl
  have hcut : OnCuts Truncated (literal ("null".toList.map ascii)).run Token.null.bytes :=
    onCuts_literal _
  rw [hbytes] at hcut ⊢
  refine onCuts_ahead (p := Truncated) rfl hs (by decide) ?_
  simp only [if_true]
  exact fun front back heq hback => (hcut.tail heq hback).bind _

theorem stopsCut_optional {value : Reader α} {form : Form} (hform : form.IsNotNull)
    (h : value.StopsCut form) : (Reader.optional value).StopsCut form := by
  intro spaces bytes hs hbytes
  have hcut := h.map some isSpaces_nil hbytes
  obtain ⟨b, r, rfl, hb, hn⟩ := hform hbytes
  refine onCuts_ahead (p := Exhausted) (.inl rfl) hs hb ?_
  simp only [if_neg hn]
  exact OnCuts.tail hcut

end TraceTimeline.Json
