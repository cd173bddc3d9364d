import TraceTimeline.Proofs.Json.CutNumber
import TraceTimeline.Proofs.Json.FloatRoundTrip
import TraceTimeline.Proofs.Json.Nested
import TraceTimeline.Proofs.Json.QuotedText
import TraceTimeline.Proofs.Json.Squeezed

/-!
# What a spelling tells

Tokens are spelled one right behind the other, so a reader has to know from the spelling alone where
a value ends. `Tells x y P` says that the spellings of `x` and `y` can stand at the front of one text
only if `P` holds, and that they end at the same place then. Main statements: texts, natural numbers
and finite floats tell their values; brackets tell their items, and members that may be missing tell
which of them are there.
-/

namespace TraceTimeline.Json

open Number

variable {P Q : Prop} {x y : List Token}

def EndsNumber (s : List Char) : Prop :=
  ∀ c ∈ s.head?, isNumeralChar c = false

theorem endsNumber_nil : EndsNumber [] := by
  rintro _ ⟨⟩

theorem endsNumber_cons {c : Char} (hc : isNumeralChar c = false) (s : List Char) :
    EndsNumber (c :: s) := by
  intro d hd
  rw [← Option.some.inj hd]
  exact hc

/-- Where both spellings begin one text, `P` holds, and they end at the same place. -/
def Tells (x y : List Token) (P : Prop) : Prop :=
  ∀ ⦃rest rest' : List Char⦄, EndsNumber rest → EndsNumber rest' →
    spelled x ++ rest = spelled y ++ rest' → P ∧ rest = rest'

theorem spelled_cons (token : Token) (tokens : List Token) :
    spelled (token :: tokens) = token.spelling ++ spelled tokens :=
  List.flatMap_cons

theorem spelled_append (x y : List Token) : spelled (x ++ y) = spelled x ++ spelled y :=
  List.flatMap_append

namespace Tells

theorem imp (h : Tells x y P) (hpq : P → Q) : Tells x y Q := fun _ _ hrest hrest' heq =>
  (h hrest hrest' heq).imp_left hpq

theorem symm (h : Tells x y P) : Tells y x P := by
  intro rest rest' hrest hrest' heq
  obtain ⟨hp, hsame⟩ := h hrest' hrest heq.symm
  exact ⟨hp, hsame.symm⟩

/-- It is enough to see the value. The end follows then. -/
theorem of_forall {token token' : Token}
    (h : ∀ ⦃rest rest'⦄, EndsNumber rest → EndsNumber rest' →
      token.spelling ++ rest = token'.spelling ++ rest' → P ∧ token.spelling = token'.spelling) :
    Tells [token] [token'] P := by
  intro rest rest' hrest hrest' heq
  rw [spelled_cons, spelled_cons] at heq
  obtain ⟨hp, hsame⟩ := h hrest hrest' (by simpa [spelled] using heq)
  rw [hsame] at heq
  exact ⟨hp, List.append_cancel_left heq⟩

theorem cons (token : Token) (h : Tells x y P) : Tells (token :: x) (token :: y) P := by
  intro rest rest' hrest hrest' heq
  rw [spelled_cons, spelled_cons, List.append_assoc, List.append_assoc] at heq
  exact h hrest hrest' (List.append_cancel_left heq)

end Tells

/-! ## Texts and numbers -/

/-- A text tells what it stands for. -/
theorem tells_text (s t : String) : Tells [.text s] [.text t] (s = t) := by
  refine Tells.of_forall fun rest rest' _ _ heq => ?_
  obtain ⟨inner, hinner, hs⟩ := quotedText_bytes s
  obtain ⟨inner', hinner', ht⟩ := quotedText_bytes t
  have hread := hinner.run_textAfterQuote (rest.flatMap String.utf8EncodeChar)
  have hread' := hinner'.run_textAfterQuote (rest'.flatMap String.utf8EncodeChar)
  have hbytes := congrArg (List.flatMap String.utf8EncodeChar) heq
  rw [List.flatMap_append, List.flatMap_append, ← Token.bytes, ← Token.bytes, hs, ht] at hbytes
  simp only [List.cons_append, List.append_assoc, List.nil_append] at hbytes
  rw [(List.cons.inj hbytes).2, hread'] at hread
  obtain rfl : t = s := congrArg Prod.fst (Except.ok.inj hread)
  exact ⟨rfl, rfl⟩

/-- A number ends where its characters end. -/
theorem tells_numeral {token token' : Token} {numeral numeral' : Numeral}
    (h : NumeralText token.spelling numeral) (h' : NumeralText token'.spelling numeral')
    (hinj : token.spelling = token'.spelling → P) : Tells [token] [token'] P := by
  refine Tells.of_forall fun rest rest' hrest hrest' heq => ?_
  obtain ⟨hfront, -⟩ := takeWhile_append_of_head? h.isNumeralChar hrest
  obtain ⟨hfront', -⟩ := takeWhile_append_of_head? h'.isNumeralChar hrest'
  have hsame : token.spelling = token'.spelling := by rw [← hfront, heq, hfront']
  exact ⟨hinj hsame, hsame⟩

/-- A natural number tells its value. -/
theorem tells_natural (m n : ℕ) : Tells [.natural m] [.natural n] (m = n) := by
  refine tells_numeral (numeralText_naturalText m) (numeralText_naturalText n) fun hsame => ?_
  rw [← digitsValue_naturalText m, ← digitsValue_naturalText n]
  exact congrArg (fun s => digitsValue (digitValues s)) hsame

/-- **Different finite floats are written differently**: the digits of one would round to the
other. -/
theorem floatText_inj {a b : Float} (ha : a.isFinite = true) (hb : b.isFinite = true)
    (h : floatText a = floatText b) : a = b := by
  obtain ⟨negative, m, e, hparts⟩ := (isFinite_iff_ofFloat a).mp ha
  obtain ⟨negative', m', e', hparts'⟩ := (isFinite_iff_ofFloat b).mp hb
  obtain ⟨numeral, htext, rfl, hshows⟩ := numeralText_floatText hparts
  obtain ⟨numeral', htext', rfl, hshows'⟩ := numeralText_floatText hparts'
  obtain ⟨hstands, hfits, hshape⟩ := stands_of_ofFloat hparts
  obtain ⟨hstands', hfits', hshape'⟩ := stands_of_ofFloat hparts'
  rw [← h] at htext'
  obtain rfl := htext.unique htext'
  obtain ⟨n, k, hrounds, hvalue⟩ := exists_rounds_written (hshape.imp_left And.left) hfits
  obtain ⟨n', k', hrounds', hvalue'⟩ := exists_rounds_written (hshape'.imp_left And.left) hfits'
  rw [← hshows.decimal_eq, hshows'.decimal_eq] at hrounds
  have hsame : (m : ℚ) * 2 ^ e = m' * 2 ^ e' := by
    rw [← hvalue, ← hvalue', hrounds.eq_of_eq hrounds']
  rw [hsame] at hstands
  exact eq_of_stands hstands hstands'

/-- A finite float tells its value, the sign of a zero included. -/
theorem tells_float {a b : Float} (ha : a.isFinite = true) (hb : b.isFinite = true) :
    Tells [.float a] [.float b] (a = b) := by
  obtain ⟨numeral, htext⟩ := exists_numeralText_floatText ha
  obtain ⟨numeral', htext'⟩ := exists_numeralText_floatText hb
  exact tells_numeral htext htext' (floatText_inj ha hb)

/-! ## Members and brackets -/

theorem Tells.member {value value' : List Token} (h : Tells value value' P) (name : String) :
    Tells (memberTokens name value) (memberTokens name value') P :=
  (h.cons .colon).cons (.text name)

/-- Members of different names do not begin one text. -/
theorem tells_member_name (name name' : String) (value value' : List Token) {rest rest' : List Char}
    (h : spelled (memberTokens name value) ++ rest = spelled (memberTokens name' value') ++ rest') :
    name = name' := by
  have hcolon : isNumeralChar ':' = false := by decide
  have hfront : ∀ (name : String) (value : List Token) (rest : List Char),
      spelled (memberTokens name value) ++ rest =
        spelled [.text name] ++ (':' :: (spelled value ++ rest)) := by
    intro name value rest
    simp [memberTokens, spelled, Token.spelling]
  rw [hfront, hfront] at h
  exact (tells_text name name' (endsNumber_cons hcolon _) (endsNumber_cons hcolon _) h).1

section Items

variable {closing : Token} {items items' : List (List Token)}

/-- What `Tells` says, of the items that are left and the closing bracket. -/
def TellsItems (closing : Token) (items items' : List (List Token)) (P : Prop) : Prop :=
  Tells (behindCommas items ++ [closing]) (behindCommas items' ++ [closing]) P

def BeginsItem (item : List Token) : Prop :=
  ∃ c s, spelled item = c :: s ∧ c ≠ '\x7d' ∧ c ≠ ']'

theorem exists_spelling_of_isClosing (h : closing.isClosing = true) :
    ∃ c, closing.spelling = [c] ∧ c ≠ ',' ∧ isNumeralChar c = false ∧ (c = '\x7d' ∨ c = ']') := by
  cases closing with
  | closeObject => exact ⟨'\x7d', rfl, by decide, by decide, .inl rfl⟩
  | closeArray => exact ⟨']', rfl, by decide, by decide, .inr rfl⟩
  | openObject | openArray | comma | colon | null | text | natural | float => cases h

theorem spelled_behindCommas_cons (item : List Token) (items : List (List Token))
    (closing : Token) (rest : List Char) :
    spelled (behindCommas (item :: items) ++ [closing]) ++ rest =
      ',' :: (spelled item ++ (spelled (behindCommas items ++ [closing]) ++ rest)) := by
  rw [behindCommas_cons, List.cons_append, spelled_cons, List.append_assoc item, spelled_append,
    List.append_assoc, List.append_assoc]
  rfl

theorem endsNumber_behindItem (h : closing.isClosing = true) (items : List (List Token))
    (rest : List Char) : EndsNumber (spelled (behindCommas items ++ [closing]) ++ rest) := by
  obtain ⟨c, hspelling, -, hc, -⟩ := exists_spelling_of_isClosing h
  cases items with
  | nil =>
      rw [behindCommas, List.flatMap_nil, List.nil_append, spelled_cons, hspelling]
      exact endsNumber_cons hc _
  | cons item items =>
      rw [spelled_behindCommas_cons]
      exact endsNumber_cons (by decide) _

/-- An item does not begin like a bracket that is closed at once. -/
theorem BeginsItem.spelled_ne {item : List Token} (hitem : BeginsItem item)
    (h : closing.isClosing = true) (more : List Token) (rest rest' : List Char) :
    spelled [closing] ++ rest ≠ spelled (item ++ more) ++ rest' := by
  obtain ⟨c, hspelling, -, -, hc⟩ := exists_spelling_of_isClosing h
  obtain ⟨d, s, hd, hobject, harray⟩ := hitem
  intro heq
  rw [spelled_cons, hspelling, spelled_append, hd] at heq
  obtain rfl := (List.cons.inj heq).1
  exact hc.elim hobject harray

namespace TellsItems

theorem imp (h : TellsItems closing items items' P) (hpq : P → Q) :
    TellsItems closing items items' Q :=
  Tells.imp h hpq

theorem symm (h : TellsItems closing items items' P) : TellsItems closing items' items P :=
  Tells.symm h

theorem nil (closing : Token) : TellsItems closing [] [] True :=
  fun _ _ _ _ heq => ⟨trivial, List.append_cancel_left heq⟩

theorem cons (h : closing.isClosing = true) (hitem : Tells x y P)
    (hmore : TellsItems closing items items' Q) :
    TellsItems closing (x :: items) (y :: items') (P ∧ Q) := by
  intro rest rest' hrest hrest' heq
  rw [spelled_behindCommas_cons, spelled_behindCommas_cons] at heq
  obtain ⟨hp, hback⟩ := hitem (endsNumber_behindItem h items rest)
    (endsNumber_behindItem h items' rest') (List.cons.inj heq).2
  obtain ⟨hq, hend⟩ := hmore hrest hrest' hback
  exact ⟨⟨hp, hq⟩, hend⟩

/-- No items are told from some items. -/
theorem nil_cons (h : closing.isClosing = true) (y : List Token) (items' : List (List Token)) :
    TellsItems closing [] (y :: items') False := by
  obtain ⟨c, hspelling, hcomma, -, -⟩ := exists_spelling_of_isClosing h
  intro rest rest' _ _ heq
  rw [spelled_behindCommas_cons, behindCommas, List.flatMap_nil, List.nil_append, spelled_cons,
    hspelling] at heq
  exact absurd (List.cons.inj heq).1 hcomma

/-- Behind the opening bracket, where the first item has no comma. -/
theorem enclosed (h : TellsItems closing items items' P) (hclosing : closing.isClosing = true)
    (hitems : ∀ item ∈ items, BeginsItem item) (hitems' : ∀ item ∈ items', BeginsItem item)
    (opening : Token) :
    Tells (opening :: (separated items ++ [closing])) (opening :: (separated items' ++ [closing]))
      P := by
  refine Tells.cons opening fun rest rest' hrest hrest' heq => ?_
  cases items with
  | nil =>
      cases items' with
      | nil => exact h hrest hrest' heq
      | cons y items' =>
          rw [separated_cons, List.append_assoc] at heq
          exact absurd heq ((hitems' y List.mem_cons_self).spelled_ne hclosing _ rest rest')
  | cons x items =>
      cases items' with
      | nil =>
          rw [separated_cons, List.append_assoc] at heq
          exact absurd heq.symm ((hitems x List.mem_cons_self).spelled_ne hclosing _ rest' rest)
      | cons y items' =>
          -- With a comma in front, these are items that are left.
          refine h hrest hrest' ?_
          rw [separated_cons, separated_cons, List.append_assoc x, List.append_assoc y,
            spelled_append x, spelled_append y, List.append_assoc, List.append_assoc] at heq
          rw [spelled_behindCommas_cons, spelled_behindCommas_cons, heq]

/-- **Items of one kind** tell the values they are written for. -/
theorem map {α : Type} {encode : α → List Token} {as bs : List α}
    (hclosing : closing.isClosing = true)
    (h : ∀ a ∈ as, ∀ b ∈ bs, Tells (encode a) (encode b) (a = b)) :
    TellsItems closing (as.map encode) (bs.map encode) (as = bs) := by
  induction as generalizing bs with
  | nil =>
      cases bs with
      | nil => exact (nil closing).imp fun _ => rfl
      | cons b bs => exact (nil_cons hclosing _ _).imp False.elim
  | cons a as ih =>
      cases bs with
      | nil => exact (nil_cons hclosing _ _).symm.imp False.elim
      | cons b bs =>
          obtain ⟨ha, has⟩ := List.forall_mem_cons.mp h
          have hmore := ih fun a ha b hb => has a ha b (List.mem_cons_of_mem _ hb)
          refine (cons hclosing (ha b List.mem_cons_self) hmore).imp ?_
          rintro ⟨rfl, rfl⟩
          rfl

end TellsItems

theorem present_cons_none (name : String) (members : List (String × Option Token)) :
    present ((name, none) :: members) = present members :=
  rfl

theorem present_cons_some (name : String) (token : Token)
    (members : List (String × Option Token)) :
    present ((name, some token) :: members) = memberTokens name [token] :: present members :=
  rfl

theorem exists_of_mem_present {members : List (String × Option Token)} {item : List Token}
    (h : item ∈ present members) :
    ∃ name ∈ members.map Prod.fst, ∃ token, item = memberTokens name [token] := by
  obtain ⟨⟨name, value⟩, hmem, hvalue⟩ := List.mem_filterMap.mp h
  obtain ⟨token, -, rfl⟩ := Option.map_eq_some_iff.mp hvalue
  exact ⟨name, List.mem_map_of_mem hmem, token, rfl⟩

theorem beginsItem_member (name : String) (value : List Token) :
    BeginsItem (memberTokens name value) :=
  ⟨'"', _, rfl, by decide, by decide⟩

/-- Two values of one kind are told apart where both are there. -/
theorem tells_map {α : Type} {encode : α → Token}
    (h : ∀ a b, Tells [encode a] [encode b] (encode a = encode b)) (o o' : Option α) :
    ∀ v ∈ o.map encode, ∀ w ∈ o'.map encode, Tells [v] [w] (v = w) := by
  intro v hv w hw
  obtain ⟨a, -, rfl⟩ := Option.map_eq_some_iff.mp hv
  obtain ⟨b, -, rfl⟩ := Option.map_eq_some_iff.mp hw
  exact h a b

/-- A member that is there is told from one that is missing, if those behind it have other names. -/
theorem TellsItems.present_cons (hclosing : closing.isClosing = true) {name : String}
    {members : List (String × Option Token)} (hname : name ∉ members.map Prod.fst) (token : Token)
    (items' : List (List Token)) :
    TellsItems closing (present members) (memberTokens name [token] :: items') False := by
  cases hitems : present members with
  | nil => exact nil_cons hclosing _ _
  | cons item items =>
      have hmem : item ∈ present members := by
        rw [hitems]
        exact List.mem_cons_self
      obtain ⟨name', hname', token', rfl⟩ := exists_of_mem_present hmem
      intro rest rest' _ _ heq
      rw [spelled_behindCommas_cons, spelled_behindCommas_cons] at heq
      obtain rfl := tells_member_name name' name [token'] [token] (List.cons.inj heq).2
      exact absurd hname' hname

/-- **Members that may be missing** tell which of them are there, and their values, if all have
different names. -/
theorem TellsItems.present {members members' : List (String × Option Token)}
    (hclosing : closing.isClosing = true)
    (h : List.Forall₂ (fun left right => left.1 = right.1 ∧
      ∀ v ∈ left.2, ∀ w ∈ right.2, Tells [v] [w] (v = w)) members members')
    (hnodup : (members.map Prod.fst).Nodup) :
    TellsItems closing (Json.present members) (Json.present members') (members = members') := by
  induction h with
  | nil => exact (nil closing).imp fun _ => rfl
  | @cons left right members members' hhead hmore ih =>
      obtain ⟨name, value⟩ := left
      obtain ⟨_, value'⟩ := right
      obtain ⟨rfl, hvalue⟩ := hhead
      obtain ⟨hname, hrest⟩ := List.nodup_cons.mp hnodup
      have hnames : members.map Prod.fst = members'.map Prod.fst := by
        rw [← List.forall₂_eq_eq_eq, List.forall₂_map_left_iff, List.forall₂_map_right_iff]
        exact hmore.imp fun _ _ h => h.1
      -- Where one side lacks the member, the other shows a name that does not come again.
      cases value with
      | none =>
          cases value' with
          | none =>
              rw [present_cons_none, present_cons_none]
              refine (ih hrest).imp ?_
              rintro rfl
              rfl
          | some w =>
              rw [present_cons_none, present_cons_some]
              exact (present_cons hclosing hname w _).imp False.elim
      | some v =>
          cases value' with
          | none =>
              rw [present_cons_none, present_cons_some]
              rw [hnames] at hname
              exact (present_cons hclosing hname v _).symm.imp False.elim
          | some w =>
              rw [present_cons_some, present_cons_some]
              refine (cons hclosing ((hvalue v rfl w rfl).member name) (ih hrest)).imp ?_
              rintro ⟨rfl, rfl⟩
              rfl

end Items

end TraceTimeline.Json
