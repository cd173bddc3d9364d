import Mathlib.Data.List.Forall2
import TraceTimeline.Proofs.Json.Reading
import TraceTimeline.Timeline.Document

/-!
# Reading lists and objects

Items stand between brackets with commas between them, and each of them changes a state.
`YieldsEach item state items result` follows the state from item to item, up to the first fault. Main
statement: a list yields its items, and an object yields what its draft is finished to.
-/

namespace TraceTimeline.Json

open Reader

variable {α β σ : Type}

namespace Bracket

def opening : Bracket → UInt8
  | object => ascii '{'
  | array => ascii '['

variable (bracket : Bracket)

theorem isSpace_opening : isSpace bracket.opening = false := by
  cases bracket <;> decide

theorem beginsItem_opening : beginsItem bracket.opening = true := by
  cases bracket <;> decide

theorem isSpace_close : isSpace bracket.close = false := by
  cases bracket <;> decide

theorem close_ne_comma : bracket.close ≠ ascii ',' := by
  cases bracket <;> decide

theorem extendsNumber_close : extendsNumber bracket.close = false := by
  cases bracket <;> decide

/-- No item begins like a closing bracket. -/
theorem ne_close {b : UInt8} (hb : beginsItem b = true) : b ≠ bracket.close := by
  rintro rfl
  cases bracket <;> cases hb

end Bracket

inductive BehindItem (bracket : Bracket) : List Form → Form
  | close {spaces : Bytes} : IsSpaces spaces → BehindItem bracket [] (spaces ++ [bracket.close])
  | comma {spaces spaces' bytes rest : Bytes} {form : Form} {more : List Form} :
      IsSpaces spaces → IsSpaces spaces' → form bytes → BehindItem bracket more rest →
        BehindItem bracket (form :: more) (spaces ++ ascii ',' :: (spaces' ++ (bytes ++ rest)))

inductive BehindOpening (bracket : Bracket) : List Form → Form
  | close {spaces : Bytes} : IsSpaces spaces → BehindOpening bracket [] (spaces ++ [bracket.close])
  | item {spaces bytes rest : Bytes} {form : Form} {more : List Form} :
      IsSpaces spaces → form bytes → BehindItem bracket more rest →
        BehindOpening bracket (form :: more) (spaces ++ (bytes ++ rest))

def Enclosed (bracket : Bracket) (items : List Form) : Form := fun bytes =>
  ∃ inner, BehindOpening bracket items inner ∧ bytes = bracket.opening :: inner

theorem beginsItem_enclosed (bracket : Bracket) (items : List Form) :
    Form.BeginsItem (Enclosed bracket items) := by
  rintro _ ⟨inner, -, rfl⟩
  exact ⟨_, _, rfl, bracket.beginsItem_opening⟩

theorem ends_of_mark {b : UInt8} (hb : extendsNumber b = false) (rest : Bytes) :
    Ends (b :: rest) := by
  rintro _ ⟨⟩
  exact hb

/-- An item that is a number ends where the item does. -/
theorem BehindItem.ends {bracket : Bracket} {items : List Form} {bytes : Bytes}
    (h : BehindItem bracket items bytes) (rest : Bytes) : Ends (bytes ++ rest) := by
  cases h with
  | close hs =>
      rw [List.append_assoc]
      exact ends_of_spaces hs (ends_of_mark bracket.extendsNumber_close rest)
  | comma hs =>
      rw [List.append_assoc]
      exact ends_of_spaces hs (ends_of_mark (b := ascii ',') (by decide) _)

/-! ## Items -/

/-- Item by item, each from the state that the one before it leads to, the reader comes to the
result. -/
inductive YieldsEach (item : σ → Reader σ) : σ → List Form → Except Fault σ → Prop
  | nil {state : σ} : YieldsEach item state [] (.ok state)
  | cons {state next : σ} {form : Form} {more : List Form} {result : Except Fault σ} :
      form.BeginsItem → (item state).Yields form (.ok next) → YieldsEach item next more result →
        YieldsEach item state (form :: more) result
  | fault {state : σ} {form : Form} {more : List Form} {fault : Fault} :
      form.BeginsItem → (item state).Yields form (.error fault) →
        YieldsEach item state (form :: more) (.error fault)

theorem itemsAfter_cons {close b : UInt8} {item : σ → Reader σ} {state : σ} {s r : Bytes}
    (h : s.dropWhile isSpace = b :: r) :
    itemsAfter close item state s =
      if b = close then .ok (state, r)
      else if b = ascii ',' then
        match (item state).run r with
        | .error fault => .error fault
        | .ok (next, rest) => itemsAfter close item next rest
      else .error .malformed := by
  conv_lhs => rw [itemsAfter]
  split
  · rename_i hnil
    rw [h] at hnil
    cases hnil
  · rename_i b' t hb
    rw [h] at hb
    obtain ⟨rfl, rfl⟩ := List.cons.inj hb
    split_ifs
    · rfl
    · split
      · rename_i hrun
        rw [hrun]
      · rename_i hrun
        rw [hrun]
    · rfl

/-- A comma and the next item. -/
theorem itemsAfter_item {bracket : Bracket} {item : σ → Reader σ} {state : σ} {form : Form}
    {more : List Form} {first : Except Fault σ} (hitem : (item state).Yields form first)
    {spaces spaces' bytes back : Bytes} (hs : IsSpaces spaces) (hs' : IsSpaces spaces')
    (hbytes : form bytes) (hback : BehindItem bracket more back) (rest : Bytes) :
    itemsAfter bracket.close item state
        (spaces ++ ascii ',' :: (spaces' ++ (bytes ++ back)) ++ rest) =
      first.bind fun next => itemsAfter bracket.close item next (back ++ rest) := by
  have hdrop : (spaces ++ ascii ',' :: (spaces' ++ (bytes ++ back)) ++ rest).dropWhile isSpace =
      ascii ',' :: (spaces' ++ (bytes ++ (back ++ rest))) := by
    simp only [List.append_assoc, List.cons_append]
    exact dropWhile_spaces hs (by decide) _
  rw [itemsAfter_cons hdrop, if_neg bracket.close_ne_comma.symm, if_pos rfl,
    hitem hs' hbytes (hback.ends rest)]
  cases first <;> rfl

theorem run_itemsAfter {bracket : Bracket} {item : σ → Reader σ} {state : σ} {items : List Form}
    {result : Except Fault σ} (h : YieldsEach item state items result) {bytes : Bytes}
    (hbytes : BehindItem bracket items bytes) (rest : Bytes) :
    itemsAfter bracket.close item state (bytes ++ rest) = result.map fun a => (a, rest) := by
  -- Each item takes one comma and its own bytes; what is left stands behind that item.
  induction h generalizing bytes with
  | nil =>
      obtain ⟨hs⟩ := hbytes
      rw [List.append_assoc]
      exact (itemsAfter_cons (dropWhile_spaces hs bracket.isSpace_close rest)).trans (if_pos rfl)
  | cons _ hitem _ ih =>
      obtain _ | ⟨hs, hs', hbytes, hback⟩ := hbytes
      exact (itemsAfter_item hitem hs hs' hbytes hback rest).trans (ih hback)
  | fault _ hitem =>
      obtain _ | ⟨hs, hs', hbytes, hback⟩ := hbytes
      exact itemsAfter_item hitem hs hs' hbytes hback rest

/-- The first item, which has no comma in front of it. -/
theorem run_items_item {bracket : Bracket} {c : Char} (hc : bracket.close = ascii c)
    {item : σ → Reader σ} {state : σ} {form : Form} {more : List Form} {first : Except Fault σ}
    (hform : form.BeginsItem) (hitem : (item state).Yields form first)
    {spaces bytes back : Bytes} (hs : IsSpaces spaces) (hbytes : form bytes)
    (hback : BehindItem bracket more back) (rest : Bytes) :
    (Reader.items c item state).run (spaces ++ (bytes ++ back) ++ rest) =
      first.bind fun next => itemsAfter bracket.close item next (back ++ rest) := by
  have hrun := hitem isSpaces_nil hbytes (hback.ends rest)
  obtain ⟨b, r, rfl, hb⟩ := hform hbytes
  have hclose : ¬ b = ascii c := hc ▸ bracket.ne_close hb
  simp only [List.append_assoc, List.cons_append, List.nil_append] at hrun ⊢
  unfold Reader.items
  simp only [run_bind, run_ahead hs (isSpace_of_beginsItem hb), if_neg hclose, hrun, hc]
  cases first <;> rfl

/-- **Items between brackets**, from behind the opening one. -/
theorem run_items {bracket : Bracket} {c : Char} (hc : bracket.close = ascii c)
    {item : σ → Reader σ} {state : σ} {items : List Form} {result : Except Fault σ}
    (h : YieldsEach item state items result) {bytes : Bytes}
    (hbytes : BehindOpening bracket items bytes) (rest : Bytes) :
    (Reader.items c item state).run (bytes ++ rest) = result.map fun a => (a, rest) := by
  cases h with
  | nil =>
      obtain ⟨hs⟩ := hbytes
      have hspace := bracket.isSpace_close
      rw [hc] at hspace ⊢
      unfold Reader.items
      simp only [List.append_assoc, List.singleton_append, run_bind, run_ahead hs hspace, if_true,
        run_drop, List.tail_cons, run_pure, Except.map]
  | cons hform hitem hmore =>
      obtain _ | ⟨hs, hbytes, hback⟩ := hbytes
      rw [run_items_item hc hform hitem hs hbytes hback rest]
      exact run_itemsAfter hmore hback rest
  | fault hform hitem =>
      obtain _ | ⟨hs, hbytes, hback⟩ := hbytes
      exact run_items_item hc hform hitem hs hbytes hback rest

/-! ## Objects -/

def Shape.closed {α : Type} (shape : Shape σ α) (draft : σ) : Except Fault α :=
  match shape.finish draft with
  | some a => .ok a
  | none => .error .unfit

theorem yields_read {shape : Shape σ α} {members : List Form} {result : Except Fault σ}
    (h : YieldsEach shape.member shape.start members result) :
    shape.read.YieldsDelimited (Enclosed .object members) (result.bind shape.closed) := by
  rintro spaces _ rest hs ⟨inner, hinner, rfl⟩
  have hopen : isSpace (ascii '{') = false := by decide
  have hclose : Bracket.object.close = ascii '}' := rfl
  have hrun := run_ahead hs hopen (inner ++ rest)
  unfold Shape.read
  rw [List.cons_append]
  simp only [Bracket.opening, run_bind, hrun, if_true, run_drop, List.tail_cons,
    run_items hclose h hinner]
  cases result with
  | error fault => rfl
  | ok draft =>
      show (shape.close draft).run rest = (shape.closed draft).map _
      unfold Shape.close Shape.closed
      cases shape.finish draft <;> rfl

def MemberText (name value : Form) : Form := fun bytes =>
  ∃ front spaces spaces' back, name front ∧ IsSpaces spaces ∧ IsSpaces spaces' ∧ value back ∧
    bytes = front ++ (spaces ++ ascii ':' :: (spaces' ++ back))

abbrev Member := String × Form

def Member.form (member : Member) : Form :=
  MemberText (QuotedText member.1) member.2

theorem Member.beginsItem (member : Member) : member.form.BeginsItem := by
  rintro _ ⟨front, spaces, spaces', back, hname, -, -, -, rfl⟩
  obtain ⟨b, r, rfl, hb⟩ := beginsItem_quotedText member.1 hname
  exact ⟨b, _, rfl, hb⟩

/-- A member is read by its name. -/
theorem run_member {shape : Shape σ α} {draft : σ} {member : Member} {spaces bytes : Bytes}
    (hs : IsSpaces spaces) (hbytes : member.form bytes) (rest : Bytes) :
    ∃ spaces' back, IsSpaces spaces' ∧ member.2 back ∧
      (shape.member draft).run (spaces ++ (bytes ++ rest)) =
        match shape.field? member.1 with
        | some field =>
          if field.isSet draft then .error .unfit
          else (field.read draft).run (spaces' ++ (back ++ rest))
        | none => (skipValue.run (spaces' ++ (back ++ rest))).map fun skipped => (draft, skipped.2) := by
  obtain ⟨_, gap, spaces', back, ⟨inner, hinner, rfl⟩, hgap, hs', hback, rfl⟩ := hbytes
  refine ⟨spaces', back, hs', hback, ?_⟩
  have hsplit : spaces ++ (ascii '"' :: (inner ++ [ascii '"']) ++
      (gap ++ ascii ':' :: (spaces' ++ back)) ++ rest) =
      spaces ++ ascii '"' :: (inner ++ ascii '"' :: (gap ++ ascii ':' ::
        (spaces' ++ (back ++ rest)))) := by
    simp only [List.cons_append, List.append_assoc, List.nil_append]
  have hquote : isSpace (ascii '"') = false := by decide
  have hcolon : isSpace (ascii ':') = false := by decide
  unfold Shape.member
  simp only [hsplit, run_bind, run_ahead hs hquote, if_true, run_drop, List.tail_cons,
    hinner.run_textAfterQuote]
  cases shape.field? member.1 with
  | some field =>
      by_cases hset : field.isSet draft = true
      · simp only [if_pos hset, run_fail]
      · simp only [if_neg hset, run_bind, run_mark hgap hcolon]
  | none =>
      simp only [run_bind, run_mark hgap hcolon]
      cases skipValue.run (spaces' ++ (back ++ rest)) <;> rfl

/-- A member whose name is that of a field without a value. -/
theorem yields_member {shape : Shape σ α} {draft : σ} {member : Member} {field : Field σ}
    (hfield : shape.field? member.1 = some field) (hset : field.isSet draft = false)
    {result : Except Fault σ} (hvalue : (field.read draft).Yields member.2 result) :
    (shape.member draft).Yields member.form result := by
  intro spaces bytes rest hs hbytes hrest
  obtain ⟨spaces', back, hs', hback, hrun⟩ := run_member hs hbytes rest
  rw [hrun]
  simp only [hfield, hset, Bool.false_eq_true, if_false]
  exact hvalue hs' hback hrest

/-- A member that is no field leaves the draft as it is. -/
theorem yields_ignored {shape : Shape σ α} {draft : σ} {member : Member}
    (hfield : shape.field? member.1 = none) (hskip : skipValue.Yields member.2 (.ok ())) :
    (shape.member draft).Yields member.form (.ok draft) := by
  intro spaces bytes rest hs hbytes hrest
  obtain ⟨spaces', back, hs', hback, hrun⟩ := run_member hs hbytes rest
  rw [hrun]
  simp only [hfield, hskip hs' hback hrest, Except.map]

/-! ## Lists -/

theorem yieldsEach_add {value : Reader α} {form : β → Form} {result : β → Except Fault α}
    {entries : List β}
    (h : ∀ b ∈ entries, (form b).BeginsItem ∧ value.Yields (form b) (result b)) (found : Array α) :
    YieldsEach (fun found => do let a ← value; return found.push a) found (entries.map form)
      ((entries.mapM result).map fun more => found ++ more.toArray) := by
  -- The array filled so far is the state that the items change, so it varies along the list.
  induction entries generalizing found with
  | nil =>
      have hnil : ([] : List β).mapM result = Except.ok [] := List.mapM_nil
      rw [hnil]
      show YieldsEach _ found [] (.ok (found ++ #[]))
      rw [Array.append_empty]
      exact YieldsEach.nil
  | cons b entries ih =>
      obtain ⟨hform, hb⟩ := h b List.mem_cons_self
      have hitem := yields_map hb found.push
      have hmore := fun a => ih (fun b hb => h b (List.mem_cons_of_mem _ hb)) (found.push a)
      rw [List.map_cons, List.mapM_cons]
      cases hresult : result b with
      | error fault =>
          rw [hresult] at hitem
          exact YieldsEach.fault hform hitem
      | ok a =>
          rw [hresult] at hitem
          refine YieldsEach.cons hform hitem ?_
          have hpush : (entries.mapM result).map (fun more => found.push a ++ more.toArray) =
              ((do let rest ← entries.mapM result; pure (a :: rest)) : Except Fault (List α)).map
                fun more => found ++ more.toArray := by
            cases entries.mapM result with
            | error fault => rfl
            | ok rest => simp [Except.map, bind, Except.bind, pure, Except.pure]
          have h := hmore a
          rw [hpush] at h
          exact h

/-- **A list yields its items**, or the fault of the first that has one. -/
theorem yields_list {value : Reader α} {form : β → Form} {result : β → Except Fault α}
    {entries : List β}
    (h : ∀ b ∈ entries, (form b).BeginsItem ∧ value.Yields (form b) (result b)) :
    (Reader.list value).YieldsDelimited (Enclosed .array (entries.map form))
      (entries.mapM result) := by
  rintro spaces _ rest hs ⟨inner, hinner, rfl⟩
  have hopen : isSpace (ascii '[') = false := by decide
  have hrun := run_ahead hs hopen (inner ++ rest)
  have hclose : Bracket.array.close = ascii ']' := rfl
  have hitems := run_items hclose (yieldsEach_add h #[]) hinner rest
  unfold Reader.list
  rw [List.cons_append]
  simp only [Bracket.opening, run_bind, hrun, if_true, run_drop, List.tail_cons, hitems]
  cases entries.mapM result with
  | error fault => rfl
  | ok found => simp [Except.map]

/-! ## Written brackets -/

/-- Where the tokens are written, the bytes have the form. -/
def SpelledAs (tokens : List Token) (form : Form) : Prop :=
  ∀ ⦃tail : List Token⦄ ⦃bytes : Bytes⦄, Spells (tokens ++ tail) bytes →
    ∃ spaces front back, bytes = spaces ++ (front ++ back) ∧ IsSpaces spaces ∧ form front ∧
      Spells tail back

theorem spelledAs_token {token : Token} {form : Form} (h : form token.bytes) :
    SpelledAs [token] form := by
  intro tail bytes hbytes
  obtain ⟨spaces, rest, rfl, hs, hrest⟩ := hbytes.exists_cons
  exact ⟨spaces, token.bytes, rest, rfl, hs, h, hrest⟩

theorem SpelledAs.imp {tokens : List Token} {form form' : Form} (h : SpelledAs tokens form)
    (himp : ∀ ⦃bytes⦄, form bytes → form' bytes) : SpelledAs tokens form' := by
  intro tail bytes hbytes
  obtain ⟨spaces, front, back, heq, hs, hfront, hback⟩ := h hbytes
  exact ⟨spaces, front, back, heq, hs, himp hfront, hback⟩

theorem spelledAs_member {name : String} {value : List Token} {form : Form}
    (h : SpelledAs value form) : SpelledAs (memberTokens name value) (Member.form (name, form)) := by
  intro tail bytes hbytes
  obtain ⟨spaces, _, rfl, hs, hbytes⟩ := hbytes.exists_cons
  obtain ⟨gap, _, rfl, hgap, hbytes⟩ := hbytes.exists_cons
  obtain ⟨spaces', back, rest, rfl, hs', hback, hrest⟩ := h hbytes
  refine ⟨spaces, _, rest, ?_, hs,
    ⟨_, gap, spaces', back, quotedText_bytes name, hgap, hs', hback, rfl⟩, hrest⟩
  simp only [List.append_assoc, List.cons_append]
  rfl

def behindCommas (items : List (List Token)) : List Token :=
  items.flatMap fun tokens => .comma :: tokens

theorem behindCommas_cons (tokens : List Token) (more : List (List Token)) :
    behindCommas (tokens :: more) = .comma :: (tokens ++ behindCommas more) :=
  List.flatMap_cons

theorem separated_cons (tokens : List Token) (more : List (List Token)) :
    separated (tokens :: more) = tokens ++ behindCommas more := by
  induction more generalizing tokens with
  | nil => simp [separated, behindCommas]
  | cons next more ih =>
      have h := ih next
      rw [separated] at h ⊢
      rw [List.intersperse_cons_cons, List.flatten_cons, List.flatten_cons, h, behindCommas_cons]
      rfl

theorem spelledAs_behindItem {bracket : Bracket} {closing : Token}
    (hclosing : closing.bytes = [bracket.close]) {items : List (List Token)} {forms : List Form}
    (h : List.Forall₂ SpelledAs items forms) {tail : List Token} {bytes : Bytes}
    (hbytes : Spells (behindCommas items ++ closing :: tail) bytes) :
    ∃ front back, bytes = front ++ back ∧ BehindItem bracket forms front ∧ Spells tail back := by
  induction h generalizing bytes with
  | nil =>
      obtain ⟨spaces, back, rfl, hs, hback⟩ := hbytes.exists_cons
      refine ⟨spaces ++ [bracket.close], back, ?_, BehindItem.close hs, hback⟩
      rw [hclosing, List.append_assoc]
  | @cons tokens form items forms hitem _ ih =>
      rw [behindCommas_cons, List.cons_append, List.append_assoc] at hbytes
      obtain ⟨spaces, _, rfl, hs, hbytes⟩ := hbytes.exists_cons
      obtain ⟨spaces', front, _, rfl, hs', hfront, hbytes⟩ := hitem hbytes
      obtain ⟨more, back, rfl, hmore, hback⟩ := ih hbytes
      refine ⟨_, back, ?_, BehindItem.comma hs hs' hfront hmore, hback⟩
      simp only [List.append_assoc, List.cons_append]
      rfl

theorem spelledAs_behindOpening {bracket : Bracket} {closing : Token}
    (hclosing : closing.bytes = [bracket.close]) {items : List (List Token)} {forms : List Form}
    (h : List.Forall₂ SpelledAs items forms) {tail : List Token} {bytes : Bytes}
    (hbytes : Spells (separated items ++ closing :: tail) bytes) :
    ∃ front back, bytes = front ++ back ∧ BehindOpening bracket forms front ∧
      Spells tail back := by
  cases h with
  | nil =>
      obtain ⟨front, back, rfl, ⟨hs⟩, hback⟩ := spelledAs_behindItem hclosing .nil hbytes
      exact ⟨_, back, rfl, BehindOpening.close hs, hback⟩
  | cons hitem hitems =>
      rw [separated_cons, List.append_assoc] at hbytes
      obtain ⟨spaces, front, _, rfl, hs, hfront, hbytes⟩ := hitem hbytes
      obtain ⟨more, back, rfl, hmore, hback⟩ := spelledAs_behindItem hclosing hitems hbytes
      refine ⟨_, back, ?_, BehindOpening.item hs hfront hmore, hback⟩
      simp only [List.append_assoc]

theorem spelledAs_enclosed {bracket : Bracket} {opening closing : Token}
    (hopening : opening.bytes = [bracket.opening]) (hclosing : closing.bytes = [bracket.close])
    {items : List (List Token)} {forms : List Form} (h : List.Forall₂ SpelledAs items forms) :
    SpelledAs (opening :: (separated items ++ [closing])) (Enclosed bracket forms) := by
  intro tail bytes hbytes
  rw [List.cons_append, List.append_assoc] at hbytes
  obtain ⟨spaces, _, rfl, hs, hbytes⟩ := hbytes.exists_cons
  obtain ⟨inner, back, rfl, hinner, hback⟩ := spelledAs_behindOpening hclosing h hbytes
  refine ⟨spaces, _, back, ?_, hs, ⟨inner, hinner, rfl⟩, hback⟩
  rw [hopening]
  rfl

theorem spelledAs_object {members : List (List Token)} {forms : List Form}
    (h : List.Forall₂ SpelledAs members forms) :
    SpelledAs (objectTokens members) (Enclosed .object forms) :=
  spelledAs_enclosed rfl rfl h

theorem spelledAs_array {items : List (List Token)} {forms : List Form}
    (h : List.Forall₂ SpelledAs items forms) :
    SpelledAs (arrayTokens items) (Enclosed .array forms) :=
  spelledAs_enclosed rfl rfl h

/-- **A rendered document has the form of its tokens**, whichever layout it has. -/
theorem SpelledAs.render {tokens : List Token} {form : Form} (h : SpelledAs tokens form)
    (style : Style) :
    ∃ spaces bytes, Bytes.ofText (Json.render style tokens) = spaces ++ bytes ∧ IsSpaces spaces ∧
      form bytes := by
  have hbytes := spells_render style tokens
  generalize Bytes.ofText (Json.render style tokens) = bytes at hbytes
  rw [← List.append_nil tokens] at hbytes
  obtain ⟨spaces, front, back, rfl, hs, hfront, hback⟩ := h hbytes
  cases hback
  exact ⟨spaces, front, by rw [List.append_nil], hs, hfront⟩

end TraceTimeline.Json
