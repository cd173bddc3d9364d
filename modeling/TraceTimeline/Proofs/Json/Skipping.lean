import TraceTimeline.Proofs.Json.Nested

/-!
# Skipping any value

`ValueText` is the grammar of JSON: scalars, and to any depth arrays of values and objects whose
members have values. It asks no more of texts than the skipping reader does, which looks neither at
the bytes beyond ASCII nor at surrogates. Main statement: the reader skips exactly one value.
-/

namespace TraceTimeline.Json

open Reader

inductive StringTail : Form
  | close : StringTail [ascii '"']
  | plain {b : UInt8} {rest : Bytes} : IsPlain b → StringTail rest → StringTail (b :: rest)
  | short {letter c : Char} {rest : Bytes} : (letter, c) ∈ shortEscapes → StringTail rest →
      StringTail (ascii '\\' :: ascii letter :: rest)
  | unit {n : Nat} {bytes rest : Bytes} : UnitText n bytes → StringTail rest →
      StringTail (ascii '\\' :: ascii 'u' :: (bytes ++ rest))

def StringText : Form := fun bytes =>
  ∃ tail, StringTail tail ∧ bytes = ascii '"' :: tail

inductive ScalarText : Form
  | word {word : String} : word ∈ ["null", "true", "false"] → ScalarText (word.toList.map ascii)
  | number {s : List Char} {numeral : Numeral} : NumeralText s numeral → ScalarText (s.map ascii)
  | text {bytes : Bytes} : StringText bytes → ScalarText bytes

/-- A value as it stands between brackets: in an object it has a name. -/
def Bracket.item : Bracket → Form → Form
  | .object, value => MemberText StringText value
  | .array, value => value

/-- Any JSON value. -/
inductive ValueText : Form
  | scalar {bytes : Bytes} : ScalarText bytes → ValueText bytes
  | nested {bracket : Bracket} {values : List Form} {bytes : Bytes} :
      (∀ value ∈ values, ∀ bytes, value bytes → ValueText bytes) →
        Enclosed bracket (values.map bracket.item) bytes → ValueText bytes

theorem StringTail.run_skipAfterQuote {tail : Bytes} (h : StringTail tail) (rest : Bytes) :
    skipAfterQuote.run (tail ++ rest) = .ok ((), rest) := by
  suffices hquoted : ∀ taken, ∃ bytes, quotedFrom (do let _ ← hexUnit; return []) taken
      (tail ++ rest) = .ok (bytes, rest) by
    obtain ⟨bytes, hbytes⟩ := hquoted []
    have hrun : (quotedBy (do let _ ← hexUnit; return [])).run (tail ++ rest) = .ok (bytes, rest) :=
      hbytes
    unfold skipAfterQuote
    simp only [run_bind, hrun, run_pure]
  induction h with
  | close => exact fun taken => ⟨_, quotedFrom_quote _ taken rest⟩
  | @plain b tail hb _ ih =>
      intro taken
      have hplain : ∀ c ∈ [b], IsPlain c := by simpa using hb
      obtain ⟨bytes, hbytes⟩ := ih ([b].reverse ++ taken)
      exact ⟨bytes, (quotedFrom_plain hplain taken (tail ++ rest)).trans hbytes⟩
  | @short letter c tail hmem _ ih =>
      intro taken
      obtain ⟨hu, hshort, -⟩ := shortEscape?_of_mem hmem
      obtain ⟨bytes, hbytes⟩ := ih ([ascii c].reverse ++ taken)
      exact ⟨bytes, (quotedFrom_escape (run_escapedBy_short hu hshort _ _)).trans hbytes⟩
  | @unit n digits tail hunit _ ih =>
      intro taken
      obtain ⟨bytes, hbytes⟩ := ih ([].reverse ++ taken)
      have hrun : (do let _ ← hexUnit; return [] : Reader Bytes).run (digits ++ (tail ++ rest)) =
          .ok ([], tail ++ rest) := by
        simp only [run_bind, hunit.run_hexUnit, run_pure]
      have hescape := (run_escapedBy_unicode _ _).trans hrun
      rw [List.cons_append, List.cons_append, List.append_assoc]
      exact ⟨bytes, (quotedFrom_escape hescape).trans hbytes⟩

theorem ScalarText.exists_cons {bytes : Bytes} (h : ScalarText bytes) :
    ∃ b r, bytes = b :: r ∧ beginsItem b = true ∧ b ≠ ascii '{' ∧ b ≠ ascii '[' := by
  cases h with
  | word hword =>
      simp only [List.mem_cons, List.not_mem_nil, or_false] at hword
      rcases hword with rfl | rfl | rfl <;> exact ⟨_, _, rfl, by decide, by decide, by decide⟩
  | number hs =>
      obtain ⟨b, r, hbytes, hb⟩ := hs.exists_cons
      refine ⟨b, r, hbytes, beginsItem_of_startsNumber hb, ?_, ?_⟩
      · rintro rfl
        cases hb
      · rintro rfl
        cases hb
  | text htext =>
      obtain ⟨tail, -, rfl⟩ := htext
      exact ⟨_, _, rfl, by decide, by decide, by decide⟩

theorem ScalarText.run_skipScalar {bytes rest : Bytes} (h : ScalarText bytes) (hrest : Ends rest) :
    skipScalar.run (bytes ++ rest) = .ok ((), rest) := by
  cases h with
  | word hword =>
      simp only [List.mem_cons, List.not_mem_nil, or_false] at hword
      rcases hword with rfl | rfl | rfl <;> rfl
  | @number s numeral hs =>
      have hread := run_read hs hrest .malformed
      obtain ⟨b, r, hbytes, hb⟩ := hs.exists_cons
      have hmark : ∀ c ∈ ['"', 'n', 't', 'f'], b ≠ ascii c := by
        rintro c hc rfl
        simp only [List.mem_cons, List.not_mem_nil, or_false] at hc
        rcases hc with rfl | rfl | rfl | rfl <;> cases hb
      simp only [List.forall_mem_cons, List.not_mem_nil, false_implies, implies_true, and_true]
        at hmark
      obtain ⟨hquote, hn, ht, hf⟩ := hmark
      rw [hbytes, List.cons_append] at hread ⊢
      have hahead := run_ahead isSpaces_nil (isSpace_of_startsNumber hb) (r ++ rest)
      rw [List.nil_append] at hahead
      unfold skipScalar
      simp only [run_bind, hahead, if_neg hquote, if_neg hn, if_neg ht, if_neg hf, hread, run_pure]
  | text htext =>
      obtain ⟨tail, htail, rfl⟩ := htext
      have hahead := run_ahead isSpaces_nil (b := ascii '"') (by decide) (tail ++ rest)
      rw [List.nil_append] at hahead
      unfold skipScalar
      rw [List.cons_append]
      simp only [run_bind, hahead, if_true, run_drop, List.tail_cons,
        htail.run_skipAfterQuote]

/-! ## Steps of a skip -/

variable {state : SkipState} {bracket : Bracket} {stack : List Bracket} {s r : Bytes} {b : UInt8}

/-- What a skip does at the first byte that is no blank, which it never reads behind the outermost
value. -/
def skipAt (state : SkipState) (stack : List Bracket) (b : UInt8) (r : Bytes) :
    Except Fault (Unit × Bytes) :=
  match state, stack with
  | .value, stack =>
    if b = ascii '{' then skipFrom (.opened .object) stack r
    else if b = ascii '[' then skipFrom (.opened .array) stack r
    else skipScalar.run (b :: r) >>= fun read => skipFrom .ended stack read.2
  | .opened bracket, stack =>
    if b = bracket.close then skipFrom .ended stack r
    else bracket.lead.run (b :: r) >>= fun read => skipFrom .value (bracket :: stack) read.2
  | .ended, [] => .ok ((), b :: r)
  | .ended, bracket :: outer =>
    if b = bracket.close then skipFrom .ended outer r
    else if b = ascii ',' then
      bracket.lead.run r >>= fun read => skipFrom .value (bracket :: outer) read.2
    else .error .malformed

theorem skipFrom_eq_skipAt (hinside : state = .ended → stack ≠ [])
    (h : s.dropWhile isSpace = b :: r) : skipFrom state stack s = skipAt state stack b r := by
  fun_cases skipFrom state stack s <;> simp_all [skipAt, bind, Except.bind]

theorem skipFrom_nested (h : s.dropWhile isSpace = bracket.opening :: r) :
    skipFrom .value stack s = skipFrom (.opened bracket) stack r := by
  rw [skipFrom_eq_skipAt (by simp) h, skipAt]
  cases bracket with
  | object => exact if_pos rfl
  | array => exact (if_neg (by decide)).trans (if_pos rfl)

/-! ## Whole values -/

/-- In a skip, the bytes of the form take the place of one value. -/
def Skips (form : Form) : Prop :=
  ∀ ⦃spaces bytes rest : Bytes⦄ (stack : List Bracket), IsSpaces spaces → form bytes → Ends rest →
    skipFrom .value stack (spaces ++ (bytes ++ rest)) = skipFrom .ended stack rest

/-- In front of a value inside a bracket stands what the bracket asks for. -/
theorem Bracket.run_lead {value : Form} {spaces bytes : Bytes}
    (hs : IsSpaces spaces) (hbytes : bracket.item value bytes) (rest : Bytes) :
    ∃ spaces' back, IsSpaces spaces' ∧ value back ∧
      bracket.lead.run (spaces ++ (bytes ++ rest)) = .ok ((), spaces' ++ (back ++ rest)) := by
  cases bracket with
  | array => exact ⟨spaces, bytes, hs, hbytes, rfl⟩
  | object =>
      obtain ⟨_, gap, spaces', back, ⟨tail, htail, rfl⟩, hgap, hs', hback, rfl⟩ := hbytes
      refine ⟨spaces', back, hs', hback, ?_⟩
      have hsplit : spaces ++ (ascii '"' :: tail ++ (gap ++ ascii ':' :: (spaces' ++ back)) ++ rest)
          = spaces ++ ascii '"' :: (tail ++ (gap ++ ascii ':' :: (spaces' ++ (back ++ rest)))) := by
        simp only [List.cons_append, List.append_assoc]
      have hquote : isSpace (ascii '"') = false := by decide
      have hcolon : isSpace (ascii ':') = false := by decide
      unfold Bracket.lead
      simp only [hsplit, run_bind, run_mark hs hquote, htail.run_skipAfterQuote,
        run_mark hgap hcolon]

theorem Bracket.beginsItem_item {value : Form} (h : value.BeginsItem) :
    (bracket.item value).BeginsItem := by
  cases bracket with
  | array => exact h
  | object =>
      rintro _ ⟨_, gap, spaces, back, ⟨tail, -, rfl⟩, -, -, -, rfl⟩
      exact ⟨_, _, rfl, by decide⟩

theorem skipFrom_behindItem {values : List Form}
    (hvalues : ∀ value ∈ values, Skips value) {bytes : Bytes}
    (hbytes : BehindItem bracket (values.map bracket.item) bytes) (stack : List Bracket)
    (rest : Bytes) :
    skipFrom .ended (bracket :: stack) (bytes ++ rest) = skipFrom .ended stack rest := by
  induction values generalizing bytes with
  | nil =>
      obtain ⟨hs⟩ := hbytes
      rw [List.append_assoc]
      have hclose := dropWhile_spaces hs bracket.isSpace_close rest
      exact (skipFrom_eq_skipAt (by simp) hclose).trans (if_pos rfl)
  | cons value values ih =>
      obtain ⟨hvalue, hvalues⟩ := List.forall_mem_cons.mp hvalues
      obtain _ | ⟨hs, hs', hbytes, hmore⟩ := hbytes
      rename_i spaces spaces' bytes more
      have hsplit : spaces ++ ascii ',' :: (spaces' ++ (bytes ++ more)) ++ rest =
          spaces ++ ascii ',' :: (spaces' ++ (bytes ++ (more ++ rest))) := by
        simp only [List.append_assoc, List.cons_append]
      obtain ⟨gap, back, hgap, hback, hlead⟩ := bracket.run_lead hs' hbytes (more ++ rest)
      rw [hsplit, skipFrom_eq_skipAt (by simp) (dropWhile_spaces hs (by decide) _), skipAt,
        if_neg bracket.close_ne_comma.symm, if_pos rfl, hlead]
      exact (hvalue _ hgap hback (hmore.ends rest)).trans (ih hvalues hmore)

theorem skips_enclosed {values : List Form}
    (hvalues : ∀ value ∈ values, value.BeginsItem ∧ Skips value) :
    Skips (Enclosed bracket (values.map bracket.item)) := by
  rintro spaces _ rest stack hs ⟨inner, hinner, rfl⟩ -
  rw [List.cons_append,
    skipFrom_nested (dropWhile_spaces hs bracket.isSpace_opening (inner ++ rest))]
  cases values with
  | nil =>
      obtain ⟨hs'⟩ := hinner
      rw [List.append_assoc]
      have hclose := dropWhile_spaces hs' bracket.isSpace_close rest
      exact (skipFrom_eq_skipAt (by simp) hclose).trans (if_pos rfl)
  | cons value values =>
      obtain ⟨⟨hbegin, hvalue⟩, hvalues⟩ := List.forall_mem_cons.mp hvalues
      obtain _ | ⟨hs', hbytes, hmore⟩ := hinner
      rename_i spaces' bytes more
      obtain ⟨gap, back, hgap, hback, hlead⟩ :=
        bracket.run_lead isSpaces_nil hbytes (more ++ rest)
      obtain ⟨b, r, rfl, hb⟩ := Bracket.beginsItem_item hbegin hbytes
      have hdrop : (spaces' ++ (b :: r ++ more) ++ rest).dropWhile isSpace =
          b :: (r ++ (more ++ rest)) := by
        simp only [List.append_assoc, List.cons_append]
        exact dropWhile_spaces hs' (isSpace_of_beginsItem hb) _
      rw [skipFrom_eq_skipAt (by simp) hdrop, skipAt, if_neg (bracket.ne_close hb)]
      rw [List.nil_append, List.cons_append] at hlead
      rw [hlead]
      refine (hvalue _ hgap hback (hmore.ends rest)).trans ?_
      exact skipFrom_behindItem (fun value hmem => (hvalues value hmem).2) hmore stack rest

theorem beginsItem_valueText : Form.BeginsItem ValueText := by
  intro bytes h
  cases h with
  | scalar h =>
      obtain ⟨b, r, hbytes, hb, -, -⟩ := h.exists_cons
      exact ⟨b, r, hbytes, hb⟩
  | nested _ h => exact beginsItem_enclosed _ _ h

/-- **A skip takes exactly one value**, however deep it is nested. -/
theorem skips_valueText : Skips ValueText := by
  intro spaces bytes rest stack hs hbytes hrest
  -- The induction is on the grammar: the items of a bracket are skipped one by one, each with that
  -- bracket on the stack.
  induction hbytes generalizing spaces rest stack with
  | scalar h =>
      obtain ⟨b, r, rfl, hb, hobject, harray⟩ := h.exists_cons
      have hrun := h.run_skipScalar hrest
      rw [List.cons_append] at hrun ⊢
      rw [skipFrom_eq_skipAt (by simp) (dropWhile_spaces hs (isSpace_of_beginsItem hb) _), skipAt,
        if_neg hobject, if_neg harray, hrun]
      rfl
  | nested hvalues henclosed ih =>
      refine skips_enclosed (fun value hmem => ⟨?_, ?_⟩) stack hs henclosed hrest
      · exact fun bytes hbytes => beginsItem_valueText (hvalues value hmem bytes hbytes)
      · exact fun spaces bytes rest stack hs hbytes hrest =>
          ih value hmem bytes hbytes stack hs hrest

theorem yields_skipValue : skipValue.Yields ValueText (.ok ()) := by
  intro spaces bytes rest hs hbytes hrest
  show skipFrom .value [] _ = _
  rw [skips_valueText [] hs hbytes hrest, skipFrom]
  rfl

end TraceTimeline.Json
