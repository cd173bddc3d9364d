import TraceTimeline.Command.DocumentFile
import TraceTimeline.Proofs.Json.AnyOrder
import TraceTimeline.Proofs.Json.Skipping
import TraceTimeline.Proofs.Trace.FirstFault

/-!
# The reader does not care about presentation

A timeline has many documents. Its members may stand in any order, with any white space and with
other members between them, and an argument that is not known may be left out or written as `null`.
`TimelineText` is the grammar of these documents. Main statement: all of them are read as the one
that is written.
-/

namespace TraceTimeline

open Json Json.Reader

variable {α σ : Type}

/-- How a value that may be missing is presented: as what it is, not at all, or as `null`. -/
inductive Shown (name : String) (form : α → Form) : Option α → List Member → Prop
  | known (a : α) : Shown name form (some a) [(name, form a)]
  | omitted : Shown name form none []
  | null : Shown name form none [(name, Token.null.form)]

/-- Arguments. Members that are no fields have values of the form `other`, here and below. -/
def ArgsText (other : Form) (args : Args) : Form := fun bytes =>
  ∃ operation segment offset length,
    Shown "operation" QuotedText args.operation operation ∧
    Shown "segment" (fun n : UInt64 => (Token.natural n.toNat).form) args.segment segment ∧
    Shown "offset" (fun n : UInt64 => (Token.natural n.toNat).form) args.offset offset ∧
    Shown "length" (fun n : UInt64 => (Token.natural n.toNat).form) args.length length ∧
    ObjectText Args.shape other (operation ++ (segment ++ (offset ++ length))) bytes

def Event.presented (other : Form) (event : Event) : List Member :=
  [("name", QuotedText event.name), ("cat", QuotedText event.category),
    ("ts", (Token.float event.timestamp).form), ("pid", (Token.natural event.rank.toNat).form),
    ("tid", (Token.natural event.track.toNat).form), ("ph", QuotedText event.phase.letter),
    ("args", ArgsText other event.args)]

def EventText (other : Form) (event : Event) : Form :=
  ObjectText Event.shape other (event.presented other)

def TimelineText (other : Form) (timeline : Timeline) : Form :=
  ObjectText Timeline.shape other
    [(eventsName, Enclosed .array (timeline.events.map (EventText other)))]

/-- The bytes are a document of the timeline, with any JSON values in members that are no fields, and
with white space around it. -/
def Timeline.IsPresentedBy (timeline : Timeline) (bytes : Bytes) : Prop :=
  ∃ front document back, IsSpaces front ∧ TimelineText ValueText timeline document ∧
    IsSpaces back ∧ bytes = front ++ (document ++ back)

theorem Phase.ofLetter?_letter (phase : Phase) : Phase.ofLetter? phase.letter = some phase := by
  cases phase <;> decide

theorem yields_phase (phase : Phase) :
    Phase.reader.Yields (QuotedText phase.letter) (.ok phase) := by
  intro spaces bytes rest hs hbytes hrest
  have hletter := yields_text phase.letter isSpaces_nil hbytes hrest
  obtain ⟨inner, -, rfl⟩ := hbytes
  have hquote : isSpace (ascii '"') = false := by decide
  rw [List.nil_append, List.cons_append] at hletter
  rw [List.cons_append]
  unfold Phase.reader
  simp only [run_bind, run_ahead hs hquote, if_true, hletter, Except.map,
    Phase.ofLetter?_letter, run_pure]

/-! ## What has been read -/

def seen (name : String) (done : List String) (a : α) : Option α :=
  if name ∈ done then some a else none

variable {name next : String} {done : List String}

theorem seen_of_mem (h : name ∈ done) (a : α) : seen name done a = some a :=
  if_pos h

theorem seen_of_not_mem (h : name ∉ done) (a : α) : seen name done a = none :=
  if_neg h

theorem seen_cons_self (name : String) (done : List String) (a : α) :
    seen name (name :: done) a = some a :=
  seen_of_mem List.mem_cons_self a

theorem seen_cons_of_ne (h : name ≠ next) (done : List String) (a : α) :
    seen name (next :: done) a = seen name done a := by
  simp only [seen, List.mem_cons, h, false_or]

def Args.seen (args : Args) (done : List String) : Args.Draft where
  operation := TraceTimeline.seen "operation" done args.operation
  segment := TraceTimeline.seen "segment" done args.segment
  offset := TraceTimeline.seen "offset" done args.offset
  length := TraceTimeline.seen "length" done args.length

theorem isView_args (args : Args) : IsView Args.shape args.seen where
  start := rfl
  ignore {name} hname done := by
    have hnames : Args.shape.names = ["operation", "segment", "offset", "length"] := rfl
    simp only [hnames, List.mem_cons, List.not_mem_nil, or_false, not_or] at hname
    obtain ⟨h₁, h₂, h₃, h₄⟩ := hname
    simp only [Args.seen, seen_cons_of_ne (Ne.symm h₁), seen_cons_of_ne (Ne.symm h₂),
      seen_cons_of_ne (Ne.symm h₃), seen_cons_of_ne (Ne.symm h₄)]

/-- However the value is shown, its members are read. -/
theorem Shown.forall_mem {form : α → Form} {known : Option α} {members : List Member}
    {p : Member → Prop} (h : Shown name form known members)
    (hknown : ∀ a, known = some a → p (name, form a))
    (hnull : known = none → p (name, Token.null.form)) : ∀ member ∈ members, p member := by
  cases h with
  | known a => exact List.forall_mem_singleton.mpr (hknown a rfl)
  | omitted => exact List.forall_mem_nil p
  | null => exact List.forall_mem_singleton.mpr (hnull rfl)

theorem Shown.reads {shape : Shape σ α} {view : List String → σ} {β : Type}
    {get : σ → Option (Option β)} {set : σ → Option β → σ} {value : Reader β}
    {form : β → Form} {known : Option β} {members : List Member} (h : Shown name form known members)
    (hfield : shape.field? name = some (.of name get set (Reader.optional value) false))
    (hvalue : ∀ a, (Reader.optional value).Yields (form a) (.ok (some a)))
    (hget : ∀ done, name ∉ done → get (view done) = none)
    (hset : ∀ done, set (view done) known = view (name :: done)) :
    ∀ member ∈ members, Reads shape view member (.ok ()) := by
  refine h.forall_mem (fun a hknown => ?_) fun hknown => ?_
  · exact reads_value hfield (hvalue a) hget (hknown ▸ hset)
  · exact reads_value hfield (yields_optional_null value) hget (hknown ▸ hset)

theorem Shown.names_sublist {form : α → Form} {known : Option α} {members : List Member}
    (h : Shown name form known members) : (members.map Prod.fst).Sublist [name] := by
  cases h with
  | known | null => exact List.Sublist.refl _
  | omitted => exact List.nil_sublist _

/-- Behind all members, a value is what it has been shown as. -/
theorem Shown.join_seen {form : α → Form} {known : Option α} {members : List Member}
    (h : Shown name form known members) (hdone : ∀ member ∈ members, member.1 ∈ done) :
    (seen name done known).join = known := by
  cases h with
  | known | null => rw [seen_of_mem (hdone _ List.mem_cons_self), Option.join_some]
  | omitted =>
      unfold seen
      split <;> rfl

/-- All members that arguments are presented by are read. -/
theorem readsKnown_args {args : Args} {operation segment offset length : List Member}
    (h₁ : Shown "operation" QuotedText args.operation operation)
    (h₂ : Shown "segment" (fun n : UInt64 => (Token.natural n.toNat).form) args.segment segment)
    (h₃ : Shown "offset" (fun n : UInt64 => (Token.natural n.toNat).form) args.offset offset)
    (h₄ : Shown "length" (fun n : UInt64 => (Token.natural n.toNat).form) args.length length) :
    ReadsKnown Args.shape args.seen (operation ++ (segment ++ (offset ++ length))) (.ok ()) := by
  refine ⟨isView_args args, ?_, fun member hmem => .inl ?_, .inl rfl⟩
  · have hnames := h₁.names_sublist.append
      (h₂.names_sublist.append (h₃.names_sublist.append h₄.names_sublist))
    simp only [← List.map_append] at hnames
    exact hnames.nodup (by decide)
  · revert member
    simp only [List.forall_mem_append]
    refine ⟨?_, ?_, ?_, ?_⟩
    · exact h₁.reads rfl yields_optional_text (fun _ h => seen_of_not_mem h _) fun _ => by
        simp [Args.seen, seen]
    · exact h₂.reads rfl yields_optional_uint64 (fun _ h => seen_of_not_mem h _) fun _ => by
        simp [Args.seen, seen]
    · exact h₃.reads rfl yields_optional_uint64 (fun _ h => seen_of_not_mem h _) fun _ => by
        simp [Args.seen, seen]
    · exact h₄.reads rfl yields_optional_uint64 (fun _ h => seen_of_not_mem h _) fun _ => by
        simp [Args.seen, seen]

theorem yields_args {other : Form} (hother : skipValue.Yields other (.ok ())) (args : Args) :
    Args.shape.read.YieldsDelimited (ArgsText other args) (.ok args) := by
  rintro spaces bytes rest hs ⟨operation, segment, offset, length, h₁, h₂, h₃, h₄, hbytes⟩
  refine yields_object (readsKnown_args h₁ h₂ h₃ h₄) hother (fun done hdone => ?_) rest hs hbytes
  simp only [List.forall_mem_append] at hdone
  obtain ⟨hdone₁, hdone₂, hdone₃, hdone₄⟩ := hdone
  simp only [Shape.closed, Args.shape, Args.seen, h₁.join_seen hdone₁, h₂.join_seen hdone₂,
    h₃.join_seen hdone₃, h₄.join_seen hdone₄]

def Event.reread (event : Event) : Except Fault Event :=
  (Json.reread event.timestamp).map fun x => { event with timestamp := x }

def Event.seen (event : Event) (done : List String) : Event.Draft where
  name := TraceTimeline.seen "name" done event.name
  category := TraceTimeline.seen "cat" done event.category
  timestamp := TraceTimeline.seen "ts" done event.timestamp
  rank := TraceTimeline.seen "pid" done event.rank
  track := TraceTimeline.seen "tid" done event.track
  phase := TraceTimeline.seen "ph" done event.phase
  args := TraceTimeline.seen "args" done event.args

theorem isView_event (event : Event) : IsView Event.shape event.seen where
  start := rfl
  ignore {name} hname done := by
    have hnames : Event.shape.names = ["name", "cat", "ts", "pid", "tid", "ph", "args"] := rfl
    simp only [hnames, List.mem_cons, List.not_mem_nil, or_false, not_or] at hname
    obtain ⟨h₁, h₂, h₃, h₄, h₅, h₆, h₇⟩ := hname
    simp only [Event.seen, seen_cons_of_ne (Ne.symm h₁), seen_cons_of_ne (Ne.symm h₂),
      seen_cons_of_ne (Ne.symm h₃), seen_cons_of_ne (Ne.symm h₄), seen_cons_of_ne (Ne.symm h₅),
      seen_cons_of_ne (Ne.symm h₆), seen_cons_of_ne (Ne.symm h₇)]

/-- All members of an event can be read; its time is read as it is alone. -/
theorem readsKnown_event {other : Form} (hother : skipValue.Yields other (.ok ())) {event : Event}
    {x : Float} (hx : ∀ y, Json.reread event.timestamp = .ok y → y = x) :
    ReadsKnown Event.shape (Event.seen { event with timestamp := x }) (event.presented other)
      ((Json.reread event.timestamp).map fun _ => ()) := by
  have htime : Reads Event.shape (Event.seen { event with timestamp := x })
      ("ts", (Token.float event.timestamp).form)
      ((Json.reread event.timestamp).map fun _ => ()) := by
    refine reads_field rfl (yields_float _) (fun _ h => seen_of_not_mem h _) fun y hy done => ?_
    rw [hx y hy]
    simp [Event.seen, seen]
  have hnames : (event.presented other).map Prod.fst =
      ["name", "cat", "ts", "pid", "tid", "ph", "args"] := rfl
  refine ⟨isView_event _, by rw [hnames]; decide, ?_, .inr ⟨_, ?_, htime⟩⟩
  · simp only [Event.presented, List.forall_mem_cons, List.not_mem_nil, false_implies,
      implies_true, and_true]
    refine ⟨.inl ?_, .inl ?_, .inr htime, .inl ?_, .inl ?_, .inl ?_, .inl ?_⟩
    · exact reads_value rfl (yields_text _) (fun _ h => seen_of_not_mem h _) fun _ => by
        simp [Event.seen, seen]
    · exact reads_value rfl (yields_text _) (fun _ h => seen_of_not_mem h _) fun _ => by
        simp [Event.seen, seen]
    · exact reads_value rfl (yields_uint32 _) (fun _ h => seen_of_not_mem h _) fun _ => by
        simp [Event.seen, seen]
    · exact reads_value rfl (yields_uint32 _) (fun _ h => seen_of_not_mem h _) fun _ => by
        simp [Event.seen, seen]
    · exact reads_value rfl (yields_phase _) (fun _ h => seen_of_not_mem h _) fun _ => by
        simp [Event.seen, seen]
    · exact reads_value rfl (yields_args hother _).yields (fun _ h => seen_of_not_mem h _) fun _ => by
        simp [Event.seen, seen]
  · simp [Event.presented]

/-- **An event is read back**, with its time as that is read alone. -/
theorem yields_event {other : Form} (hother : skipValue.Yields other (.ok ())) (event : Event) :
    Event.shape.read.YieldsDelimited (EventText other event) event.reread := by
  have hevent : ∀ x, (∀ y, Json.reread event.timestamp = .ok y → y = x) →
      Event.shape.read.YieldsDelimited (EventText other event)
        (((Json.reread event.timestamp).map fun _ => ()).bind fun _ =>
          .ok { event with timestamp := x }) := by
    intro x hx
    refine yields_object (readsKnown_event hother hx) hother fun done hdone => ?_
    simp only [Event.presented, List.forall_mem_cons, List.not_mem_nil, false_implies,
      implies_true, and_true] at hdone
    obtain ⟨h₁, h₂, h₃, h₄, h₅, h₆, h₇⟩ := hdone
    simp only [Shape.closed, Event.shape, Event.seen, seen_of_mem h₁, seen_of_mem h₂,
      seen_of_mem h₃, seen_of_mem h₄, seen_of_mem h₅, seen_of_mem h₆, seen_of_mem h₇]
    rfl
  unfold Event.reread
  cases hx : Json.reread event.timestamp with
  | error fault =>
      have h := hevent event.timestamp fun y hy => by rw [hx] at hy; cases hy
      rw [hx] at h
      exact h
  | ok x =>
      have h := hevent x fun y hy => by rw [hx] at hy; exact (Except.ok.inj hy).symm
      rw [hx] at h
      exact h

/-! ## Timelines -/

/-- All elements of a list are mapped exactly if each is. -/
theorem exists_mapM_iff {β ε : Type} (f : α → Except ε β) (good : β → Prop) (xs : List α) :
    (∃ ys, xs.mapM f = .ok ys ∧ ∀ y ∈ ys, good y) ↔ ∀ x ∈ xs, ∃ y, f x = .ok y ∧ good y := by
  induction xs with
  | nil =>
      constructor
      · exact fun _ _ h => absurd h List.not_mem_nil
      · exact fun _ => ⟨[], rfl, fun _ h => absurd h List.not_mem_nil⟩
  | cons x xs ih =>
      rw [List.forall_mem_cons, ← ih, List.mapM_cons]
      constructor
      · rintro ⟨ys, hys, hgood⟩
        cases hx : f x with
        | error fault =>
            rw [hx] at hys
            cases hys
        | ok y =>
            rw [hx] at hys
            cases hxs : xs.mapM f with
            | error fault =>
                rw [hxs] at hys
                cases hys
            | ok more =>
                rw [hxs] at hys
                cases hys
                obtain ⟨hy, hmore⟩ := List.forall_mem_cons.mp hgood
                exact ⟨⟨y, rfl, hy⟩, more, rfl, hmore⟩
      · rintro ⟨⟨y, hy, hgood⟩, more, hmore, hgoods⟩
        refine ⟨y :: more, ?_, List.forall_mem_cons.mpr ⟨hgood, hgoods⟩⟩
        rw [hy, hmore]
        rfl

theorem isView_timeline (events : List Event) :
    IsView Timeline.shape fun done => seen eventsName done events where
  start := rfl
  ignore {name} hname done := by
    have hnames : Timeline.shape.names = [eventsName] := rfl
    rw [hnames, List.mem_singleton] at hname
    exact seen_cons_of_ne (Ne.symm hname) done events

theorem yields_events {other : Form} (hother : skipValue.Yields other (.ok ()))
    (timeline : Timeline) :
    (Reader.list Event.shape.read).YieldsDelimited
      (Enclosed .array (timeline.events.map (EventText other)))
      (timeline.events.mapM Event.reread) :=
  yields_list fun event _ => ⟨beginsItem_objectText _ _ _, (yields_event hother event).yields⟩

/-- The member with the events is read, or comes to the fault of the first that has one. -/
theorem readsKnown_timeline {other : Form} (hother : skipValue.Yields other (.ok ()))
    {timeline : Timeline} {events : List Event}
    (hfound : ∀ found, timeline.events.mapM Event.reread = .ok found → found = events) :
    ReadsKnown Timeline.shape (fun done => seen eventsName done events)
      [(eventsName, Enclosed .array (timeline.events.map (EventText other)))]
      ((timeline.events.mapM Event.reread).map fun _ => ()) := by
  have hmember : Reads Timeline.shape (fun done => seen eventsName done events)
      (eventsName, Enclosed .array (timeline.events.map (EventText other)))
      ((timeline.events.mapM Event.reread).map fun _ => ()) := by
    refine reads_field rfl (yields_events hother timeline).yields (fun _ h => seen_of_not_mem h _)
      fun found h done => ?_
    rw [hfound found h, seen_cons_self]
  refine ⟨isView_timeline events, by simp, fun member hmem => .inr ?_,
    .inr ⟨_, List.mem_cons_self, hmember⟩⟩
  rwa [List.mem_singleton.mp hmem]

/-- **A timeline is read event by event**, whatever document it has. -/
theorem yields_timeline {other : Form} (hother : skipValue.Yields other (.ok ()))
    (timeline : Timeline) :
    Timeline.shape.read.YieldsDelimited (TimelineText other timeline)
      ((timeline.events.mapM Event.reread).map Timeline.mk) := by
  have htimeline : ∀ events, (∀ found, timeline.events.mapM Event.reread = .ok found →
      found = events) → Timeline.shape.read.YieldsDelimited (TimelineText other timeline)
        (((timeline.events.mapM Event.reread).map fun _ => ()).bind fun _ => .ok ⟨events⟩) := by
    intro events hfound
    refine yields_object (readsKnown_timeline hother hfound) hother fun done hdone => ?_
    simp only [Shape.closed, Timeline.shape, seen_of_mem (hdone _ List.mem_cons_self),
      Option.map_some]
  cases hresult : timeline.events.mapM Event.reread with
  | error fault =>
      have h := htimeline [] fun found hfound => by rw [hresult] at hfound; cases hfound
      rw [hresult] at h
      exact h
  | ok events =>
      have h := htimeline events fun found hfound => by
        rw [hresult] at hfound
        exact (Except.ok.inj hfound).symm
      rw [hresult] at h
      exact h

theorem Timeline.IsPresentedBy.ofJson {timeline : Timeline} {bytes : Bytes}
    (h : timeline.IsPresentedBy bytes) :
    Timeline.ofJson bytes = (timeline.events.mapM Event.reread).map Timeline.mk := by
  obtain ⟨front, document, back, hfront, hdocument, hback, rfl⟩ := h
  exact readAll_of_yields (yields_timeline yields_skipValue timeline).yields hfront hdocument hback

/-! ## The document that is written -/

/-- Of the values that may be missing, those are written that are known. -/
theorem forall₂_written (name : String) {token : α → Token} {form : α → Form}
    (h : ∀ a, SpelledAs [token a] (form a)) (known : Option α)
    {members : List (String × Option Token)} {forms : List Member}
    (hmore : List.Forall₂ SpelledAs (present members) (forms.map Member.form)) :
    List.Forall₂ SpelledAs (present ((name, known.map token) :: members))
      (((known.toList.map fun a => (name, form a)) ++ forms).map Member.form) := by
  cases known with
  | none => exact hmore
  | some a => exact List.Forall₂.cons (spelledAs_member (h a)) hmore

theorem shown_toList (name : String) (form : α → Form) (known : Option α) :
    Shown name form known (known.toList.map fun a => (name, form a)) := by
  cases known with
  | none => exact Shown.omitted
  | some a => exact Shown.known a

theorem spelledAs_text (s : String) : SpelledAs [.text s] (QuotedText s) :=
  spelledAs_token (quotedText_bytes s)

theorem spelledAs_natural (n : UInt64) :
    SpelledAs [.natural n.toNat] (Token.natural n.toNat).form :=
  spelledAs_token rfl

theorem spelledAs_args (other : Form) (args : Args) :
    SpelledAs args.tokens (ArgsText other args) := by
  -- The members are put in front one by one, the last argument first.
  have hnil : List.Forall₂ SpelledAs (present []) (([] : List Member).map Member.form) := .nil
  have hmembers := forall₂_written "operation" spelledAs_text args.operation
    (forall₂_written "segment" spelledAs_natural args.segment
      (forall₂_written "offset" spelledAs_natural args.offset
        (forall₂_written "length" spelledAs_natural args.length hnil)))
  rw [List.append_nil] at hmembers
  refine (spelledAs_object hmembers).imp fun bytes hbytes => ?_
  exact ⟨_, _, _, _, shown_toList _ _ _, shown_toList _ _ _, shown_toList _ _ _,
    shown_toList _ _ _, objectText_of_enclosed hbytes⟩

theorem spelledAs_event (other : Form) (event : Event) :
    SpelledAs event.tokens (EventText other event) := by
  have hmembers : List.Forall₂ SpelledAs event.members
      ((event.presented other).map Member.form) := by
    refine .cons (spelledAs_member (spelledAs_text _)) ?_
    refine .cons (spelledAs_member (spelledAs_text _)) ?_
    refine .cons (spelledAs_member (spelledAs_token rfl)) ?_
    refine .cons (spelledAs_member (spelledAs_token rfl)) ?_
    refine .cons (spelledAs_member (spelledAs_token rfl)) ?_
    refine .cons (spelledAs_member (spelledAs_text _)) ?_
    refine .cons (spelledAs_member (spelledAs_args other _)) ?_
    exact .nil
  exact (spelledAs_object hmembers).imp fun bytes hbytes => objectText_of_enclosed hbytes

theorem spelledAs_timeline (other : Form) (timeline : Timeline) :
    SpelledAs timeline.tokens (TimelineText other timeline) := by
  have hevents : List.Forall₂ SpelledAs (timeline.events.map Event.tokens)
      (timeline.events.map (EventText other)) :=
    List.forall₂_map_left_iff.mpr (List.forall₂_map_right_iff.mpr
      (List.forall₂_same.mpr fun event _ => spelledAs_event other event))
  refine (spelledAs_object (.cons (spelledAs_member (spelledAs_array hevents)) .nil)).imp ?_
  exact fun bytes hbytes => objectText_of_enclosed hbytes

/-- What is written is one of the documents of the timeline. -/
theorem Timeline.isPresentedBy_toJson (style : Style) (timeline : Timeline) :
    timeline.IsPresentedBy (Bytes.ofText (timeline.toJson style)) := by
  obtain ⟨spaces, document, hbytes, hs, hdocument⟩ :=
    (spelledAs_timeline ValueText timeline).render style
  refine ⟨spaces, document, [], hs, hdocument, isSpaces_nil, ?_⟩
  rw [List.append_nil]
  exact hbytes

/-! ## Documents in files -/

/-- A file that can be read is loaded as what its content spells; loading changes nothing. -/
theorem Timeline.load_of_read {path : Path} {session : Session} {bytes : Bytes}
    (h : session.files.read path = .ok bytes) :
    (Timeline.load path : ExceptT DocumentError (StateM Session) Timeline) session =
      ((Timeline.ofJson bytes).mapError .json, session) := by
  have hread : (Surroundings.readFile path : StateM Session (Except ReadFault Bytes)) session =
      (.ok bytes, session) := congrArg (·, session) h
  unfold Timeline.load
  simp only [bind, ExceptT.bind, ExceptT.mk, StateT.bind, liftM, monadLift, MonadLift.monadLift,
    ExceptT.lift, Functor.map, StateT.map, hread, ExceptT.bindCont, pure]
  cases Timeline.ofJson bytes <;> rfl

/-- **Presentation makes no difference**: every document of a timeline is loaded as the one that is
written, in either layout and wherever the two are. -/
theorem Timeline.load_of_isPresentedBy {timeline : Timeline} {bytes : Bytes}
    (h : timeline.IsPresentedBy bytes) (style : Style) {session session' : Session}
    {path path' : Path}
    (hwritten : session.files.read path = .ok (Bytes.ofText (timeline.toJson style)))
    (hpresented : session'.files.read path' = .ok bytes) :
    (Timeline.load path' : ExceptT DocumentError (StateM Session) Timeline) session' =
      (((Timeline.load path : ExceptT DocumentError (StateM Session) Timeline) session).1,
        session') := by
  rw [Timeline.load_of_read hwritten, Timeline.load_of_read hpresented, h.ofJson,
    (timeline.isPresentedBy_toJson style).ofJson]

/-- Members backwards, white space, an argument that is `null`, and members that are no fields, two
of them with one name and one of them nested: the event is loaded all the same. -/
theorem load_of_shuffled_event :
    let event : Event :=
      { name := "a", category := "c", timestamp := 1.5, rank := 0, track := 1, phase := .opens
        args := { operation := some "write" } }
    let timeline : Timeline := ⟨[event]⟩
    let bytes := Bytes.ofText ("\x7b\"x\":[\x7b\"y\":null\x7d,true],\"traceEvents\": [\x7b\"x\":null," ++
      "\"x\":\x7b\x7d,\"args\":\x7b\"offset\":null,\"operation\":\"write\"\x7d,\"ph\":\"B\"," ++
      "\"tid\":1,\"pid\":0,\"ts\":1.5,\"cat\":\"c\",\"name\":\"a\"\x7d]\x7d\n")
    let session : Session :=
      { files := ⟨[(["a.json"], .file (Bytes.ofText (timeline.toJson .pretty))),
          (["b.json"], .file bytes)], []⟩ }
    let load (path : Path) : ExceptT DocumentError (StateM Session) Timeline := Timeline.load path
    timeline.IsPresentedBy bytes ∧ load ⟨"/a.json"⟩ session = (.ok timeline, session) ∧
      load ⟨"/b.json"⟩ session = ((load ⟨"/a.json"⟩ session).1, session) := by
  intro event timeline bytes session load
  have hnil := isSpaces_nil
  have hnull : ValueText _ := .scalar (@ScalarText.word "null" (by decide))
  have htrue : ValueText _ := .scalar (@ScalarText.word "true" (by decide))
  have hempty : ValueText _ := @ValueText.nested .object [] _ nofun ⟨_, .close hnil, rfl⟩
  have hy : StringText _ :=
    ⟨_, .plain (b := ascii 'y') ⟨by decide, by decide, by decide⟩ .close, rfl⟩
  have hobject : ValueText _ :=
    @ValueText.nested .object [ValueText] _ (by simp)
      ⟨_, .item hnil ⟨_, _, _, _, hy, hnil, hnil, hnull, rfl⟩ (.close hnil), rfl⟩
  have harray : ValueText _ :=
    @ValueText.nested .array [ValueText, ValueText] _ (by simp)
      ⟨_, .item hnil hobject (.comma hnil hnil htrue (.close hnil)), rfl⟩
  have hmember : ∀ {name : String} {value : Form} {spaces back : Bytes}, IsSpaces spaces →
      value back →
      Member.form (name, value) ((Token.text name).bytes ++ ([] ++ ascii ':' :: (spaces ++ back))) :=
    fun hs hback => ⟨_, _, _, _, quotedText_bytes _, hnil, hs, hback, rfl⟩
  have hargs : ArgsText ValueText event.args _ :=
    ⟨_, _, _, _, .known "write", .omitted, .null, .omitted, _, ⟨[], nofun, .swap _ _ _⟩, _,
      .item hnil (hmember hnil rfl) (.comma hnil hnil (hmember hnil (quotedText_bytes _))
        (.close hnil)), rfl⟩
  have hx : "x" ∉ Event.shape.names := by decide
  have hevent : EventText ValueText event _ :=
    ⟨_, ⟨[("x", ValueText), ("x", ValueText)], by simp [hx], List.reverse_perm _⟩, _,
      .item hnil (hmember hnil hnull) (.comma hnil hnil (hmember hnil hempty)
        (.comma hnil hnil (hmember hnil hargs) (.comma hnil hnil (hmember hnil (quotedText_bytes _))
        (.comma hnil hnil (hmember hnil rfl) (.comma hnil hnil (hmember hnil rfl)
        (.comma hnil hnil (hmember hnil rfl) (.comma hnil hnil (hmember hnil (quotedText_bytes _))
        (.comma hnil hnil (hmember hnil (quotedText_bytes _)) (.close hnil))))))))), rfl⟩
  have hspace : ∀ b, isSpace b = true → IsSpaces [b] := by
    rintro b hb _ hmem
    rwa [List.mem_singleton.mp hmem]
  have hx' : "x" ∉ Timeline.shape.names := by decide
  have hdocument : TimelineText ValueText timeline _ :=
    ⟨_, ⟨[("x", ValueText)], by simp [hx'], .swap _ _ _⟩, _,
      .item hnil (hmember hnil harray) (.comma hnil hnil
        (hmember (hspace (ascii ' ') (by decide)) ⟨_, .item hnil hevent (.close hnil), rfl⟩)
        (.close hnil)), rfl⟩
  have hpresented : timeline.IsPresentedBy bytes :=
    ⟨[], _, _, hnil, hdocument, hspace (ascii '\n') (by decide), by decide +kernel⟩
  have hread : Json.reread 1.5 = .ok 1.5 := eq_ok_of_toOption (by decide +kernel)
  refine ⟨hpresented, ?_, Timeline.load_of_isPresentedBy hpresented .pretty rfl rfl⟩
  refine (Timeline.load_of_read rfl).trans ?_
  rw [(timeline.isPresentedBy_toJson .pretty).ofJson, List.mapM_cons, Event.reread, hread]
  rfl
end TraceTimeline
