import TraceTimeline.Proofs.Json.CutNumber
import TraceTimeline.Proofs.Timeline.Presentation

/-!
# Documents that are cut off, and documents with something behind them

A timeline is an object, so its document is complete only with the last bracket, and behind that
bracket nothing but white space may follow. Main statement: a written document that can be loaded
fails wherever it is cut, as an input that ends too early, and fails with anything but white space
behind it, as one that is malformed.
-/

namespace TraceTimeline

open Json Json.Reader

variable {α σ : Type} {name : String}

theorem failsCut_phase (phase : Phase) : Phase.reader.FailsCut (QuotedText phase.letter) := by
  intro spaces bytes hs hbytes
  have hcut := failsCut_text phase.letter isSpaces_nil hbytes
  obtain ⟨inner, -, rfl⟩ := hbytes
  refine onCuts_ahead (p := Truncated) rfl hs (by decide) ?_
  simp only [if_true]
  exact fun front back heq hback => (hcut.tail heq hback).bind _

theorem stopsCut_optional_text (s : String) :
    (Reader.optional Reader.text).StopsCut (QuotedText s) :=
  stopsCut_optional (isNotNull_quotedText s) (failsCut_text s).stopsCut

theorem stopsCut_optional_uint64 (n : UInt64) :
    (Reader.optional Reader.uint64).StopsCut (Token.natural n.toNat).form :=
  stopsCut_optional (isNotNull_natural n.toNat) (stopsCut_uint64 n)

/-- However the value is shown, its members stop where they are cut. -/
theorem Shown.stops {shape : Shape σ α} {β : Type} {get : σ → Option (Option β)}
    {set : σ → Option β → σ} {value : Reader β} {form : β → Form} {known : Option β}
    {members : List Member} (h : Shown name form known members)
    (hfield : shape.field? name = some (.of name get set (Reader.optional value) false))
    (hvalue : ∀ a, (Reader.optional value).StopsCut (form a)) :
    ∀ member ∈ members, Stops shape member :=
  h.forall_mem (fun a _ => stops_field hfield (hvalue a)) fun _ =>
    stops_field hfield (failsCut_optional_null value).stopsCut

theorem failsCut_args (args : Args) : Args.shape.read.FailsCut (ArgsText noForm args) := by
  rintro spaces bytes hs ⟨operation, segment, offset, length, h₁, h₂, h₃, h₄, hbytes⟩
  refine failsCut_object (readsKnown_args h₁ h₂ h₃ h₄) ?_ hs hbytes
  simp only [List.forall_mem_append]
  refine ⟨?_, ?_, ?_, ?_⟩
  · exact h₁.stops rfl stopsCut_optional_text
  · exact h₂.stops rfl stopsCut_optional_uint64
  · exact h₃.stops rfl stopsCut_optional_uint64
  · exact h₄.stops rfl stopsCut_optional_uint64

/-- An event whose time can be read fails wherever it is cut. -/
theorem failsCut_event {event found : Event} (h : event.reread = .ok found) :
    Event.shape.read.FailsCut (EventText noForm event) := by
  obtain ⟨x, hx⟩ : ∃ x, Json.reread event.timestamp = .ok x := by
    unfold Event.reread at h
    cases hx : Json.reread event.timestamp with
    | error fault => rw [hx] at h; cases h
    | ok x => exact ⟨x, rfl⟩
  have hknown := @readsKnown_event noForm (yields_noForm _ _) event x fun y hy =>
    Except.ok.inj (hy.symm.trans hx)
  rw [hx] at hknown
  refine failsCut_object hknown ?_
  simp only [Event.presented, List.forall_mem_cons, List.not_mem_nil, false_implies,
    implies_true, and_true]
  refine ⟨?_, ?_, ?_, ?_, ?_, ?_, ?_⟩
  · exact stops_field rfl (failsCut_text _).stopsCut
  · exact stops_field rfl (failsCut_text _).stopsCut
  · exact stops_field rfl (stopsCut_float (isFinite_of_reread_eq_ok hx))
  · exact stops_field rfl (stopsCut_uint32 _)
  · exact stops_field rfl (stopsCut_uint32 _)
  · exact stops_field rfl (failsCut_phase _).stopsCut
  · exact stops_field rfl (failsCut_args _).stopsCut

/-- **A timeline that can be read fails wherever it is cut.** -/
theorem failsCut_timeline {timeline : Timeline} {found : List Event}
    (h : timeline.events.mapM Event.reread = .ok found) :
    Timeline.shape.read.FailsCut (TimelineText noForm timeline) := by
  have hknown := @readsKnown_timeline noForm (yields_noForm _ _) timeline found fun other hother =>
    Except.ok.inj (hother.symm.trans h)
  rw [h] at hknown
  refine failsCut_object hknown fun member hmem => ?_
  rw [List.mem_singleton.mp hmem]
  refine stops_field rfl (failsCut_list h (fun event _ => ?_) fun event hevent => ?_).stopsCut
  · exact ⟨beginsItem_objectText _ _ _, (yields_event (yields_noForm _ _) event).yields⟩
  · have heach := (exists_mapM_iff Event.reread (fun _ => True) timeline.events).mp
      ⟨found, h, fun _ _ => trivial⟩
    obtain ⟨_, hfound, -⟩ := heach event hevent
    exact (failsCut_event hfound).stopsCut

/-! ## Written documents -/

/-- A beginning of a document that is not all of it is an input that ends too early. -/
theorem Timeline.ofJson_of_cut {timeline : Timeline} {found : List Event}
    (hfound : timeline.events.mapM Event.reread = .ok found) {style : Style} {front back : Bytes}
    (hcut : front ++ back = Bytes.ofText (timeline.toJson style)) (hback : back ≠ []) :
    Timeline.ofJson front = .error .truncated := by
  obtain ⟨spaces, document, hbytes, hs, hdocument⟩ :=
    (spelledAs_timeline noForm timeline).render style
  have hrun : Truncated (Timeline.shape.read.run front) :=
    failsCut_timeline hfound hs hdocument (hcut.trans hbytes) hback
  rw [Truncated] at hrun
  rw [Timeline.ofJson, readAll, hrun]

/-- Behind a document may stand nothing but white space. -/
theorem Timeline.ofJson_toJson_append (style : Style) (timeline : Timeline) (extra : Bytes) :
    Timeline.ofJson (Bytes.ofText (timeline.toJson style) ++ extra) =
      ((timeline.events.mapM Event.reread).map Timeline.mk).bind fun found =>
        if extra.all isSpace then .ok found else .error .malformed := by
  obtain ⟨spaces, document, hbytes, hs, hdocument⟩ :=
    (spelledAs_timeline noForm timeline).render style
  have hbytes : Bytes.ofText (timeline.toJson style) = spaces ++ document := hbytes
  rw [hbytes, List.append_assoc]
  exact readAll_of_yieldsDelimited (yields_timeline (yields_noForm _ _) timeline) hs hdocument extra

/-! ## Documents in files -/

/-- **What has been cut off or added is noticed**, if the written timeline can be loaded: any
beginning of its document that is not all of it is an input that ends too early, and behind the
document stands white space, which makes no difference, or something that is malformed. -/
theorem Timeline.load_of_cut_or_extended {timeline loaded : Timeline} {style : Style}
    {session session' : Session} {path path' : Path} {bytes : Bytes}
    (hwritten : session.files.read path = .ok (Bytes.ofText (timeline.toJson style)))
    (hload : ((Timeline.load path : ExceptT DocumentError (StateM Session) Timeline) session).1 =
      .ok loaded)
    (hread : session'.files.read path' = .ok bytes) :
    (bytes <+: Bytes.ofText (timeline.toJson style) → bytes ≠ Bytes.ofText (timeline.toJson style) →
      (Timeline.load path' : ExceptT DocumentError (StateM Session) Timeline) session' =
        (.error (.json .truncated), session')) ∧
    ∀ extra, bytes = Bytes.ofText (timeline.toJson style) ++ extra →
      ((∃ b ∈ extra, isSpace b = false) →
        (Timeline.load path' : ExceptT DocumentError (StateM Session) Timeline) session' =
          (.error (.json .malformed), session')) ∧
      ((∀ b ∈ extra, isSpace b = true) →
        (Timeline.load path' : ExceptT DocumentError (StateM Session) Timeline) session' =
          (.ok loaded, session')) := by
  -- Only its times can keep a written document from being loaded.
  obtain ⟨found, hfound, rfl⟩ : ∃ found, timeline.events.mapM Event.reread = .ok found ∧
      loaded = ⟨found⟩ := by
    rw [Timeline.load_of_read hwritten, (timeline.isPresentedBy_toJson style).ofJson] at hload
    cases hfound : timeline.events.mapM Event.reread with
    | error fault => rw [hfound] at hload; cases hload
    | ok found =>
        rw [hfound] at hload
        exact ⟨found, rfl, (Except.ok.inj hload).symm⟩
  rw [Timeline.load_of_read hread]
  constructor
  · rintro ⟨rest, hrest⟩ hne
    have hproper : rest ≠ [] := fun hnil => hne (by rwa [hnil, List.append_nil] at hrest)
    rw [Timeline.ofJson_of_cut hfound hrest hproper]
    rfl
  · rintro extra rfl
    rw [Timeline.ofJson_toJson_append, hfound]
    constructor
    · rintro ⟨b, hb, hspace⟩
      have hall : extra.all isSpace = false :=
        List.all_eq_false.mpr ⟨b, hb, Bool.not_eq_true _ ▸ hspace⟩
      rw [hall]
      rfl
    · intro hextra
      rw [List.all_eq_true.mpr hextra]
      rfl

/-- A document that is cut inside a character and inside a power of ten, where the number that is
left is one too, and the document with a bracket and with white space behind it. -/
theorem load_of_damaged_event :
    let event : Event :=
      { name := "é", category := "\n", timestamp := 1e300, rank := 10, track := 0, phase := .opens
        args := { offset := some 10 } }
    let document := Bytes.ofText (Timeline.toJson .compact ⟨[event]⟩)
    let stored (bytes : Bytes) : Session := { files := ⟨[(["t.json"], .file bytes)], []⟩ }
    let load (bytes : Bytes) :=
      (Timeline.load ⟨"/t.json"⟩ : ExceptT DocumentError (StateM Session) Timeline) (stored bytes)
    let inCharacter := document.take 26
    let inNumber := Bytes.ofText
      "\x7b\"traceEvents\":[\x7b\"name\":\"é\",\"cat\":\"\\n\",\"ts\":1e+30"
    load document = (.ok ⟨[event]⟩, stored document) ∧
      load inCharacter = (.error (.json .truncated), stored inCharacter) ∧
      load inNumber = (.error (.json .truncated), stored inNumber) ∧
      load (document ++ [ascii '}']) =
        (.error (.json .malformed), stored (document ++ [ascii '}'])) ∧
      load (document ++ [ascii '\n']) = (.ok ⟨[event]⟩, stored (document ++ [ascii '\n'])) := by
  intro event document stored load inCharacter inNumber
  have hread : Json.reread 1e300 = .ok 1e300 := eq_ok_of_toOption (by decide +kernel)
  have hload : load document = (.ok ⟨[event]⟩, stored document) := by
    refine (Timeline.load_of_read rfl).trans ?_
    rw [(Timeline.isPresentedBy_toJson .compact ⟨[event]⟩).ofJson, List.mapM_cons, Event.reread,
      hread]
    rfl
  have hfile : ∀ bytes, (stored bytes).files.read ⟨"/t.json"⟩ = .ok bytes := fun _ => rfl
  have hdamaged := fun bytes => @Timeline.load_of_cut_or_extended ⟨[event]⟩ ⟨[event]⟩ .compact
    (stored document) (stored bytes) ⟨"/t.json"⟩ ⟨"/t.json"⟩ bytes (hfile document)
    (congrArg Prod.fst hload) (hfile bytes)
  refine ⟨hload, ?_, ?_, ?_, ?_⟩
  · exact (hdamaged inCharacter).1 (List.take_prefix 26 document) (by decide +kernel)
  · exact (hdamaged inNumber).1 (by decide +kernel) (by decide +kernel)
  · exact ((hdamaged _).2 _ rfl).1 ⟨ascii '}', List.mem_cons_self, by decide⟩
  · refine ((hdamaged _).2 _ rfl).2 fun b hb => ?_
    rw [List.mem_singleton.mp hb]
    decide

end TraceTimeline
