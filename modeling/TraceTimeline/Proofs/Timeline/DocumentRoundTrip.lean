import TraceTimeline.Proofs.Timeline.Presentation

/-!
# Written documents are read back

A document is read member by member as it was written, whichever layout it has. The one thing that
can differ is the times: a time that is written as a number is read as that number is read alone,
and a time that is no number makes the document unfit.
-/

namespace TraceTimeline

open Json Json.Reader

/-- A timeline document is read event by event. -/
theorem Timeline.ofJson_toJson_eq_mapM (style : Style) (timeline : Timeline) :
    Timeline.ofJson (Bytes.ofText (timeline.toJson style)) =
      (timeline.events.mapM Event.reread).map Timeline.mk :=
  (timeline.isPresentedBy_toJson style).ofJson

theorem mapM_reread_eq_ok {events : List Event} {num : Float → Float}
    (h : ∀ event ∈ events, Json.reread event.timestamp = .ok (num event.timestamp)) :
    events.mapM Event.reread =
      .ok (events.map fun event => { event with timestamp := num event.timestamp }) := by
  induction events with
  | nil => rfl
  | cons event events ih =>
      have hevent : event.reread = .ok { event with timestamp := num event.timestamp } := by
        rw [Event.reread, h event List.mem_cons_self]
        rfl
      rw [List.mapM_cons, hevent, ih fun e he => h e (List.mem_cons_of_mem _ he)]
      rfl

/-- Behind times that are read, the first that is no number makes the document unfit. -/
theorem mapM_reread_eq_error {events : List Event}
    (hread : ∀ event ∈ events, event.timestamp.isFinite = true →
      ∃ x, Json.reread event.timestamp = .ok x)
    (h : ∃ event ∈ events, event.timestamp.isFinite = false) :
    events.mapM Event.reread = .error .unfit := by
  induction events with
  | nil =>
      obtain ⟨event, hmem, -⟩ := h
      cases hmem
  | cons event events ih =>
      rw [List.mapM_cons]
      cases hevent : event.timestamp.isFinite with
      | false =>
          rw [Event.reread, reread_of_not_isFinite hevent]
          rfl
      | true =>
          obtain ⟨x, hx⟩ := hread event List.mem_cons_self hevent
          have hmore : ∃ e ∈ events, e.timestamp.isFinite = false := by
            obtain ⟨e, hmem, he⟩ := h
            rcases List.mem_cons.mp hmem with rfl | hmem
            · rw [hevent] at he
              cases he
            · exact ⟨e, hmem, he⟩
          rw [Event.reread, hx, ih (fun e he => hread e (List.mem_cons_of_mem _ he)) hmore]
          rfl

/-! ## Documents in files -/

/-- **A written timeline is read back**, in either layout and with every text, number and argument
it may have: each time becomes what is read where it has been written. A time that is no number
makes the document unfit. -/
theorem Timeline.load_toJson {timeline : Timeline} {num : Float → Float}
    (hnum : ∀ event ∈ timeline.events, event.timestamp.isFinite = true →
      Json.reread event.timestamp = .ok (num event.timestamp))
    (style : Style) {session : Session} {path : Path}
    (hfile : session.files.read path = .ok (Bytes.ofText (timeline.toJson style))) :
    ((∀ event ∈ timeline.events, event.timestamp.isFinite = true) →
      (Timeline.load path : ExceptT DocumentError (StateM Session) Timeline) session =
        (.ok ⟨timeline.events.map fun event => { event with timestamp := num event.timestamp }⟩,
          session)) ∧
    ((∃ event ∈ timeline.events, event.timestamp.isFinite = false) →
      (Timeline.load path : ExceptT DocumentError (StateM Session) Timeline) session =
        (.error (.json .unfit), session)) := by
  rw [Timeline.load_of_read hfile]
  simp only [Timeline.ofJson_toJson_eq_mapM]
  constructor
  · intro hfinite
    rw [mapM_reread_eq_ok fun event he => hnum event he (hfinite event he)]
    rfl
  · intro hinfinite
    rw [mapM_reread_eq_error (fun event he hf => ⟨_, hnum event he hf⟩) hinfinite]
    rfl

/-- A name with a quotation mark, a backslash, a line feed, a control character and characters
beyond ASCII, the greatest numbers, and arguments of which two are left out: all of it is read back,
unless the time is no number. -/
theorem load_of_awkward_event :
    let event : Event :=
      { name := "a\"\\\n\x01é😀", category := "", timestamp := 1.5
        rank := 4294967295, track := 4294967295, phase := .closes
        args := { operation := some "write", offset := some 18446744073709551615 } }
    let written (timeline : Timeline) : Session :=
      { files := ⟨[(["t.json"], .file (Bytes.ofText (timeline.toJson .pretty)))], []⟩ }
    let load : ExceptT DocumentError (StateM Session) Timeline := Timeline.load ⟨"/t.json"⟩
    let undefined : Timeline := ⟨[event, { event with timestamp := 0 / 0 }]⟩
    Json.reread 1.5 = .ok 1.5 ∧
      load (written ⟨[event]⟩) = (.ok ⟨[event]⟩, written ⟨[event]⟩) ∧
      load (written undefined) = (.error (.json .unfit), written undefined) := by
  intro event written load undefined
  have hread : Json.reread 1.5 = .ok 1.5 := eq_ok_of_toOption (by decide +kernel)
  have hnan : (0 / 0 : Float).isFinite = false := by decide +kernel
  have hfile : ∀ timeline : Timeline,
      (written timeline).files.read ⟨"/t.json"⟩ = .ok (Bytes.ofText (timeline.toJson .pretty)) :=
    fun _ => rfl
  have hfinite : (1.5 : Float).isFinite = true := by decide +kernel
  have hone : ∀ e ∈ [event], e.timestamp = 1.5 := by
    intro e he
    rw [List.mem_singleton.mp he]
  have htwo : ∀ e ∈ undefined.events, e.timestamp.isFinite = true → e.timestamp = 1.5 := by
    intro e he hf
    rcases List.mem_cons.mp he with rfl | he
    · rfl
    · rw [List.mem_singleton.mp he, hnan] at hf
      cases hf
  refine ⟨hread, ?_, ?_⟩
  · refine (@Timeline.load_toJson ⟨[event]⟩ id ?_ .pretty _ _ (hfile _)).1 ?_
    · intro e he _
      rw [hone e he]
      exact hread
    · intro e he
      rw [hone e he]
      exact hfinite
  · refine (@Timeline.load_toJson undefined id ?_ .pretty _ _ (hfile _)).2 ?_
    · intro e he hf
      rw [htwo e he hf]
      exact hread
    · exact ⟨_, List.mem_cons_of_mem _ List.mem_cons_self, hnan⟩

end TraceTimeline
