import TraceTimeline.Proofs.Json.FloatRoundTrip
import TraceTimeline.Proofs.Timeline.DocumentRoundTrip

/-!
# Times that survive their document

A timeline is read back with the very times it has been written with, bit for bit, exactly if each
of them survives alone. Times that need few digits do; among them are the whole numbers of
microseconds up to some fifty-seven years.
-/

namespace TraceTimeline

open Json

theorem mapM_reread_self_iff {events : List Event} :
    events.mapM Event.reread = .ok events ↔ ∀ event ∈ events, Survives event.timestamp := by
  induction events with
  | nil => exact iff_of_true rfl fun _ hmem => absurd hmem List.not_mem_nil
  | cons event events ih =>
      rw [List.mapM_cons, List.forall_mem_cons, ← ih, ← reread_self_iff, Event.reread]
      cases hx : Json.reread event.timestamp with
      | error fault => exact iff_of_false (fun h => by cases h) fun h => by cases h.1
      | ok x =>
          cases hrest : events.mapM Event.reread with
          | error fault => exact iff_of_false (fun h => by cases h) fun h => by cases h.2
          | ok others =>
              constructor
              · intro h
                obtain ⟨hevent, hothers⟩ := List.cons.inj (Except.ok.inj h)
                exact ⟨congrArg (Except.ok ∘ Event.timestamp) hevent, congrArg Except.ok hothers⟩
              · rintro ⟨hevent, hothers⟩
                obtain rfl := Except.ok.inj hevent
                obtain rfl := Except.ok.inj hothers
                rfl

/-- **Times survive their document** one by one: in either layout a timeline is read back as it was,
with the same bits in every time, exactly if what the reader makes of the digits of each time is
that time. It is wherever neither the digits of a time nor their power of ten have to be rounded. -/
theorem Timeline.load_toJson_self_iff {timeline : Timeline} (style : Style) {session : Session}
    {path : Path} (hfile : session.files.read path = .ok (Bytes.ofText (timeline.toJson style))) :
    ((Timeline.load path : ExceptT DocumentError (StateM Session) Timeline) session =
        (.ok timeline, session) ↔ ∀ event ∈ timeline.events, Survives event.timestamp) ∧
      ((∀ event ∈ timeline.events, IsShort event.timestamp) →
        (Timeline.load path : ExceptT DocumentError (StateM Session) Timeline) session =
          (.ok timeline, session)) := by
  have hiff : (Timeline.load path : ExceptT DocumentError (StateM Session) Timeline) session =
      (.ok timeline, session) ↔ ∀ event ∈ timeline.events, Survives event.timestamp := by
    rw [Timeline.load_of_read hfile, Timeline.ofJson_toJson_eq_mapM, ← mapM_reread_self_iff]
    cases timeline.events.mapM Event.reread with
    | error fault => exact iff_of_false (fun h => by cases h) fun h => by cases h
    | ok events =>
        constructor
        · intro h
          have htimeline : (⟨events⟩ : Timeline) = timeline := Except.ok.inj (Prod.mk.inj h).1
          exact congrArg (Except.ok ∘ Timeline.events) htimeline
        · intro h
          rw [Except.ok.inj h]
          rfl
  exact ⟨hiff, fun hshort => hiff.mpr fun event hmem => (hshort event hmem).survives⟩

/-- Whole numbers of microseconds, counted from 1970, survive until the end of January 2027. The
first that does not is read a quarter of a microsecond late. -/
theorem reading_moves_time :
    let event (x : Float) : Event :=
      { name := "a", category := "c", timestamp := x, rank := 0, track := 0, phase := .opens
        args := {} }
    let written (timeline : Timeline) : Session :=
      { files := ⟨[(["t.json"], .file (Bytes.ofText (timeline.toJson .compact)))], []⟩ }
    let load : ExceptT DocumentError (StateM Session) Timeline := Timeline.load ⟨"/t.json"⟩
    load (written ⟨[event 1801439850948198]⟩) =
        (.ok ⟨[event 1801439850948198]⟩, written ⟨[event 1801439850948198]⟩) ∧
      Json.reread 1801439850948199 = .ok 1801439850948199.25 ∧
      load (written ⟨[event 1801439850948199]⟩) ≠
        (.ok ⟨[event 1801439850948199]⟩, written ⟨[event 1801439850948199]⟩) := by
  intro event written load
  have hfile : ∀ timeline : Timeline,
      (written timeline).files.read ⟨"/t.json"⟩ = .ok (Bytes.ofText (timeline.toJson .compact)) :=
    fun _ => rfl
  have hread : Json.reread 1801439850948199 = .ok 1801439850948199.25 :=
    eq_ok_of_toOption (by decide +kernel)
  refine ⟨?_, hread, ?_⟩
  · refine (Timeline.load_toJson_self_iff .compact (hfile _)).2 fun e he => ?_
    rw [List.mem_singleton.mp he]
    have hparts : Number.Binary.ofFloat 1801439850948198 = .finite false 7205759403792792 (-2) := by
      decide +kernel
    have hstands := (Number.stands_of_ofFloat hparts).1
    have hvalue : ((7205759403792792 : ℕ) : ℚ) * 2 ^ (-2 : ℤ) = (1801439850948198 : ℕ) := by
      norm_num
    rw [hvalue] at hstands
    exact isShort_of_whole hstands (by decide)
  · intro hload
    have hsurvives := (Timeline.load_toJson_self_iff .compact (hfile _)).1.mp hload
      (event 1801439850948199) (List.mem_singleton_self _)
    have hsame := reread_self_iff.mpr hsurvives
    rw [show (event 1801439850948199).timestamp = 1801439850948199 from rfl, hread] at hsame
    exact absurd (Except.ok.inj hsame) (by decide +kernel)

end TraceTimeline
