import TraceTimeline.Proofs.Json.Unambiguous
import TraceTimeline.Proofs.Timeline.NoTrace
import TraceTimeline.Proofs.Timeline.Presentation

/-!
# One timeline, one document

The two layouts of a timeline are the same document, and no other timeline has it. Main statements:
the pretty layout without the white space outside of strings is the compact one; and two timelines of
finite times that are written alike are the same timeline.
-/

namespace TraceTimeline

open Json

theorem Json.newline_not_mem_spelled (tokens : List Token) : '\n' ∉ spelled tokens := by
  intro hmem
  obtain ⟨token, -, hc⟩ := List.mem_flatMap.mp hmem
  exact (isQuiet_spelling token).newline hc

/-- **The two layouts are one document.** Without the white space that stands outside of strings the
pretty layout is the compact one, which has no such white space and is a single line. -/
theorem Timeline.squeeze_toJson (timeline : Timeline) :
    String.ofList (squeeze (timeline.toJson .pretty).toList) = timeline.toJson .compact ∧
      '\n' ∉ (timeline.toJson .compact).toList ∧
      ∀ c, (.outside, c) ∈ withModes .outside (timeline.toJson .compact).toList →
        Text.isBlank c = false := by
  have hcompact : (timeline.toJson .compact).toList = spelled timeline.tokens :=
    toList_render_compact timeline.tokens
  have hpretty : squeeze (timeline.toJson .pretty).toList = spelled timeline.tokens :=
    squeeze_render .pretty timeline.tokens
  refine ⟨?_, ?_, ?_⟩
  · rw [hpretty, ← hcompact, String.ofList_toList]
  · rw [hcompact]
    exact newline_not_mem_spelled timeline.tokens
  · rw [hcompact]
    exact (isSolid_spelled timeline.tokens).notBlank

theorem Args.members_inj {a b : Args} (h : a.members = b.members) : a = b := by
  have htext : Function.Injective Token.text := fun _ _ => Token.text.inj
  have hnatural : Function.Injective fun n : UInt64 => Token.natural n.toNat := fun _ _ h =>
    UInt64.toNat_inj.mp (Token.natural.inj h)
  obtain ⟨operation, segment, offset, length⟩ := a
  obtain ⟨operation', segment', offset', length'⟩ := b
  simp only [Args.members, List.cons.injEq, Prod.mk.injEq, true_and, and_true,
    (Option.map_injective htext).eq_iff, (Option.map_injective hnatural).eq_iff] at h
  obtain ⟨rfl, rfl, rfl, rfl⟩ := h
  rfl

theorem tells_args (a b : Args) : Tells a.tokens b.tokens (a = b) := by
  have hbegins : ∀ args : Args, ∀ item ∈ present args.members, BeginsItem item := by
    intro args item hitem
    obtain ⟨name, -, token, rfl⟩ := exists_of_mem_present hitem
    exact beginsItem_member name [token]
  have hdistinct : (a.members.map Prod.fst).Nodup := by
    show ["operation", "segment", "offset", "length"].Nodup
    decide
  have htext := fun s t : String => (tells_text s t).imp (congrArg Token.text)
  have hnatural := fun m n : UInt64 =>
    (tells_natural m.toNat n.toNat).imp (congrArg Token.natural)
  have hmembers : TellsItems .closeObject (present a.members) (present b.members)
      (a.members = b.members) := by
    refine .present rfl ?_ hdistinct
    exact .cons ⟨rfl, tells_map htext a.operation b.operation⟩ <|
      .cons ⟨rfl, tells_map hnatural a.segment b.segment⟩ <|
      .cons ⟨rfl, tells_map hnatural a.offset b.offset⟩ <|
      .cons ⟨rfl, tells_map hnatural a.length b.length⟩ .nil
  exact (hmembers.enclosed rfl (hbegins a) (hbegins b) .openObject).imp Args.members_inj

theorem beginsItem_of_mem_members {event : Event} {item : List Token} (h : item ∈ event.members) :
    BeginsItem item := by
  have hall : ∀ item ∈ event.members, BeginsItem item := by
    unfold Event.members
    simp only [List.forall_mem_cons, beginsItem_member, List.not_mem_nil, false_implies,
      implies_true, and_true]
  exact hall item h

theorem Phase.letter_inj {p q : Phase} (h : p.letter = q.letter) : p = q := by
  have hp := Phase.ofLetter?_letter p
  rw [h, Phase.ofLetter?_letter] at hp
  exact (Option.some.inj hp).symm

/-- **An event tells all its fields**, if its time is finite. -/
theorem tells_event {a b : Event} (ha : a.timestamp.isFinite = true)
    (hb : b.timestamp.isFinite = true) : Tells a.tokens b.tokens (a = b) := by
  have hmembers : TellsItems .closeObject a.members b.members
      (a.name = b.name ∧ a.category = b.category ∧ a.timestamp = b.timestamp ∧
        a.rank.toNat = b.rank.toNat ∧ a.track.toNat = b.track.toNat ∧
        a.phase.letter = b.phase.letter ∧ a.args = b.args ∧ True) :=
    .cons rfl ((tells_text a.name b.name).member "name") <|
    .cons rfl ((tells_text a.category b.category).member "cat") <|
    .cons rfl ((tells_float ha hb).member "ts") <|
    .cons rfl ((tells_natural a.rank.toNat b.rank.toNat).member "pid") <|
    .cons rfl ((tells_natural a.track.toNat b.track.toNat).member "tid") <|
    .cons rfl ((tells_text a.phase.letter b.phase.letter).member "ph") <|
    .cons rfl ((tells_args a.args b.args).member "args") (.nil .closeObject)
  refine (hmembers.enclosed rfl (fun _ => beginsItem_of_mem_members)
    (fun _ => beginsItem_of_mem_members) .openObject).imp ?_
  rintro ⟨hname, hcategory, htimestamp, hrank, htrack, hphase, hargs, -⟩
  obtain ⟨name, category, timestamp, rank, track, phase, args⟩ := a
  obtain rfl : name = b.name := hname
  obtain rfl : category = b.category := hcategory
  obtain rfl : timestamp = b.timestamp := htimestamp
  obtain rfl : rank = b.rank := UInt32.toNat_inj.mp hrank
  obtain rfl : track = b.track := UInt32.toNat_inj.mp htrack
  obtain rfl : phase = b.phase := Phase.letter_inj hphase
  obtain rfl : args = b.args := hargs
  rfl

/-! ## Timelines that are written alike -/

theorem Timeline.tells_tokens {t u : Timeline}
    (ht : ∀ event ∈ t.events, event.timestamp.isFinite = true)
    (hu : ∀ event ∈ u.events, event.timestamp.isFinite = true) :
    Tells t.tokens u.tokens (t.events = u.events) := by
  have hbegins : ∀ timeline : Timeline, ∀ item ∈ timeline.events.map Event.tokens,
      BeginsItem item := by
    intro timeline item hitem
    obtain ⟨event, -, rfl⟩ := List.mem_map.mp hitem
    exact ⟨'\x7b', _, rfl, by decide, by decide⟩
  have hevents : TellsItems .closeArray (t.events.map Event.tokens) (u.events.map Event.tokens)
      (t.events = u.events) :=
    .map rfl fun a ha b hb => tells_event (ht a ha) (hu b hb)
  have harray := hevents.enclosed rfl (hbegins t) (hbegins u) .openArray
  have hobject := TellsItems.cons rfl (harray.member eventsName) (.nil .closeObject)
  refine (hobject.enclosed rfl ?_ ?_ .openObject).imp And.left
  · exact List.forall_mem_singleton.mpr (beginsItem_member eventsName _)
  · exact List.forall_mem_singleton.mpr (beginsItem_member eventsName _)

/-- **Nothing is lost where a timeline is written.** In either layout two timelines of finite times
are written alike only if they have the same events, with all their fields: the bits of their times,
so that the two zeros differ, and what is not known of their operations. -/
theorem Timeline.toJson_eq_iff (style : Style) {t u : Timeline}
    (ht : ∀ event ∈ t.events, event.timestamp.isFinite = true)
    (hu : ∀ event ∈ u.events, event.timestamp.isFinite = true) :
    t.toJson style = u.toJson style ↔ t = u := by
  constructor
  · intro h
    have hspelled : spelled t.tokens = spelled u.tokens := by
      rw [← squeeze_render style t.tokens, ← squeeze_render style u.tokens]
      exact congrArg (fun s => squeeze s.toList) h
    obtain ⟨hevents, -⟩ := Timeline.tells_tokens ht hu endsNumber_nil endsNumber_nil
      (by rw [hspelled])
    exact congrArg Timeline.mk hevents
  · rintro rfl
    rfl

def startAtZero (zero : Float) (segment : Option UInt64) : Timeline where
  events :=
    [{ name := "a \"b\"", category := "POSIX", timestamp := zero, rank := 0, track := 1,
       phase := .opens, args := { segment } }]

/-- The two zeros are written differently, and so are a segment that is not known and segment 0. -/
theorem zeros_written_differently :
    (startAtZero 0.0 none).toJson .pretty ≠ (startAtZero (-0.0) none).toJson .pretty ∧
      (startAtZero 0.0 none).toJson .compact ≠ (startAtZero 0.0 (some 0)).toJson .compact := by
  have hfinite : ∀ zero segment, zero.isFinite = true →
      ∀ event ∈ (startAtZero zero segment).events, event.timestamp.isFinite = true := by
    intro zero segment hzero event hevent
    rw [List.mem_singleton.mp hevent]
    exact hzero
  have hzero : (0.0 : Float).isFinite = true := by decide +kernel
  have hnegative : (-0.0 : Float).isFinite = true := by decide +kernel
  constructor
  · rw [ne_eq, Timeline.toJson_eq_iff .pretty (hfinite _ _ hzero) (hfinite _ _ hnegative)]
    intro h
    have hbits := congrArg (fun t : Timeline => t.events.map fun e => e.timestamp.toBits) h
    exact absurd hbits (by decide +kernel)
  · rw [ne_eq, Timeline.toJson_eq_iff .compact (hfinite _ _ hzero) (hfinite _ _ hzero)]
    intro h
    have hargs := congrArg (fun t : Timeline => t.events.map Event.args) h
    exact absurd hargs (by decide +kernel)

end TraceTimeline
