import TraceTimeline.Proofs.Json.Nested

/-!
# Objects whose members stand in any order

A draft is filled by the names that have been read, whatever their order: `view done` is the draft
with the members that are named in `done`. So the order of the members makes no difference, and
neither do members in between that are no fields. Main statement: an object yields the value of its
known members, wherever they stand, or the fault of the one that cannot be read.
-/

namespace TraceTimeline.Json

open Reader

variable {α σ : Type} {shape : Shape σ α} {view : List String → σ} {other : Form}
  {known members : List Member}

def Shape.names (shape : Shape σ α) : List String :=
  shape.fields.map Field.name

theorem Shape.field?_eq_none {name : String} (h : name ∉ shape.names) :
    shape.field? name = none := by
  refine List.find?_eq_none.mpr fun field hmem hname => h ?_
  exact List.mem_map.mpr ⟨field, hmem, eq_of_beq hname⟩

/-- The known members in some order, and anywhere among them members that are no fields, of which
some may have the same name. -/
def Arranges (shape : Shape σ α) (other : Form) (known members : List Member) : Prop :=
  ∃ others, (∀ member ∈ others, member.1 ∉ shape.names ∧ member.2 = other) ∧
    members.Perm (known ++ others)

def ObjectText (shape : Shape σ α) (other : Form) (known : List Member) : Form := fun bytes =>
  ∃ members, Arranges shape other known members ∧ Enclosed .object (members.map Member.form) bytes

theorem objectText_of_enclosed {bytes : Bytes}
    (h : Enclosed .object (known.map Member.form) bytes) : ObjectText shape other known bytes :=
  ⟨known, ⟨[], fun _ hmem => absurd hmem List.not_mem_nil, by rw [List.append_nil]⟩, h⟩

theorem beginsItem_objectText (shape : Shape σ α) (other : Form) (known : List Member) :
    Form.BeginsItem (ObjectText shape other known) := by
  rintro bytes ⟨members, -, hbytes⟩
  exact beginsItem_enclosed _ _ hbytes

/-- `view done` is the draft with the members that are named in `done`. Names that are no fields
leave it as it is. -/
structure IsView (shape : Shape σ α) (view : List String → σ) : Prop where
  start : view [] = shape.start
  ignore : ∀ {name : String}, name ∉ shape.names → ∀ done, view (name :: done) = view done

/-- Wherever the member stands, reading it adds its name to those that have been read, or comes to
the fault. -/
def Reads (shape : Shape σ α) (view : List String → σ) (member : Member)
    (result : Except Fault Unit) : Prop :=
  ∀ done, (member.1 ∈ shape.names → member.1 ∉ done) →
    (shape.member (view done)).Yields member.form (result.map fun _ => view (member.1 :: done))

theorem reads_field {β : Type} {name : String} {get : σ → Option β} {set : σ → β → σ}
    {value : Reader β} {required : Bool} {form : Form} {result : Except Fault β}
    (hfield : shape.field? name = some (.of name get set value required))
    (hvalue : value.Yields form result)
    (hget : ∀ done, name ∉ done → get (view done) = none)
    (hset : ∀ b, result = .ok b → ∀ done, set (view done) b = view (name :: done)) :
    Reads shape view (name, form) (result.map fun _ => ()) := by
  intro done hfresh
  have hname : name ∈ shape.names := by
    have hmem := List.mem_of_find?_eq_some hfield
    exact List.mem_map.mpr ⟨_, hmem, rfl⟩
  have hmember : (shape.member (view done)).Yields (Member.form (name, form))
      (result.map (set (view done))) := by
    refine yields_member hfield ?_ (yields_map hvalue (set (view done)))
    exact Option.isSome_eq_false_iff.mpr (Option.isNone_iff_eq_none.mpr (hget done (hfresh hname)))
  cases result with
  | error fault => exact hmember
  | ok b =>
      rw [Except.map, hset b rfl done] at hmember
      exact hmember

theorem reads_value {β : Type} {name : String} {get : σ → Option β} {set : σ → β → σ}
    {value : Reader β} {required : Bool} {form : Form} {b : β}
    (hfield : shape.field? name = some (.of name get set value required))
    (hvalue : value.Yields form (.ok b)) (hget : ∀ done, name ∉ done → get (view done) = none)
    (hset : ∀ done, set (view done) b = view (name :: done)) :
    Reads shape view (name, form) (.ok ()) :=
  reads_field hfield hvalue hget (by rintro _ ⟨⟩; exact hset)

/-- A member that is no field is ignored if it can be skipped. -/
theorem reads_ignored (hview : IsView shape view) {member : Member}
    (hname : member.1 ∉ shape.names) (hskip : skipValue.Yields member.2 (.ok ())) :
    Reads shape view member (.ok ()) := by
  intro done _
  rw [Except.map, hview.ignore hname]
  exact yields_ignored (Shape.field?_eq_none hname) hskip

/-! ## All members -/

/-- No two members have the name of the same field. -/
def OncePerField (shape : Shape σ α) (members : List Member) : Prop :=
  members.Pairwise fun member later => member.1 ∈ shape.names → member.1 ≠ later.1

theorem Arranges.oncePerField (h : Arranges shape other known members)
    (hnodup : (known.map Prod.fst).Nodup) : OncePerField shape members := by
  obtain ⟨others, hothers, hperm⟩ := h
  have hsymm : ∀ {member later : Member}, (member.1 ∈ shape.names → member.1 ≠ later.1) →
      later.1 ∈ shape.names → later.1 ≠ member.1 :=
    fun h hlater heq => h (heq ▸ hlater) heq.symm
  refine (hperm.pairwise_iff hsymm).mpr (List.pairwise_append.mpr ⟨?_, ?_, ?_⟩)
  · exact (List.pairwise_map.mp hnodup).imp (S := fun member later : Member =>
      member.1 ∈ shape.names → member.1 ≠ later.1) fun hne _ => hne
  · exact List.pairwise_of_forall_mem_list fun member hmem _ _ hname =>
      absurd hname (hothers member hmem).1
  · rintro member hmem later hlater hname heq
    exact (hothers later hlater).1 (heq ▸ hname)

/-- The members are read one after the other into the draft with all of them, up to the one that
cannot be read. -/
theorem yieldsEach_members {result : Except Fault Unit}
    (hreads : ∀ member ∈ members, Reads shape view member (.ok ()) ∨ Reads shape view member result)
    (hresult : result = .ok () ∨ ∃ member ∈ members, Reads shape view member result)
    (honce : OncePerField shape members) {done : List String}
    (hfresh : ∀ member ∈ members, member.1 ∈ shape.names → member.1 ∉ done) :
    YieldsEach shape.member (view done) (members.map Member.form)
      (result.map fun _ => view ((members.map Prod.fst).reverse ++ done)) := by
  induction members generalizing done with
  | nil =>
      obtain rfl : result = .ok () := hresult.resolve_right (by rintro ⟨_, ⟨⟩, -⟩)
      exact YieldsEach.nil
  | cons member members ih =>
      obtain ⟨hlater, honce⟩ := List.pairwise_cons.mp honce
      obtain ⟨hmember, hmembers⟩ := List.forall_mem_cons.mp hreads
      obtain ⟨hnew, hfresh⟩ := List.forall_mem_cons.mp hfresh
      -- What comes next stays unread when this member's name is added.
      have hnext : ∀ later ∈ members, later.1 ∈ shape.names → later.1 ∉ member.1 :: done := by
        intro later hmem hname hread
        rcases List.mem_cons.mp hread with heq | hread
        · exact hlater later hmem (heq ▸ hname) heq.symm
        · exact hfresh later hmem hname hread
      have hmore := fun h => ih hmembers h honce hnext
      rw [List.map_cons, List.map_cons, List.reverse_cons, List.append_assoc]
      cases result with
      | ok _ =>
          exact YieldsEach.cons member.beginsItem (hmember.elim (· done hnew) (· done hnew))
            (hmore (.inl rfl))
      | error fault =>
          by_cases hfault : Reads shape view member (.error fault)
          · exact YieldsEach.fault member.beginsItem (hfault done hnew)
          · refine YieldsEach.cons member.beginsItem (hmember.resolve_right hfault done hnew)
              (hmore (.inr ?_))
            obtain ⟨later, hmem, hread⟩ := hresult.resolve_left nofun
            rcases List.mem_cons.mp hmem with rfl | hmem
            · exact absurd hread hfault
            · exact ⟨later, hmem, hread⟩

/-- Each known member has a name of its own and can be read, except those that come to the result. -/
structure ReadsKnown (shape : Shape σ α) (view : List String → σ) (known : List Member)
    (result : Except Fault Unit) : Prop where
  isView : IsView shape view
  nodup : (known.map Prod.fst).Nodup
  reads : ∀ member ∈ known, Reads shape view member (.ok ()) ∨ Reads shape view member result
  result : result = .ok () ∨ ∃ member ∈ known, Reads shape view member result

/-- Between members that can be skipped, the known ones are read in any order. -/
theorem Arranges.exists_yieldsEach {result : Except Fault Unit}
    (h : Arranges shape other known members) (hknown : ReadsKnown shape view known result)
    (hother : skipValue.Yields other (.ok ())) :
    ∃ done, (∀ member ∈ known, member.1 ∈ done) ∧
      YieldsEach shape.member shape.start (members.map Member.form)
        (result.map fun _ => view done) := by
  have honce := h.oncePerField hknown.nodup
  obtain ⟨others, hothers, hperm⟩ := h
  have hmem : ∀ {member}, member ∈ known → member ∈ members :=
    fun hmem => hperm.mem_iff.mpr (List.mem_append_left others hmem)
  refine ⟨(members.map Prod.fst).reverse ++ [], fun member hmember => ?_, ?_⟩
  · rw [List.append_nil, List.mem_reverse]
    exact List.mem_map_of_mem (hmem hmember)
  · rw [← hknown.isView.start]
    refine yieldsEach_members (fun member hmember => ?_) ?_ honce fun _ _ _ => List.not_mem_nil
    · rcases List.mem_append.mp (hperm.mem_iff.mp hmember) with hmember | hmember
      · exact hknown.reads member hmember
      · obtain ⟨hname, hform⟩ := hothers member hmember
        exact .inl (reads_ignored hknown.isView hname (hform ▸ hother))
    · exact hknown.result.imp_right fun ⟨member, hmember, hread⟩ => ⟨member, hmem hmember, hread⟩

/-- **An object yields the value of its known members**, in whatever order they stand and whatever
stands between them. -/
theorem yields_object {result : Except Fault Unit} {a : Except Fault α}
    (hknown : ReadsKnown shape view known result) (hother : skipValue.Yields other (.ok ()))
    (hclosed : ∀ done, (∀ member ∈ known, member.1 ∈ done) → shape.closed (view done) = a) :
    shape.read.YieldsDelimited (ObjectText shape other known) (result.bind fun _ => a) := by
  rintro spaces bytes rest hs ⟨members, harranges, hbytes⟩
  obtain ⟨done, hdone, hmembers⟩ := harranges.exists_yieldsEach hknown hother
  rw [yields_read hmembers rest hs hbytes, ← hclosed done hdone]
  cases result <;> rfl

end TraceTimeline.Json
