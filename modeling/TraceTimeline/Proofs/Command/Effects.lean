import TraceTimeline.Command.Conversion
import TraceTimeline.Proofs.FileSystem.Growth

/-!
# What commands do to a session

Commands are written over any monad that can do what they need. Here they are run in a session.
`Job.Ends` says how a job ends, in success or in failure, and is proved step by step along the job.
Making directories does no more than that, also where it fails half way. Main statement: saving a
timeline makes missing directories and then puts one file in place, and where it fails it has made
directories at most.
-/

namespace TraceTimeline

open FileSystem

abbrev Job (ε α : Type) := ExceptT ε (StateM Session) α

variable {ε ε' α β : Type} {session before middle after : Session}

namespace Job

/-- Where the job succeeds, `done` holds of its result and of the session it leaves, and where it
fails, `failed` holds of the error and of that session. -/
def Ends (job : Job ε α) (session : Session) (done : α → Session → Prop)
    (failed : ε → Session → Prop) : Prop :=
  match job session with
  | (.ok a, after) => done a after
  | (.error error, after) => failed error after

variable {done done' : α → Session → Prop} {failed failed' : ε → Session → Prop}

theorem ends_pure (a : α) :
    Ends (pure a : Job ε α) session done failed ↔ done a session :=
  Iff.rfl

theorem ends_throw (error : ε) :
    Ends (throw error : Job ε α) session done failed ↔ failed error session :=
  Iff.rfl

theorem ends_lift (x : StateM Session α) :
    Ends (liftM x : Job ε α) session done failed ↔ done (x session).1 (x session).2 :=
  Iff.rfl

theorem ends_ofExcept {result : Except ε α} :
    Ends (ExceptT.mk (pure result) : Job ε α) session done failed ↔
      match result with
      | .ok a => done a session
      | .error error => failed error session := by
  cases result <;> rfl

theorem run_bind {job : Job ε α} {f : α → Job ε β} :
    (job >>= f) session =
      match job session with
      | (.ok a, after) => f a after
      | (.error error, after) => (.error error, after) := by
  have hrun : (job >>= f) session =
      (ExceptT.bindCont f (job session).1 : StateM Session (Except ε β)) (job session).2 := rfl
  rw [hrun]
  rcases job session with ⟨_ | _, _⟩ <;> rfl

theorem run_adapt {job : Job ε α} {f : ε → ε'} :
    job.adapt f session = ((job session).1.mapError f, (job session).2) :=
  rfl

theorem ends_bind {job : Job ε α} {f : α → Job ε β} {done : β → Session → Prop} :
    Ends (job >>= f) session done failed ↔
      Ends job session (fun a after => Ends (f a) after done failed) failed := by
  unfold Ends
  rw [run_bind]
  rcases job session with ⟨_ | _, _⟩ <;> rfl

theorem ends_adapt {job : Job ε α} {f : ε → ε'} {failed : ε' → Session → Prop} :
    Ends (job.adapt f) session done failed ↔
      Ends job session done fun error => failed (f error) := by
  unfold Ends
  rw [run_adapt]
  rcases job session with ⟨_ | _, _⟩ <;> rfl

theorem Ends.of_ok {job : Job ε α} (h : Ends job session done failed) {a : α}
    (hrun : job session = (.ok a, after)) : done a after := by
  unfold Ends at h
  rwa [hrun] at h

theorem Ends.of_error {job : Job ε α} (h : Ends job session done failed) {error : ε}
    (hrun : job session = (.error error, after)) : failed error after := by
  unfold Ends at h
  rwa [hrun] at h

theorem Ends.imp {job : Job ε α} (h : Ends job session done failed)
    (hdone : ∀ a after, done a after → done' a after)
    (hfailed : ∀ error after, failed error after → failed' error after) :
    Ends job session done' failed' := by
  unfold Ends at h ⊢
  split
  · rename_i a after hrun
    rw [hrun] at h
    exact hdone a after h
  · rename_i error after hrun
    rw [hrun] at h
    exact hfailed error after h

end Job

/-! ## Making directories -/

/-- Only directories have been made, each at one of the paths, and nothing has been read or
printed. -/
structure OnlyMakes (paths : List Path) (before after : Session) : Prop where
  files : GrownBy paths before.files after.files
  input : after.input = before.input
  printed : after.printed = before.printed

namespace OnlyMakes

variable {paths more : List Path}

theorem refl (paths : List Path) (session : Session) : OnlyMakes paths session session :=
  ⟨GrownBy.refl paths session.files, rfl, rfl⟩

theorem trans (h : OnlyMakes paths before middle) (h' : OnlyMakes paths middle after) :
    OnlyMakes paths before after :=
  ⟨h.files.trans h'.files, h'.input.trans h.input, h'.printed.trans h.printed⟩

theorem weaken (h : OnlyMakes paths before after) (hsub : ∀ path ∈ paths, path ∈ more) :
    OnlyMakes more before after :=
  ⟨h.files.weaken hsub, h.input, h.printed⟩

end OnlyMakes

theorem run_bind (x : StateM Session α) (f : α → StateM Session β) (session : Session) :
    (x >>= f) session = f (x session).1 (x session).2 :=
  rfl

theorem run_makeDirectory (path : Path) (session : Session) :
    (Surroundings.makeDirectory path : StateM Session (Except FileFault Unit)) session =
      match session.files.makeDirectory path with
      | .ok files => (.ok (), { session with files })
      | .error fault => (.error fault, session) :=
  rfl

theorem run_isDirectory (path : Path) (session : Session) :
    (Surroundings.isDirectory path : StateM Session Bool) session =
      (session.files.isDirectory path, session) :=
  rfl

theorem run_isPresent (path : Path) (session : Session) :
    (Surroundings.isPresent path : StateM Session Bool) session =
      (session.files.isPresent path, session) :=
  rfl

theorem run_readFile (path : Path) (session : Session) :
    (Surroundings.readFile path : StateM Session (Except ReadFault Bytes)) session =
      (session.files.read path, session) :=
  rfl

theorem onlyMakes_makeSurely (path : Path) (session : Session) :
    OnlyMakes [path] session ((makeSurely path : StateM Session _) session).2 := by
  unfold makeSurely
  rw [run_bind, run_makeDirectory]
  cases hmake : session.files.makeDirectory path with
  | ok files => exact ⟨grownBy_of_makeDirectory hmake, rfl, rfl⟩
  | error fault =>
      dsimp only
      rw [run_bind, run_isDirectory]
      split <;> exact OnlyMakes.refl _ _

/-- Making nested directories makes directories only, whether it comes to its end or not. -/
theorem onlyMakes_makeNested (paths : List Path) (session : Session) :
    OnlyMakes paths session ((makeNested paths : StateM Session _) session).2 := by
  induction paths generalizing session with
  | nil => exact OnlyMakes.refl _ _
  | cons path outer ih =>
      have hpath : ∀ session,
          OnlyMakes (path :: outer) session ((makeSurely path : StateM Session _) session).2 :=
        fun session => (onlyMakes_makeSurely path session).weaken
          (List.forall_mem_singleton.mpr List.mem_cons_self)
      have houter : ∀ session,
          OnlyMakes (path :: outer) session ((makeNested outer : StateM Session _) session).2 :=
        fun session => (ih session).weaken fun _ => List.mem_cons_of_mem path
      unfold makeNested
      rw [run_bind]
      have hmake := hpath session
      generalize (makeSurely path : StateM Session _) session = made at hmake ⊢
      obtain ⟨result, middle⟩ := made
      have hnested := hmake.trans (houter middle)
      dsimp only
      split
      · rw [run_bind]
        generalize (makeNested outer : StateM Session _) middle = nested at hnested ⊢
        obtain ⟨_ | _, deeper⟩ := nested
        · exact hnested
        · exact hnested.trans (hpath deeper)
      · exact hmake

/-! ## Saving a timeline -/

theorem run_replaceFile (directory target : Path) (content : Bytes) (session : Session) :
    (Surroundings.replaceFile directory target content :
        StateM Session (Except FileFault Unit)) session =
      match session.files.replaceFile directory target content with
      | .ok files => (.ok (), { session with files })
      | .error fault => (.error fault, session) :=
  rfl

open Job

/-- The last step of saving, once there is a directory. -/
theorem ends_replaceFile {paths : List Path} (directory target : Path) (content : Bytes)
    (hmade : OnlyMakes paths session middle) :
    Ends
      (do
        match ← (liftM (Surroundings.replaceFile directory target content : StateM Session _) :
            Job DocumentError _) with
        | .ok () => return ()
        | .error fault => throw (.file fault))
      middle
      (fun _ after =>
        after.input = session.input ∧ after.printed = session.printed ∧
          ∃ location, after.files.locate target = .ok location ∧
            WrittenAt location content paths session.files after.files)
      (fun _ after => OnlyMakes paths session after) := by
  rw [ends_bind, ends_lift, run_replaceFile]
  cases hreplace : middle.files.replaceFile directory target content with
  | ok files => exact ⟨hmade.input, hmade.printed, WrittenAt.of_replaceFile hmade.files hreplace⟩
  | error fault => exact hmade

/-- **Saving a timeline** writes its whole document under the path, after missing directories have
been made, or fails with no file changed. -/
theorem Timeline.ends_save (timeline : Timeline) (style : Json.Style) (path : Path)
    (session : Session) :
    Ends (timeline.save style path) session
      (fun _ after =>
        after.input = session.input ∧ after.printed = session.printed ∧
          ∃ location, after.files.locate path = .ok location ∧
            WrittenAt location (Bytes.ofText (timeline.toJson style)) path.directory.ancestors
              session.files after.files)
      (fun _ after => OnlyMakes path.directory.ancestors session after) := by
  have hnothing := OnlyMakes.refl path.directory.ancestors session
  unfold Timeline.save
  by_cases hpath : path.text = ""
  · rw [if_pos hpath, ends_bind, ends_throw]
    exact hnothing
  · rw [if_neg hpath]
    dsimp only
    rw [ends_bind, ends_lift, run_isDirectory]
    by_cases hdirectory : session.files.isDirectory path = true
    · rw [if_pos hdirectory, ends_bind, ends_throw]
      exact hnothing
    · rw [if_neg hdirectory, ends_bind, ends_lift, run_isPresent]
      by_cases hpresent : (!session.files.isPresent path.directory) = true
      · rw [if_pos hpresent, ends_bind, ends_lift]
        have hmade := onlyMakes_makeNested path.directory.ancestors session
        generalize (makeNested path.directory.ancestors : StateM Session _) session = made
          at hmade ⊢
        split
        · exact ends_replaceFile _ _ _ hmade
        · rw [ends_bind, ends_throw]
          exact hmade
      · rw [if_neg hpresent]
        exact ends_replaceFile _ _ _ hnothing

end TraceTimeline
