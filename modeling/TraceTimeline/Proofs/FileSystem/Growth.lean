import TraceTimeline.FileSystem.Basic
import TraceTimeline.Proofs.Trace.BaseName

/-!
# File systems that grow by directories

A directory is made only where nothing was, so making directories takes nothing away: every place
keeps what it held, and a path that led somewhere still leads there. `GrownBy paths before after`
says that and more: whatever is new is a directory that one of the paths leads to. Main statements:
a directory that is made grows the file system by its path, and a file that is put in place is found
under its path, with nothing else changed.
-/

namespace TraceTimeline

/-- The last piece of a path is empty only behind a final slash. -/
theorem Path.getLast?_of_pieces {path : Path} {front : List String} (hempty : path.text ≠ "")
    (h : path.pieces = front ++ [""]) : path.text.toList.getLast? = some '/' := by
  have hpieces : path.pieces.getLast? = some "" := by
    rw [h, List.getLast?_append, List.getLast?_singleton, Option.some_or]
  by_cases hslash : '/' ∈ path.text.toList
  · obtain ⟨front, back, hs, hback⟩ := Text.exists_last_separator hslash
    rw [pieces, hs, List.splitOn_append_cons_self, List.splitOn_eq_singleton hback, List.map_append,
      List.getLast?_append] at hpieces
    obtain rfl : back = [] := by simpa using hpieces
    rw [hs, List.getLast?_append]
    rfl
  · rw [pieces, List.splitOn_eq_singleton hslash] at hpieces
    exact absurd (by simpa using hpieces) hempty

namespace FileSystem

variable {fs before after : FileSystem} {location other here there : Location} {path : Path}

theorem lookup_filter_ne (entries : List (Location × Entry)) (h : other ≠ location) :
    (entries.filter (·.1 ≠ location)).lookup other = entries.lookup other := by
  induction entries with
  | nil => rfl
  | cons pair entries ih =>
      obtain ⟨place, entry⟩ := pair
      by_cases hplace : place = location
      · have hne : (other == place) = false := by
          rw [hplace]
          exact beq_eq_false_iff_ne.mpr h
        rw [List.filter_cons_of_neg (by simpa using hplace), ih, List.lookup_cons, hne]
      · rw [List.filter_cons_of_pos (by simpa using hplace), List.lookup_cons, List.lookup_cons, ih]

theorem entry?_put_of_ne (fs : FileSystem) (entry : Entry) (h : other ≠ location) :
    FileSystem.entry? (fs.put location entry) other = fs.entry? other := by
  have hne : (other == location) = false := beq_eq_false_iff_ne.mpr h
  unfold entry? put
  simp only [List.lookup_cons, hne, lookup_filter_ne fs.entries h]

theorem entry?_put_self (fs : FileSystem) (entry : Entry) (h : location ≠ []) :
    FileSystem.entry? (fs.put location entry) location = some entry := by
  unfold entry? put
  rw [if_neg h, List.lookup_cons_self]

structure KeepsDirectories (before after : FileSystem) : Prop where
  workingDirectory : after.workingDirectory = before.workingDirectory
  directory : ∀ location, before.entry? location = some .directory →
    after.entry? location = some .directory

theorem entry?_of_enter {name : String} (h : fs.enter here name = .ok there) :
    fs.entry? here = some .directory := by
  unfold enter at h
  split at h
  · cases h
  · cases h
  · assumption

theorem enter_of_keepsDirectories (hkeep : KeepsDirectories before after) {name : String}
    (h : before.enter here name = .ok there) : after.enter here name = .ok there := by
  have hdirectory := entry?_of_enter h
  unfold enter at h ⊢
  rw [hdirectory] at h
  rw [hkeep.directory here hdirectory]
  exact h

theorem foldlM_enter_of_keepsDirectories (hkeep : KeepsDirectories before after)
    {names : List String} (h : names.foldlM before.enter here = .ok there) :
    names.foldlM after.enter here = .ok there := by
  induction names generalizing here with
  | nil => exact h
  | cons name names ih =>
      rw [List.foldlM_cons] at h ⊢
      cases hname : before.enter here name with
      | error fault =>
          rw [hname] at h
          cases h
      | ok next =>
          rw [hname] at h
          rw [enter_of_keepsDirectories hkeep hname]
          exact ih h

theorem origin_of_keepsDirectories (hkeep : KeepsDirectories before after) (path : Path) :
    after.origin path = before.origin path := by
  unfold origin
  rw [hkeep.workingDirectory]

theorem locate_eq_ok_iff :
    fs.locate path = .ok location ↔ path.text ≠ "" ∧ '\x00' ∉ path.text.toList ∧
      path.pieces.foldlM fs.enter (fs.origin path) = .ok location := by
  unfold locate
  split
  · rename_i hempty
    exact ⟨nofun, fun h => absurd hempty h.1⟩
  · rename_i hempty
    split
    · rename_i hnul
      exact ⟨nofun, fun h => absurd hnul h.2.1⟩
    · rename_i hnul
      exact ⟨fun h => ⟨hempty, hnul, h⟩, fun h => h.2.2⟩

theorem find_of_locate {entry : Entry} (hlocate : fs.locate path = .ok location)
    (hentry : fs.entry? location = some entry) : fs.find path = .ok entry := by
  unfold find
  simp only [hlocate, hentry, bind, Except.bind]
  rfl

theorem locate_of_keepsDirectories (hkeep : KeepsDirectories before after)
    (h : before.locate path = .ok location) : after.locate path = .ok location := by
  obtain ⟨hempty, hnul, hfold⟩ := locate_eq_ok_iff.mp h
  refine locate_eq_ok_iff.mpr ⟨hempty, hnul, ?_⟩
  rw [origin_of_keepsDirectories hkeep]
  exact foldlM_enter_of_keepsDirectories hkeep hfold

/-! ## The place of a new entry -/

/-- A path to a place for a new entry. Its pieces in front lead to a directory, and a name follows
under which there may be a new entry. Behind the name there may be slashes. -/
structure NamesSlot (fs : FileSystem) (path : Path) (location : Location) : Prop where
  text_ne : path.text ≠ ""
  nul_not_mem : '\x00' ∉ path.text.toList
  exists_pieces : ∃ front last slashes directory,
    path.pieces = front ++ last :: List.replicate slashes "" ∧ last ≠ "" ∧
      front.foldlM fs.enter (fs.origin path) = .ok directory ∧
      fs.enter directory last = .ok location ∧ location ≠ []

/-- What is left of some pieces when the empty ones at their end are dropped. -/
theorem exists_eq_append_replicate {pieces front : List String} {last : String}
    (h : pieces.reverse.dropWhile (· = "") = last :: front) :
    ∃ slashes, pieces = front.reverse ++ last :: List.replicate slashes "" ∧ last ≠ "" := by
  have hsplit := List.takeWhile_append_dropWhile (p := (· = "")) (l := pieces.reverse)
  have hhead := List.head?_dropWhile_not (fun piece => decide (piece = "")) pieces.reverse
  have hblank : ∀ piece ∈ pieces.reverse.takeWhile (· = ""), piece = "" := fun piece hpiece =>
    of_decide_eq_true (List.all_eq_true.mp List.all_takeWhile piece hpiece)
  rw [h] at hsplit hhead
  generalize pieces.reverse.takeWhile (· = "") = blank at hsplit hblank
  refine ⟨blank.length, ?_, of_decide_eq_false hhead⟩
  rw [← List.reverse_reverse pieces, ← hsplit, List.eq_replicate_of_mem hblank]
  simp

/-- A name of its own leads one step down. -/
theorem enter_eq_append {name : String} (h : fs.enter here name = .ok there)
    (hsilent : Path.isSilent name = false) (hup : name ≠ "..") : there = here ++ [name] := by
  unfold enter at h
  simp only [entry?_of_enter h, hsilent, Bool.false_eq_true, if_false, if_neg hup] at h
  split at h
  · cases h
  · exact (Except.ok.inj h).symm

theorem namesSlot_of_slot? (h : fs.slot? path = .ok (some location)) :
    fs.NamesSlot path location := by
  unfold slot? at h
  split at h
  · cases h
  · rename_i hempty
    split at h
    · cases h
    · rename_i hnul
      split at h
      · cases h
      · rename_i last front hdrop
        obtain ⟨slashes, hpieces, hlast⟩ := exists_eq_append_replicate hdrop
        cases hfront : front.reverse.foldlM fs.enter (fs.origin path) with
        | error fault =>
            simp only [hfront, bind, Except.bind] at h
            cases h
        | ok directory =>
            cases henter : fs.enter directory last with
            | error fault =>
                simp only [hfront, henter, bind, Except.bind] at h
                cases h
            | ok there =>
                simp only [hfront, henter, bind, Except.bind] at h
                split at h
                · cases h
                · rename_i hdots
                  obtain ⟨hdot, hup⟩ := not_or.mp hdots
                  obtain rfl : there = location := Option.some.inj (Except.ok.inj h)
                  have hsilent : Path.isSilent last = false := by simp [Path.isSilent, hlast, hdot]
                  refine ⟨hempty, hnul, _, last, slashes, directory, hpieces, hlast, hfront,
                    henter, ?_⟩
                  rw [enter_eq_append henter hsilent hup]
                  exact List.append_ne_nil_of_right_ne_nil _ (List.cons_ne_nil _ _)

theorem foldlM_enter_replicate (h : fs.entry? here = some .directory) (slashes : Nat) :
    (List.replicate slashes "").foldlM fs.enter here = .ok here := by
  induction slashes with
  | zero => rfl
  | succ slashes ih =>
      have hstay : fs.enter here "" = .ok here := by
        unfold enter
        rw [h]
        rfl
      rw [List.replicate_succ, List.foldlM_cons, hstay]
      exact ih

namespace NamesSlot

theorem ne_nil (h : fs.NamesSlot path location) : location ≠ [] := by
  obtain ⟨-, -, -, -, -, -, -, -, -, -, hne⟩ := h
  exact hne

/-- The path leads to the place if the slashes behind its last name stay there. -/
theorem locate_of_slashes (h : before.NamesSlot path location)
    (hkeep : KeepsDirectories before after) :
    ∃ pieces slashes, path.pieces = pieces ++ List.replicate slashes "" ∧
      ((List.replicate slashes "").foldlM after.enter location = .ok location →
        after.locate path = .ok location) := by
  obtain ⟨hempty, hnul, front, last, slashes, directory, hpieces, -, hfront, hlast, -⟩ := h
  have hsplit : path.pieces = (front ++ [last]) ++ List.replicate slashes "" := by
    rw [hpieces, List.append_assoc]
    rfl
  refine ⟨front ++ [last], slashes, hsplit, fun hstay => ?_⟩
  refine locate_eq_ok_iff.mpr ⟨hempty, hnul, ?_⟩
  rw [hpieces, List.foldlM_append, origin_of_keepsDirectories hkeep,
    foldlM_enter_of_keepsDirectories hkeep hfront]
  show List.foldlM after.enter directory (last :: _) = _
  rw [List.foldlM_cons, enter_of_keepsDirectories hkeep hlast]
  exact hstay

/-- The path leads to the place once there is a directory. -/
theorem locate_of_directory (h : before.NamesSlot path location)
    (hkeep : KeepsDirectories before after) (hdirectory : after.entry? location = some .directory) :
    after.locate path = .ok location := by
  obtain ⟨-, slashes, -, hlocate⟩ := h.locate_of_slashes hkeep
  exact hlocate (foldlM_enter_replicate hdirectory slashes)

/-- The path leads to the place, whatever is there, unless it ends in a slash. -/
theorem locate_of_getLast? (h : before.NamesSlot path location)
    (hkeep : KeepsDirectories before after) (hslash : path.text.toList.getLast? ≠ some '/') :
    after.locate path = .ok location := by
  obtain ⟨pieces, slashes, hpieces, hlocate⟩ := h.locate_of_slashes hkeep
  have hnone : slashes = 0 := by
    refine Nat.eq_zero_of_not_pos fun hpos => hslash ?_
    obtain ⟨k, rfl⟩ := Nat.exists_eq_succ_of_ne_zero (Nat.ne_of_gt hpos)
    rw [List.replicate_succ', ← List.append_assoc] at hpieces
    exact Path.getLast?_of_pieces h.text_ne hpieces
  subst hnone
  exact hlocate rfl

end NamesSlot

/-! ## Making directories -/

/-- A place that keeps what it holds, and where only a directory can be new, holds the files that it
held. -/
theorem file_iff_of_kept
    (hkept : ∀ entry, before.entry? location = some entry → after.entry? location = some entry)
    (hfresh : ∀ entry, after.entry? location = some entry → before.entry? location = none →
      entry = .directory)
    (content : Bytes) :
    after.entry? location = some (.file content) ↔
      before.entry? location = some (.file content) := by
  constructor
  · intro hafter
    cases hbefore : before.entry? location with
    | none => cases hfresh _ hafter hbefore
    | some entry =>
        rw [← hkept entry hbefore]
        exact hafter
  · exact hkept _

/-- The places of `before` hold what they held, and each place of `after` that is new is a directory
that one of the paths leads to. -/
structure GrownBy (paths : List Path) (before after : FileSystem) : Prop where
  workingDirectory : after.workingDirectory = before.workingDirectory
  kept : ∀ location entry, before.entry? location = some entry →
    after.entry? location = some entry
  fresh : ∀ location entry, after.entry? location = some entry → before.entry? location = none →
    entry = .directory ∧ ∃ path ∈ paths, after.locate path = .ok location

namespace GrownBy

variable {paths : List Path} {middle : FileSystem}

theorem refl (paths : List Path) (fs : FileSystem) : GrownBy paths fs fs where
  workingDirectory := rfl
  kept _ _ h := h
  fresh _ _ h hnone := by
    rw [hnone] at h
    cases h

theorem keepsDirectories (h : GrownBy paths before after) : KeepsDirectories before after where
  workingDirectory := h.workingDirectory
  directory location := h.kept location .directory

theorem trans (h : GrownBy paths before middle) (h' : GrownBy paths middle after) :
    GrownBy paths before after where
  workingDirectory := h'.workingDirectory.trans h.workingDirectory
  kept location entry hentry := h'.kept location entry (h.kept location entry hentry)
  fresh location entry hentry hnone := by
    cases hmiddle : middle.entry? location with
    | none => exact h'.fresh location entry hentry hmiddle
    | some entry' =>
        -- What was made on the way to `middle` is still there, and its path still leads to it.
        obtain ⟨rfl, path, hpath, hlocate⟩ := h.fresh location entry' hmiddle hnone
        have hstays := h'.kept location .directory hmiddle
        rw [hentry] at hstays
        exact ⟨Option.some.inj hstays, path, hpath,
          locate_of_keepsDirectories h'.keepsDirectories hlocate⟩

theorem weaken {more : List Path} (h : GrownBy paths before after)
    (hsub : ∀ path ∈ paths, path ∈ more) : GrownBy more before after where
  workingDirectory := h.workingDirectory
  kept := h.kept
  fresh location entry hentry hnone := by
    obtain ⟨hdirectory, path, hpath, hlocate⟩ := h.fresh location entry hentry hnone
    exact ⟨hdirectory, path, hsub path hpath, hlocate⟩

/-- Growing by directories makes no file and changes none. -/
theorem file_iff (h : GrownBy paths before after) (location : Location) (content : Bytes) :
    after.entry? location = some (.file content) ↔ before.entry? location = some (.file content) :=
  file_iff_of_kept (h.kept location)
    (fun entry hentry hnone => (h.fresh location entry hentry hnone).1) content

end GrownBy

theorem makeDirectory_eq_ok (h : fs.makeDirectory path = .ok after) :
    ∃ location, fs.slot? path = .ok (some location) ∧ fs.entry? location = none ∧
      after = fs.put location .directory := by
  unfold makeDirectory at h
  cases hslot : fs.slot? path with
  | error fault =>
      simp only [hslot, bind, Except.bind] at h
      cases h
  | ok slot =>
      simp only [hslot, bind, Except.bind] at h
      cases slot with
      | none => cases h
      | some location =>
          cases hentry : fs.entry? location with
          | some entry =>
              simp only [hentry] at h
              cases h
          | none =>
              simp only [hentry] at h
              exact ⟨location, rfl, hentry, (Except.ok.inj h).symm⟩

/-- **A directory that is made** is the one new thing, and its path leads to it. -/
theorem grownBy_of_makeDirectory (h : fs.makeDirectory path = .ok after) :
    GrownBy [path] fs after := by
  obtain ⟨location, hslot, hnone, rfl⟩ := makeDirectory_eq_ok h
  have hnames := namesSlot_of_slot? hslot
  have hself := entry?_put_self fs .directory hnames.ne_nil
  have hkept : ∀ place entry, fs.entry? place = some entry →
      FileSystem.entry? (fs.put location .directory) place = some entry := by
    intro place entry hentry
    rw [entry?_put_of_ne, hentry]
    rintro rfl
    rw [hnone] at hentry
    cases hentry
  refine ⟨rfl, hkept, fun place entry hentry hfresh => ?_⟩
  by_cases hplace : place = location
  · subst hplace
    rw [hself] at hentry
    refine ⟨(Option.some.inj hentry).symm, path, List.mem_singleton_self path, ?_⟩
    exact hnames.locate_of_directory ⟨rfl, fun place => hkept place .directory⟩ hself
  · rw [entry?_put_of_ne fs .directory hplace, hfresh] at hentry
    cases hentry

/-! ## Putting a file in place -/

theorem exists_slot_of_replaceFile {directory target : Path} {content : Bytes}
    (h : fs.replaceFile directory target content = .ok after) :
    ∃ location, fs.slot? target = .ok (some location) ∧
      target.text.toList.getLast? ≠ some '/' ∧ fs.entry? location ≠ some .directory ∧
      after = fs.put location (.file content) := by
  unfold replaceFile at h
  cases hfind : fs.find directory with
  | error fault =>
      simp only [hfind, bind, Except.bind] at h
      cases h
  | ok entry =>
      simp only [hfind, bind, Except.bind] at h
      cases entry with
      | file _ => cases h
      | directory =>
          cases hslot : fs.slot? target with
          | error fault =>
              simp only [hslot] at h
              cases h
          | ok slot =>
              simp only [hslot] at h
              cases slot with
              | none => cases h
              | some location =>
                  dsimp only at h
                  split at h
                  · cases h
                  · rename_i hslash
                    split at h
                    · cases h
                    · rename_i hentry
                      exact ⟨location, rfl, hslash, hentry, (Except.ok.inj h).symm⟩

/-- **A file that is put in place** is found under its path. Every other place holds what it held,
and no directory is lost. -/
theorem replaceFile_eq_ok {directory target : Path} {content : Bytes}
    (h : fs.replaceFile directory target content = .ok after) :
    ∃ location, after.locate target = .ok location ∧
      after.entry? location = some (.file content) ∧ KeepsDirectories fs after ∧
      ∀ other, other ≠ location → after.entry? other = fs.entry? other := by
  obtain ⟨location, hslot, hslash, hentry, rfl⟩ := exists_slot_of_replaceFile h
  have hnames := namesSlot_of_slot? hslot
  have hkeep : KeepsDirectories fs (fs.put location (.file content)) := by
    refine ⟨rfl, fun place hplace => ?_⟩
    rw [entry?_put_of_ne, hplace]
    rintro rfl
    exact hentry hplace
  exact ⟨location, hnames.locate_of_getLast? hkeep hslash, entry?_put_self fs _ hnames.ne_nil,
    hkeep, fun other hother => entry?_put_of_ne fs _ hother⟩

/-- There is a file with this content at the location. Every other place holds what it held, and
each that is new is a directory that one of the paths leads to. -/
structure WrittenAt (location : Location) (content : Bytes) (paths : List Path)
    (before after : FileSystem) : Prop where
  written : after.entry? location = some (.file content)
  kept : ∀ other, other ≠ location → ∀ entry, before.entry? other = some entry →
    after.entry? other = some entry
  fresh : ∀ other, other ≠ location → ∀ entry, after.entry? other = some entry →
    before.entry? other = none → entry = .directory ∧ ∃ path ∈ paths, after.locate path = .ok other

namespace WrittenAt

variable {content : Bytes} {paths : List Path}

theorem file_iff (h : WrittenAt location content paths before after) (hother : other ≠ location)
    (content' : Bytes) :
    after.entry? other = some (.file content') ↔ before.entry? other = some (.file content') :=
  file_iff_of_kept (h.kept other hother)
    (fun entry hentry hnone => (h.fresh other hother entry hentry hnone).1) content'

/-- Directories are made first, and then the file is put in place. -/
theorem of_replaceFile {middle : FileSystem} {directory target : Path}
    (hgrown : GrownBy paths before middle)
    (h : middle.replaceFile directory target content = .ok after) :
    ∃ location, after.locate target = .ok location ∧
      WrittenAt location content paths before after := by
  obtain ⟨location, hlocate, hwritten, hkeep, hothers⟩ := replaceFile_eq_ok h
  refine ⟨location, hlocate, hwritten, ?_, ?_⟩
  · intro other hother entry hentry
    rw [hothers other hother]
    exact hgrown.kept other entry hentry
  · intro other hother entry hentry hnone
    rw [hothers other hother] at hentry
    obtain ⟨hdirectory, path, hpath, hmade⟩ := hgrown.fresh other entry hentry hnone
    exact ⟨hdirectory, path, hpath, locate_of_keepsDirectories hkeep hmade⟩

end WrittenAt

end FileSystem
end TraceTimeline
