import JMan.Build.Publish

/-!
# JMan — local publication

`install_local` of `jman-publish/src/lib.rs`: every staged file is copied to a temporary
name beside its destination, what is at the destination is removed, and the copy is moved
there. Each step can fail, and the process can end after any of them (`FileStore.LeftBy`).

* `installs_atomically_iff` — the repositories and stagings for which every published path
  has its old or its new contents throughout.
-/

namespace JMan.Build

open FileStore (Operation World LeftBy Runs Only exec act leftBy_bind_left leftBy_bind_right leftBy_exec)
open Paths (Path)

namespace LocalPublication

abbrev Contents := List UInt8

-- Installation
-- ---

structure StagedFile where
  relative : Path
  contents : Contents
deriving DecidableEq

/-- The files of a directory: no two at the same place, and none of them the
directory itself. -/
structure Staging where
  files : List StagedFile
  nodup : (files.map StagedFile.relative).Nodup
  named : ∀ file ∈ files, file.relative ≠ []

/-- `path.extension()` -/
def fileExtension (path : Path) : Option (List Char) :=
  match path.getLast? with
  | none => none
  | some name =>
    let stem := Paths.fileStem name.toList
    if stem = name.toList then none else some (name.toList.drop (stem.length + 1))

def destinationOf (repository : Path) (file : StagedFile) : Path := repository ++ file.relative

/-- `destination.with_extension(format!("{}.jman-tmp-{}", .., std::process::id()))` -/
def temporaryOf (pid : String) (destination : Path) : Path :=
  Paths.withExtension destination
    (String.ofList ((fileExtension destination).getD "file".toList) ++ ".jman-tmp-" ++ pid)

def installFile (pid : String) (repository : Path) (file : StagedFile) : Action Contents Unit := do
  let destination := destinationOf repository file
  let temporary := temporaryOf pid destination
  -- `create_dir_all` of the parent
  act (ioError destination) .step
  act (ioError temporary) (.write temporary file.contents)
  whenThere destination (.remove destination)
  act (ioError destination) (.rename temporary destination)

def installLocal (pid : String) (repository : Path) (files : List StagedFile) :
    Action Contents Unit := do
  -- `create_dir_all` of the repository, and the walk over the staged files
  act (ioError repository) .step
  act (ioError repository) .step
  files.forM (installFile pid repository)

-- Paths
-- ---

variable {pid : String} {repository : Path} {staging : Staging} {file other : StagedFile}

theorem destinationOf_ne_nil (hfile : file ∈ staging.files) : destinationOf repository file ≠ [] := by
  intro h
  exact staging.named file hfile (List.append_eq_nil_iff.mp h).2

variable (pid repository) in
theorem temporaryOf_ne (hfile : file ∈ staging.files) :
    temporaryOf pid (destinationOf repository file) ≠ destinationOf repository file := by
  refine Paths.withExtension_ne (destinationOf_ne_nil hfile) ?_
  simp

theorem eq_of_destinationOf (hfile : file ∈ staging.files) (hother : other ∈ staging.files)
    (h : destinationOf repository file = destinationOf repository other) : file = other :=
  List.inj_on_of_nodup_map staging.nodup hfile hother (List.append_cancel_left h)

-- One file
-- ---

variable {w : World Path Contents} {files : Path → Option Contents}

theorem runs_whenThere_remove (path : Path) (w : World Path Contents) :
    Runs (fun _ _ => False)
      (fun files => files = w.files ∨ files = Function.update w.files path none)
      (fun files => files = w.files ∨ files = Function.update w.files path none)
      (fun _ v => v.files = w.files ∨ v.files = Function.update w.files path none)
      (whenThere path (.remove path) : Action Contents Unit) w := by
  have honly : Only (fun operation => operation = .look path ∨ operation = .remove path)
      (whenThere path (.remove path) : Action Contents Unit) :=
    only_whenThere (.inl rfl) (.inr rfl)
  have hkeeps : ∀ files, LeftBy (whenThere path (.remove path) : Action Contents Unit) w files →
      files = w.files ∨ files = Function.update w.files path none := by
    intro files hleft
    refine honly.keeps
      (I := fun files => files = w.files ∨ files = Function.update w.files path none)
      (fun operation before hok hbefore => ?_)
      (fun operation before left hok hbefore => ?_) hleft (.inl rfl)
    · rcases hok with rfl | rfl
      · exact hbefore
      · rcases hbefore with rfl | rfl
        · exact .inr rfl
        · exact .inr (Function.update_idem ..)
    · rcases hok with rfl | rfl <;> exact hbefore
  constructor
  · exact hkeeps
  · intro e w' hexec _
    have hleft := hkeeps _ (leftBy_exec _ w)
    rwa [hexec] at hleft
  · intro a w' hexec _
    have hleft := hkeeps _ (leftBy_exec _ w)
    rwa [hexec] at hleft

/-- Every published path is absent or holds all of its file. -/
def Whole (repository : Path) (staging : Staging) (files : Path → Option Contents) : Prop :=
  ∀ file ∈ staging.files, files (destinationOf repository file) = none ∨
    files (destinationOf repository file) = some file.contents

def Separate (pid : String) (repository : Path) (staging : Staging) : Prop :=
  ∀ file ∈ staging.files, ∀ other ∈ staging.files,
    temporaryOf pid (destinationOf repository file) ≠ destinationOf repository other

theorem Whole.update_temporary (hseparate : Separate pid repository staging)
    (hfile : file ∈ staging.files) (h : Whole repository staging files)
    (left : Option Contents) : Whole repository staging
      (Function.update files (temporaryOf pid (destinationOf repository file)) left) := by
  intro other hother
  rw [Function.update_of_ne (hseparate file hfile other hother).symm]
  exact h other hother

theorem Whole.update_destination (hfile : file ∈ staging.files)
    (h : Whole repository staging files) {now : Option Contents}
    (hnow : now = none ∨ now = some file.contents) : Whole repository staging
      (Function.update files (destinationOf repository file) now) := by
  intro other hother
  by_cases hsame : destinationOf repository other = destinationOf repository file
  · obtain rfl := eq_of_destinationOf hother hfile hsame
    rwa [Function.update_self]
  · rw [Function.update_of_ne hsame]
    exact h other hother

theorem runs_installFile (hseparate : Separate pid repository staging)
    (hfile : file ∈ staging.files) (h : Whole repository staging w.files) :
    Runs (fun _ _ => False) (Whole repository staging) (fun _ => True)
      (fun _ v => Whole repository staging v.files) (installFile pid repository file) w := by
  have hstep : Runs (fun _ _ => False) (Whole repository staging) (fun _ => True)
      (fun _ v => v.files = w.files)
      (act (ioError (destinationOf repository file)) .step : Action Contents Unit) w :=
    .act h (fun _ => ⟨h, trivial⟩) (fun _ => ⟨h, trivial⟩) fun _ _ _ => ⟨h, fun _ hv => hv⟩
  refine hstep.bind fun _ v hv => ?_
  have hwhole : Whole repository staging v.files := hv ▸ h
  have hwrite : Runs (fun _ _ => False) (Whole repository staging) (fun _ => True)
      (fun _ u => u.files = Function.update v.files
        (temporaryOf pid (destinationOf repository file)) (some file.contents))
      (act (ioError (temporaryOf pid (destinationOf repository file)))
        (.write (temporaryOf pid (destinationOf repository file)) file.contents)) v :=
    .act hwhole (fun left => ⟨hwhole.update_temporary hseparate hfile left, trivial⟩)
      (fun hreport => by cases hreport) fun _ _ _ =>
        ⟨hwhole.update_temporary hseparate hfile _, fun _ hu => hu⟩
  refine hwrite.bind fun _ u hu => ?_
  have hwritten : Whole repository staging u.files :=
    hu ▸ hwhole.update_temporary hseparate hfile _
  have hremoved : Whole repository staging
      (Function.update u.files (destinationOf repository file) none) :=
    hwritten.update_destination hfile (.inl rfl)
  have hboth : ∀ files, files = u.files ∨
      files = Function.update u.files (destinationOf repository file) none →
        Whole repository staging files := by
    intro files hfiles
    rcases hfiles with rfl | rfl
    · exact hwritten
    · exact hremoved
  have hremove := (runs_whenThere_remove (destinationOf repository file) u).conseq
    hboth (fun _ _ => trivial) fun _ _ => id
  refine hremove.bind fun _ t ht => ?_
  have htemporary : t.files (temporaryOf pid (destinationOf repository file)) =
      some file.contents := by
    have hwrote : u.files (temporaryOf pid (destinationOf repository file)) =
        some file.contents := by
      rw [hu]
      exact Function.update_self ..
    rcases ht with ht | ht
    · rw [ht, hwrote]
    · rw [ht, Function.update_of_ne (temporaryOf_ne _ _ hfile), hwrote]
  have hmoved : Whole repository staging ((Operation.rename
      (temporaryOf pid (destinationOf repository file))
      (destinationOf repository file)).succeed t.files) := by
    rw [Operation.succeed, htemporary]
    exact ((hboth _ ht).update_temporary hseparate hfile none).update_destination hfile (.inr rfl)
  refine (Runs.rename _ _ _ _ t).conseq (fun files hfiles => ?_) (fun _ _ => trivial)
    fun _ v' hv' => ?_
  · rcases hfiles with rfl | ⟨-, rfl⟩
    · exact hboth _ ht
    · exact hmoved
  · rw [hv'.2]
    exact hmoved

theorem runs_forM (hseparate : Separate pid repository staging) {some : List StagedFile}
    (hsome : ∀ file ∈ some, file ∈ staging.files) (h : Whole repository staging w.files) :
    Runs (fun _ _ => False) (Whole repository staging) (fun _ => True)
      (fun _ v => Whole repository staging v.files)
      (some.forM (installFile pid repository)) w := by
  induction some generalizing w with
  | nil => exact .pure h h
  | cons file some ih =>
    rw [List.forall_mem_cons] at hsome
    rw [List.forM_eq_forM, List.forM_cons]
    exact (runs_installFile hseparate hsome.1 h).bind fun _ v hv => ih hsome.2 hv

/-- **Where nothing is replaced, every published path is absent or whole throughout.** -/
theorem keeps_installLocal (hseparate : Separate pid repository staging)
    (h : Whole repository staging w.files)
    (hleft : LeftBy (installLocal pid repository staging.files) w files) :
    Whole repository staging files := by
  have hstep : ∀ w : World Path Contents, Whole repository staging w.files →
      Runs (fun _ _ => False) (Whole repository staging) (fun _ => True)
        (fun _ v => Whole repository staging v.files)
        (act (ioError repository) .step : Action Contents Unit) w :=
    fun w h => .act h (fun _ => ⟨h, trivial⟩) (fun _ => ⟨h, trivial⟩) fun _ _ _ =>
      ⟨h, fun _ hv => by rw [hv]; exact h⟩
  have hruns : Runs (fun _ _ => False) (Whole repository staging) (fun _ => True)
      (fun _ v => Whole repository staging v.files)
      (installLocal pid repository staging.files) w :=
    (hstep w h).bind fun _ v hv => (hstep v hv).bind fun _ u hu =>
      runs_forM hseparate (fun _ => id) hu
  exact hruns.during files hleft

-- What goes wrong
-- ---

theorem exec_whenThere_calm (path : Path) (hcalm : w.outcomes = []) :
    ∃ v, exec (whenThere path (.remove path) : Action Contents Unit) w = (.ok (), v) ∧
      v.outcomes = [] ∧ v.files = Function.update w.files path none := by
  have hlook : ¬ FileStore.lookFails (.look path) w := by
    intro h
    obtain ⟨-, left, hleft⟩ := h
    simp [World.next, hcalm] at hleft
  have hlooked : (FileStore.looked path w).outcomes = [] := by
    simp [FileStore.looked, Operation.perform, World.next, hcalm]
  have hfound := FileStore.exec_isThere (ε := BuildError) hlook
  cases hthere : w.files path with
  | none =>
    rw [hthere] at hfound
    refine ⟨_, FileStore.exec_bind_ok hfound, hlooked, ?_⟩
    rw [FileStore.files_looked, ← hthere, Function.update_eq_self]
  | some old =>
    rw [hthere] at hfound
    obtain ⟨v, hremove, hv, hfiles⟩ :=
      FileStore.exec_act_calm (ioError path) (.remove path) hlooked rfl
    refine ⟨v, (FileStore.exec_bind_ok hfound).trans hremove, hv, ?_⟩
    rw [hfiles, FileStore.files_looked]
    rfl

variable (pid repository) in
/-- Where nothing fails, the copy is made, what is there removed, and the file
installed; no other file changes. -/
theorem installFile_calm (hfile : file ∈ staging.files) (hcalm : w.outcomes = []) :
    (∀ left, LeftBy (installFile pid repository file) w
      (Function.update w.files (temporaryOf pid (destinationOf repository file)) left)) ∧
    (∃ files, LeftBy (installFile pid repository file) w files ∧
      files (destinationOf repository file) = none) ∧
    ∃ v, exec (installFile pid repository file) w = (.ok (), v) ∧ v.outcomes = [] ∧
      ∀ path, path ≠ temporaryOf pid (destinationOf repository file) →
        path ≠ destinationOf repository file → v.files path = w.files path := by
  have hne := temporaryOf_ne pid repository hfile
  obtain ⟨v, hstep, hv, hvfiles⟩ :=
    FileStore.exec_act_calm (ioError (destinationOf repository file)) .step hcalm rfl
  obtain ⟨u, hwrite, hu, hufiles⟩ := FileStore.exec_act_calm
    (ioError (temporaryOf pid (destinationOf repository file)))
    (.write (temporaryOf pid (destinationOf repository file)) file.contents) hv rfl
  obtain ⟨t, hremove, ht, htfiles⟩ := exec_whenThere_calm (destinationOf repository file) hu
  have htemporary : t.files (temporaryOf pid (destinationOf repository file)) =
      some file.contents := by
    rw [htfiles, Function.update_of_ne hne, hufiles]
    exact Function.update_self ..
  obtain ⟨w', hrename, hw', hw'files⟩ := FileStore.exec_act_calm
    (ioError (destinationOf repository file))
    (.rename (temporaryOf pid (destinationOf repository file)) (destinationOf repository file)) ht
    (by simp [Operation.report, htemporary])
  have hvfiles : v.files = w.files := hvfiles
  refine ⟨fun left => ?_, ⟨t.files, ?_, ?_⟩, w', ?_, hw', fun path htemp hdest => ?_⟩
  · refine leftBy_bind_right hstep (leftBy_bind_left (.inr (.inl ⟨left, ?_⟩)))
    rw [hvfiles]
    rfl
  · refine leftBy_bind_right hstep (leftBy_bind_right hwrite (leftBy_bind_left ?_))
    have hleft := leftBy_exec (whenThere (destinationOf repository file)
      (.remove (destinationOf repository file)) : Action Contents Unit) u
    rwa [hremove] at hleft
  · rw [htfiles]
    exact Function.update_self ..
  · exact (FileStore.exec_bind_ok hstep).trans ((FileStore.exec_bind_ok hwrite).trans
      ((FileStore.exec_bind_ok hremove).trans hrename))
  · rw [hw'files, FileStore.rename_other htemp hdest, htfiles, Function.update_of_ne hdest,
      hufiles]
    show Function.update v.files _ _ path = _
    rw [Function.update_of_ne htemp, hvfiles]

variable (pid repository) in
theorem forM_calm {some : List StagedFile} (hsome : ∀ file ∈ some, file ∈ staging.files)
    (hcalm : w.outcomes = []) :
    ∃ v, exec (some.forM (installFile pid repository)) w = (.ok (), v) ∧ v.outcomes = [] ∧
      ∀ path, (∀ file ∈ some, path ≠ temporaryOf pid (destinationOf repository file) ∧
        path ≠ destinationOf repository file) → v.files path = w.files path := by
  induction some generalizing w with
  | nil => exact ⟨w, rfl, hcalm, fun _ _ => rfl⟩
  | cons file some ih =>
    rw [List.forall_mem_cons] at hsome
    obtain ⟨-, -, u, hfirst, hu, hufiles⟩ :=
      installFile_calm pid repository hsome.1 hcalm
    obtain ⟨v, hrest, hv, hvfiles⟩ := ih hsome.2 hu
    refine ⟨v, FileStore.exec_forM_cons_eq_ok.mpr ⟨u, hfirst, hrest⟩, hv, fun path hpath => ?_⟩
    rw [List.forall_mem_cons] at hpath
    rw [hvfiles path hpath.2, hufiles path hpath.1.1 hpath.1.2]

variable (pid repository) in
theorem exists_turn (hfile : file ∈ staging.files) (files : Path → Option Contents) :
    ∃ v : World Path Contents, v.outcomes = [] ∧
      (∀ path, (∀ other ∈ staging.files, other ≠ file →
        path ≠ temporaryOf pid (destinationOf repository other) ∧
          path ≠ destinationOf repository other) → v.files path = files path) ∧
      ∀ left, LeftBy (installFile pid repository file) v left →
        LeftBy (installLocal pid repository staging.files) (.calm files) left := by
  obtain ⟨before, after, hsplit⟩ := List.append_of_mem hfile
  obtain ⟨u, hfirst, hu, hufiles⟩ := FileStore.exec_act_calm (ioError repository)
    (.step : Operation Path Contents) (rfl : (World.calm files).outcomes = []) rfl
  obtain ⟨t, hsecond, ht, htfiles⟩ := FileStore.exec_act_calm (ioError repository)
    (.step : Operation Path Contents) hu rfl
  have hbefore : ∀ other ∈ before, other ∈ staging.files := by
    intro other hother
    rw [hsplit]
    exact List.mem_append_left _ hother
  obtain ⟨v, hbeforerun, hv, hvfiles⟩ :=
    forM_calm pid repository hbefore ht
  refine ⟨v, hv, fun path hpath => ?_, fun left hleft => ?_⟩
  · have hnodup : (before.map StagedFile.relative ++ file.relative ::
        after.map StagedFile.relative).Nodup := by
      have hnodup := staging.nodup
      rwa [hsplit, List.map_append, List.map_cons] at hnodup
    rw [hvfiles path fun other hother => hpath other (hbefore other hother) ?_, htfiles]
    · show u.files path = _
      rw [hufiles]
      rfl
    · intro hsame
      have hrelative := List.mem_map_of_mem (f := StagedFile.relative) hother
      rw [hsame] at hrelative
      exact (List.nodup_append.mp hnodup).2.2 _ hrelative _ List.mem_cons_self rfl
  · rw [hsplit]
    exact leftBy_bind_right hfirst (leftBy_bind_right hsecond
      (FileStore.leftBy_forM hbeforerun hleft))

-- Atomicity
-- ---

/-- A published path now: as before or all of its file, and there if it was. -/
structure OldOrNew (old now : Option Contents) (new : Contents) : Prop where
  whole : now = old ∨ now = some new
  there : old ≠ none → now ≠ none

/-- Wherever the process ends and whatever fails, every published path has its old
or its new contents. -/
def InstallsAtomically (pid : String) (repository : Path) (staging : Staging)
    (old : Path → Option Contents) : Prop :=
  ∀ w : World Path Contents, w.files = old → ∀ files,
    LeftBy (installLocal pid repository staging.files) w files → ∀ file ∈ staging.files,
      OldOrNew (old (destinationOf repository file)) (files (destinationOf repository file))
        file.contents

theorem exists_torn {old : Path → Option Contents} (hfile : file ∈ staging.files)
    (hother : other ∈ staging.files) (hsame : temporaryOf pid (destinationOf repository file) =
      destinationOf repository other) : ¬ InstallsAtomically pid repository staging old := by
  intro h
  obtain ⟨v, hcalm, -, hturn⟩ :=
    exists_turn pid repository hfile old
  -- something that is neither old nor new, or nothing where there was something
  obtain ⟨left, hleft⟩ : ∃ left, ¬ OldOrNew (old (destinationOf repository other)) left
      other.contents := by
    cases hold : old (destinationOf repository other) with
    | none =>
      refine ⟨some (0 :: other.contents), fun h => ?_⟩
      cases h.whole with
      | inl h => cases h
      | inr h => simpa using congrArg List.length (Option.some.inj h)
    | some contents => exact ⟨none, fun h => h.there (Option.some_ne_none _) rfl⟩
  refine hleft ?_
  have htorn := h (.calm old) rfl _ (hturn _ ((installFile_calm _ _ hfile hcalm).1 left)) other hother
  rwa [hsame, Function.update_self] at htorn

theorem exists_absent {old : Path → Option Contents} (hfile : file ∈ staging.files)
    (hthere : old (destinationOf repository file) ≠ none) :
    ¬ InstallsAtomically pid repository staging old := by
  intro h
  obtain ⟨v, hcalm, -, hturn⟩ :=
    exists_turn pid repository hfile old
  obtain ⟨files, hleft, habsent⟩ :=
    (installFile_calm pid repository hfile hcalm).2.1
  exact (h (.calm old) rfl files (hturn files hleft) file hfile).there hthere habsent

/--
**Local publication** has the old or the new contents at every published path
throughout, exactly where nothing is replaced and no temporary name is published.
-/
theorem installs_atomically_iff (pid : String) (repository : Path) (staging : Staging)
    (old : Path → Option Contents) : InstallsAtomically pid repository staging old ↔
      (∀ file ∈ staging.files, old (destinationOf repository file) = none) ∧
        Separate pid repository staging := by
  constructor
  · intro h
    refine ⟨fun file hfile => ?_, fun file hfile other hother hsame => ?_⟩
    · by_contra hthere
      exact exists_absent hfile hthere h
    · exact exists_torn hfile hother hsame h
  · intro h w hw files hleft file hfile
    obtain ⟨hnew, hseparate⟩ := h
    have hwhole : Whole repository staging w.files := fun file hfile => by
      rw [hw]
      exact .inl (hnew file hfile)
    have hnow := keeps_installLocal hseparate hwhole hleft file hfile
    rw [hnew file hfile]
    exact ⟨hnow, fun hthere => absurd rfl hthere⟩

def stagingOfExample : Staging where
  files := [⟨["com", "example", "demo-1.pom"], [80, 79, 77]⟩]
  nodup := by decide
  named := by decide

/-- Publishing a release again: between removal and rename the file is absent. -/
theorem publishing_again_not_atomic :
    ¬ InstallsAtomically "7" ["repository"] stagingOfExample
      fun path => if path = ["repository", "com", "example", "demo-1.pom"] then some [79] else none := by
  have hfile : ⟨["com", "example", "demo-1.pom"], [80, 79, 77]⟩ ∈ stagingOfExample.files :=
    List.mem_cons_self
  exact exists_absent hfile (by decide)

end LocalPublication

end JMan.Build
