import JMan.Build.Artifacts
import JMan.Lib.Interrupted

/-!
# JMan — publishing by renames

`replace_directory` and `replace_file` of `jman-build/src/lib.rs`: what is at a
path is moved to a backup, what was prepared is moved to the path, and if that
fails the backup is moved back. Each step can fail, and the process can end
after any of them (`FileStore.LeftBy`).

A tree or a file is one value of the store, so that a path that holds its old or
its new value holds all of it.
-/

namespace JMan.Build

open FileStore (Program Operation Access World Avoids LeftBy Runs Only Within exec act attempt isThere
  lookFails looked)
open Paths (Path)

abbrev Action (β α : Type) := Program Path β BuildError α

/-- `io_error(path, source)` -/
def ioError (path : Path) : BuildError := .io (Paths.display path) "input/output error"

-- Replacing what is at a path
-- ---

section Replace

variable {β : Type} (pid : String)

/-- `output.with_extension(format!("old.{}", std::process::id()))` -/
def backupOf (output : Path) : Path := Paths.withExtension output ("old." ++ pid)

/-- `remove_dir_all` of a tree, `remove_file` of a file. -/
def removal (tree : Bool) (path : Path) : Operation Path β :=
  if tree then .clear path else .remove path

/-- `if path.exists() { .. }`, for one operation on the path. -/
def whenThere (path : Path) (operation : Operation Path β) : Action β Unit := do
  if ← isThere path then act (ioError path) operation

def rollback (output backup : Path) (e : BuildError) : Action β Unit := do
  if ← isThere backup then attempt (.rename backup output)
  throw e

/-- The renames that move what was prepared to the path. -/
def moveIn (temporary output backup : Path) : Action β Unit :=
  tryCatch (act (ioError output) (.rename temporary output)) (rollback output backup)

/-- What `replace_directory` and the fallback of `replace_file` share. -/
def replaceBy (tree : Bool) (temporary output : Path) : Action β Unit := do
  whenThere (backupOf pid output) (removal tree (backupOf pid output))
  whenThere output (.rename output (backupOf pid output))
  moveIn temporary output (backupOf pid output)
  whenThere (backupOf pid output) (removal tree (backupOf pid output))

def replaceDirectory (temporary output : Path) : Action β Unit := replaceBy pid true temporary output

def replaceFile (temporary output : Path) : Action β Unit :=
  tryCatch (act (ioError output) (.rename temporary output)) fun _ =>
    replaceBy pid false temporary output

end Replace

-- What a replacement keeps
-- ---

section Atomic

variable {β : Type} {pid : String} {tree : Bool} {temporary output backup : Path}
  {w : World Path β} {bad : Operation Path β → World Path β → Prop}

/-- Wherever the run ends the path has its old content or the new one, and the old
one if the run fails. -/
structure Atomic (x : Action β Unit) (temporary output : Path) (w : World Path β) : Prop where
  during : ∀ files, LeftBy x w files → files output = w.files output ∨
    (w.files temporary).isSome ∧ files output = w.files temporary
  failing : ∀ e w', exec x w = (.error e, w') → w'.files output = w.files output

def movesAway (output backup : Path) (operation : Operation Path β) (w : World Path β) : Prop :=
  operation = .rename output backup ∧ w.next = .succeeds

theorem backupOf_ne (h : output ≠ []) : backupOf pid output ≠ output := by
  refine Paths.withExtension_ne h ?_
  rw [String.toList_append]
  exact List.mem_append_left _ (by decide)

@[simp] theorem succeed_removal (files : Path → Option β) :
    (removal tree backup).succeed files = Function.update files backup none := by
  cases tree <;> rfl

@[simp] theorem report_removal (files : Path → Option β) :
    (removal tree backup).report files = some none := by
  cases tree <;> rfl

theorem runs_removeLeftover (During Failing : (Path → Option β) → Prop)
    (hkeeps : ∀ files : Path → Option β, (∀ p, p ≠ backup → files p = w.files p) →
      During files ∧ Failing files)
    (hlooks : ∀ operation v, lookFails operation v → bad operation v) :
    Runs bad During Failing
      (fun _ v => v.files backup = none ∧ ∀ p, p ≠ backup → v.files p = w.files p)
      (whenThere backup (removal tree backup)) w := by
  have hstart := hkeeps w.files fun _ _ => rfl
  refine .isThere_bind hlooks hstart.1 ?_
  have hfiles := FileStore.files_looked backup w
  cases hthere : w.files backup with
  | none =>
    refine .pure (hfiles ▸ hstart.1) ⟨?_, fun p _ => ?_⟩
    · rw [hfiles, hthere]
    · rw [hfiles]
  | some leftover =>
    have hupdate : ∀ left, During (Function.update w.files backup left) ∧
        Failing (Function.update w.files backup left) := fun left =>
      hkeeps _ fun p hp => Function.update_of_ne hp ..
    refine .act (hfiles ▸ hstart.1) (fun left => ?_) (fun hreport => ?_) fun _ _ _ => ?_
    · rw [hfiles]
      cases tree
      · exact hstart
      · exact hupdate left
    · rw [report_removal] at hreport
      cases hreport
    · rw [hfiles, succeed_removal]
      refine ⟨(hupdate none).1, fun v hv => ?_⟩
      rw [hv]
      exact ⟨Function.update_self .., fun p hp => Function.update_of_ne hp ..⟩

theorem runs_moveAway {Moves : Prop} (hne : output ≠ backup) (hbackup : w.files backup = none)
    (hlooks : ∀ operation v, lookFails operation v → bad operation v)
    (hmoves : ∀ v : World Path β, v.next = .succeeds → ¬ bad (.rename output backup) v →
      w.files output ≠ none → Moves) :
    Runs bad (fun files => files = w.files ∨ Moves ∧ files output = none)
      (fun files => files = w.files)
      (fun _ v => (v.files output = none ∧ v.files backup = w.files output) ∧
        (w.files output ≠ none → Moves) ∧ ∀ p, p ≠ output → p ≠ backup → v.files p = w.files p)
      (whenThere output (.rename output backup)) w := by
  refine .isThere_bind hlooks (Or.inl rfl) ?_
  have hfiles := FileStore.files_looked output w
  cases hthere : w.files output with
  | none =>
    refine .pure (Or.inl hfiles) ⟨⟨?_, ?_⟩, fun h => absurd rfl h, fun p _ _ => ?_⟩
    · rw [hfiles, hthere]
    · rw [hfiles, hbackup]
    · rw [hfiles]
  | some old =>
    have hsome : (w.files output).isSome := by
      rw [hthere]
      rfl
    have hold : w.files output ≠ none := Option.isSome_iff_ne_none.mp hsome
    refine (Runs.rename bad _ output backup (looked output w)).conseq (fun files h => ?_)
      (fun files h => h.trans hfiles) fun _ v h => ?_
    · rcases h with rfl | ⟨⟨hnext, hgood, -⟩, rfl⟩
      · exact Or.inl hfiles
      · rw [hfiles]
        exact Or.inr ⟨hmoves _ hnext hgood hold, FileStore.rename_source hsome hne⟩
    · obtain ⟨⟨hnext, hgood, -⟩, hv⟩ := h
      rw [hv, hfiles]
      refine ⟨⟨FileStore.rename_source hsome hne, ?_⟩, fun _ => hmoves _ hnext hgood hold,
        fun p hp hp' => FileStore.rename_other hp hp'⟩
      rw [FileStore.rename_target hsome, hthere]

theorem runs_moveIn {Publishes : Prop} (hne : output ≠ backup) (htemporary : temporary ≠ backup)
    (houtput : w.files output = none)
    (hlooks : ∀ operation v, lookFails operation v → bad operation v)
    (hpublishes : ∀ v : World Path β, v.next = .succeeds → ¬ bad (.rename temporary output) v →
      Publishes) :
    Runs bad
      (fun files => files output = none ∨ files output = w.files backup ∨
        Publishes ∧ (w.files temporary).isSome ∧ files output = w.files temporary)
      (fun files => files output = w.files backup ∨ w.files backup ≠ none ∧ files output = none)
      (fun _ v => (Publishes ∧ (w.files temporary).isSome ∧ v.files output = w.files temporary) ∧
        v.files backup = w.files backup)
      (moveIn temporary output backup) w := by
  have hmove : Runs bad
      (fun files => files output = none ∨ files output = w.files backup ∨
        Publishes ∧ (w.files temporary).isSome ∧ files output = w.files temporary)
      (fun files => files = w.files)
      (fun _ v => (Publishes ∧ (w.files temporary).isSome ∧ v.files output = w.files temporary) ∧
        v.files backup = w.files backup)
      (act (ioError output) (.rename temporary output) : Action β Unit) w := by
    refine (Runs.rename bad _ temporary output w).conseq (fun files h => ?_) (fun _ => id)
      fun _ v h => ?_
    · rcases h with rfl | ⟨⟨hnext, hgood, hsome⟩, rfl⟩
      · exact Or.inl houtput
      · exact Or.inr (Or.inr ⟨hpublishes _ hnext hgood, hsome, FileStore.rename_target hsome⟩)
    · obtain ⟨⟨hnext, hgood, hsome⟩, hv⟩ := h
      rw [hv]
      exact ⟨⟨hpublishes _ hnext hgood, hsome, FileStore.rename_target hsome⟩,
        FileStore.rename_other htemporary.symm hne.symm⟩
  refine .tryCatch hmove fun e v hv => ?_
  refine .isThere_bind hlooks (Or.inl (hv ▸ houtput)) ?_
  have hempty : (looked backup v).files output = none := by
    rw [FileStore.files_looked, hv, houtput]
  have hsaved : (looked backup v).files backup = w.files backup := by
    rw [FileStore.files_looked, hv]
  rw [hv]
  cases hbackup : w.files backup with
  | none =>
    exact Runs.bind (.pure (Or.inl hempty) hempty) fun _ u hu => .throw (Or.inl hu) (Or.inl hu)
  | some old =>
    have hsome : ((looked backup v).files backup).isSome := by
      rw [hsaved, hbackup]
      rfl
    have hback : (Operation.rename backup output).succeed (looked backup v).files output =
        some old := by rw [FileStore.rename_target hsome, hsaved, hbackup]
    have hrollback : Runs bad
        (fun files => files output = none ∨ files output = some old ∨
          Publishes ∧ (w.files temporary).isSome ∧ files output = w.files temporary)
        (fun files => files output = some old ∨ some old ≠ none ∧ files output = none)
        (fun _ u => u.files output = none ∨ u.files output = some old)
        (attempt (.rename backup output) : Action β Unit) (looked backup v) := by
      refine .attempt (Or.inl hempty) (fun _ => ⟨Or.inl hempty, fun u hu => ?_⟩)
        fun _ => ⟨Or.inr (Or.inl hback), fun u hu => ?_⟩
      · exact Or.inl (hu ▸ hempty)
      · exact Or.inr (hu ▸ hback)
    refine hrollback.bind fun _ u hu => ?_
    rcases hu with hu | hu
    · exact .throw (Or.inl hu) (Or.inr ⟨Option.some_ne_none old, hu⟩)
    · exact .throw (Or.inr (Or.inl hu)) (Or.inl hu)

theorem only_whenThere {Ok : Operation Path β → Prop} {path : Path} {operation : Operation Path β}
    (hlook : Ok (.look path)) (h : Ok operation) : Only Ok (whenThere path operation) :=
  .bind (.isThere hlook) fun there => by
    cases there
    · trivial
    · exact .act h

theorem within_whenThere {S : Set Path} (path : Path) {operation : Operation Path β}
    (h : ∀ p, Access.changes p ∈ operation.accesses → p ∈ S) : Within S (whenThere path operation) :=
  .bind (Within.isThere path) fun there => by
    cases there
    · trivial
    · exact .act h

theorem within_removal (path : Path) :
    Within {path} (whenThere path (removal tree path) : Action β Unit) := by
  refine within_whenThere _ fun p hp => ?_
  cases tree <;> simpa [removal, Operation.accesses] using hp

theorem within_replaceBy :
    Within {temporary, output, backupOf pid output}
      (replaceBy pid tree temporary output : Action β Unit) := by
  have hremoval : ∀ p, Access.changes p ∈
      (removal tree (backupOf pid output) : Operation Path β).accesses →
        p ∈ ({temporary, output, backupOf pid output} : Set Path) := by
    intro p hp
    have hp : p = backupOf pid output := by cases tree <;> simpa [removal, Operation.accesses] using hp
    exact Or.inr (Or.inr hp)
  have hrename : ∀ source ∈ ({temporary, output, backupOf pid output} : Set Path),
      ∀ target ∈ ({temporary, output, backupOf pid output} : Set Path), ∀ p,
        Access.changes p ∈ (Operation.rename source target : Operation Path β).accesses →
          p ∈ ({temporary, output, backupOf pid output} : Set Path) := by
    intro source hsource target htarget p hp
    have hp : p = source ∨ p = target := by simpa [Operation.accesses] using hp
    rcases hp with rfl | rfl
    · exact hsource
    · exact htarget
  have htemporary : temporary ∈ ({temporary, output, backupOf pid output} : Set Path) := Or.inl rfl
  have houtput : output ∈ ({temporary, output, backupOf pid output} : Set Path) :=
    Or.inr (Or.inl rfl)
  have hbackup : backupOf pid output ∈ ({temporary, output, backupOf pid output} : Set Path) :=
    Or.inr (Or.inr rfl)
  refine .bind (within_whenThere _ hremoval) fun _ => ?_
  refine .bind (within_whenThere _ (hrename _ houtput _ hbackup)) fun _ => ?_
  refine .bind (.tryCatch (.act (hrename _ htemporary _ houtput)) fun e => ?_) fun _ =>
    within_whenThere _ hremoval
  refine .bind (Within.isThere _) fun there => ?_
  cases there
  · trivial
  · exact .bind (.attempt (hrename _ hbackup _ houtput)) fun _ => trivial

theorem within_replaceFile : Within {temporary, output, backupOf pid output}
    (replaceFile pid temporary output : Action β Unit) := by
  refine .tryCatch (.act fun p hp => ?_) fun _ => within_replaceBy
  have hp : p = temporary ∨ p = output := by simpa [Operation.accesses] using hp
  exact hp.imp id Or.inl

theorem only_replaceFile {T : Set Path} (htemporary : temporary ∈ T) (houtput : output ∈ T)
    (hbackup : backupOf pid output ∈ T) :
    Only (Operation.carries T) (replaceFile pid temporary output : Action β Unit) := by
  have hmoveIn : Only (Operation.carries T)
      (act (ioError output) (.rename temporary output) : Action β Unit) := .act fun _ => htemporary
  refine .tryCatch hmoveIn fun e => .bind (only_whenThere trivial trivial) fun _ =>
    .bind (only_whenThere trivial fun _ => houtput) fun _ =>
      .bind (.tryCatch hmoveIn fun e => .bind (.isThere trivial) fun there => ?_) fun _ =>
        only_whenThere trivial trivial
  cases there
  · trivial
  · exact .bind (.attempt fun _ => hbackup) fun _ => trivial

/-- What a replacement can leave at the path: the old content, nothing once that
is moved away, or the new content once it is moved in. -/
def Replacing (Moves Publishes : Prop) (temporary output : Path) (w : World Path β)
    (files : Path → Option β) : Prop :=
  files output = w.files output ∨ (Moves ∧ files output = none) ∨
    Publishes ∧ (w.files temporary).isSome ∧ files output = w.files temporary

/-- **The steps of a replacement**: which of its two renames a run can do says
what it can leave. -/
theorem runs_replaceBy (Moves Publishes : Prop) (hroot : output ≠ [])
    (htemporary : temporary ≠ backupOf pid output) (hdifferent : temporary ≠ output)
    (hlooks : ∀ operation v, lookFails operation v → bad operation v)
    (hmoves : ∀ v : World Path β, v.next = .succeeds →
      ¬ bad (.rename output (backupOf pid output)) v → w.files output ≠ none → Moves)
    (hpublishes : ∀ v : World Path β, v.next = .succeeds → ¬ bad (.rename temporary output) v →
      Publishes) :
    Runs bad (Replacing Moves Publishes temporary output w)
      (fun files => files output = w.files output ∨
        Moves ∧ Replacing Moves Publishes temporary output w files)
      (fun _ v => Publishes ∧ (w.files temporary).isSome ∧ v.files output = w.files temporary)
      (replaceBy pid tree temporary output) w := by
  have hne : output ≠ backupOf pid output := (backupOf_ne hroot).symm
  refine (runs_removeLeftover _ _ (fun files h => ⟨Or.inl (h output hne), Or.inl (h output hne)⟩)
    hlooks).bind fun _ w₁ hw₁ => ?_
  obtain ⟨hbackup, hkept⟩ := hw₁
  have houtput₁ : w₁.files output = w.files output := hkept output hne
  have hmoves₁ : ∀ v : World Path β, v.next = .succeeds →
      ¬ bad (.rename output (backupOf pid output)) v → w₁.files output ≠ none → Moves :=
    fun v hnext hgood hold => hmoves v hnext hgood (houtput₁ ▸ hold)
  refine ((runs_moveAway hne hbackup hlooks hmoves₁).conseq (fun files h => ?_) (fun files h => ?_)
    fun _ _ => id).bind fun _ w₂ hw₂ => ?_
  · rcases h with rfl | ⟨hmoved, hnone⟩
    · exact Or.inl houtput₁
    · exact Or.inr (Or.inl ⟨hmoved, hnone⟩)
  · exact Or.inl (h ▸ houtput₁)
  obtain ⟨⟨houtput₂, hbackup₂⟩, hmoved, hkept₂⟩ := hw₂
  rw [houtput₁] at hbackup₂ hmoved
  have htemporary₂ : w₂.files temporary = w.files temporary :=
    (hkept₂ temporary hdifferent htemporary).trans (hkept temporary htemporary)
  -- an empty path is as it was or was emptied
  have hempty : ∀ files : Path → Option β, files output = none →
      files output = w.files output ∨ Moves ∧ files output = none := by
    intro files hnone
    rcases eq_or_ne (w.files output) none with hold | hold
    · exact Or.inl (hnone.trans hold.symm)
    · exact Or.inr ⟨hmoved hold, hnone⟩
  refine ((runs_moveIn hne htemporary houtput₂ hlooks hpublishes).conseq (fun files h => ?_)
    (fun files h => ?_) fun _ _ => id).bind fun _ w₃ hw₃ => ?_
  · rw [hbackup₂, htemporary₂] at h
    rcases h with hnone | hold | hnew
    · exact (hempty files hnone).imp id Or.inl
    · exact Or.inl hold
    · exact Or.inr (Or.inr hnew)
  · rw [hbackup₂] at h
    rcases h with hold | ⟨hold, hnone⟩
    · exact Or.inl hold
    · exact Or.inr ⟨hmoved hold, Or.inr (Or.inl ⟨hmoved hold, hnone⟩)⟩
  obtain ⟨hnew, hbackup₃⟩ := hw₃
  rw [htemporary₂] at hnew
  rw [hbackup₂] at hbackup₃
  have hnow : ∀ files : Path → Option β, files output = w₃.files output →
      Replacing Moves Publishes temporary output w files := fun files hfiles =>
    Or.inr (Or.inr ⟨hnew.1, hnew.2.1, hfiles.trans hnew.2.2⟩)
  have hfiles := FileStore.files_looked (backupOf pid output) w₃
  refine .isThere_bind hlooks (hnow _ rfl) ?_
  rcases eq_or_ne (w.files output) none with hold | hold
  · have hbackup : (w₃.files (backupOf pid output)).isSome = false := by
      rw [hbackup₃, hold]
      rfl
    rw [hbackup]
    exact .pure (hnow _ (by rw [hfiles])) (hfiles.symm ▸ hnew)
  · have hbackup : (w₃.files (backupOf pid output)).isSome = true := by
      rw [hbackup₃]
      exact Option.isSome_iff_ne_none.mpr hold
    rw [hbackup]
    have hmoved : Moves := hmoved hold
    have hupdate : ∀ left, Function.update w₃.files (backupOf pid output) left output =
        w₃.files output := fun left => Function.update_of_ne hne ..
    refine .act (hnow _ (by rw [hfiles])) (fun left => ?_) (fun hreport => ?_) fun _ _ _ => ?_
    · rw [hfiles]
      cases tree
      · exact ⟨hnow _ rfl, Or.inr ⟨hmoved, hnow _ rfl⟩⟩
      · exact ⟨hnow _ (hupdate left), Or.inr ⟨hmoved, hnow _ (hupdate left)⟩⟩
    · rw [report_removal] at hreport
      cases hreport
    · rw [hfiles, succeed_removal]
      exact ⟨hnow _ (hupdate none), fun v hv => ⟨hnew.1, hnew.2.1, hv ▸ (hupdate none).trans hnew.2.2⟩⟩

theorem exists_left_none {x : Action β Unit} (hne : output ≠ backup)
    (hmoves : ¬ Avoids (movesAway output backup) x w) :
    ∃ files, LeftBy x w files ∧ files output = none := by
  obtain ⟨operation, v, ⟨rfl, hnext⟩, hleft⟩ := FileStore.exists_of_not_avoids hmoves
  refine ⟨_, hleft, ?_⟩
  simp only [Operation.perform, hnext]
  cases hsource : v.files output with
  | none =>
    rw [Operation.succeed, hsource]
    exact hsource
  | some contents => exact FileStore.rename_source (by rw [hsource]; rfl) hne

def movesIn (temporary output : Path) (operation : Operation Path β) (w : World Path β) : Prop :=
  operation = .rename temporary output ∧ w.next = .succeeds

def rollbackFails (output backup : Path) (operation : Operation Path β) (w : World Path β) : Prop :=
  operation = .rename backup output ∧ ∃ left, w.next = .fails left

theorem exec_rollback_ne_ok {e : BuildError} {w' : World Path β} :
    exec (rollback output backup e) w ≠ (.ok (), w') := by
  intro h
  obtain ⟨there, v, -, h⟩ := FileStore.exec_bind_eq_ok.mp h
  cases there
  · cases h
  · obtain ⟨⟨⟩, u, -, hthrow⟩ := FileStore.exec_bind_eq_ok.mp h
    cases hthrow

theorem exec_moveIn_eq_ok {w' : World Path β}
    (h : exec (moveIn temporary output backup) w = (.ok (), w')) :
    ((w.files temporary).isSome ∧ w'.files output = w.files temporary) ∧
      ¬ Avoids (movesIn temporary output) (moveIn temporary output backup) w := by
  rcases FileStore.exec_tryCatch_cases h with ⟨⟨⟩, hrename, -⟩ | ⟨e, v, -, hrollback⟩
  · obtain ⟨hreport, hfiles⟩ := FileStore.exec_act_eq_ok hrename
    rw [Operation.report, Option.isSome_map] at hreport
    refine ⟨⟨hreport, hfiles ▸ FileStore.rename_target hreport⟩, fun havoids => ?_⟩
    exact (FileStore.avoids_tryCatch_iff.mp havoids).1.1 ⟨rfl, FileStore.next_of_exec_act hrename⟩
  · exact absurd hrollback exec_rollback_ne_ok

theorem exec_replaceBy_eq_ok {w' : World Path β} (hroot : output ≠ [])
    (htemporary : temporary ≠ backupOf pid output) (hdifferent : temporary ≠ output)
    (h : exec (replaceBy pid tree temporary output) w = (.ok (), w')) :
    (w.files temporary).isSome ∧ w'.files output = w.files temporary := by
  have hne : output ≠ backupOf pid output := (backupOf_ne hroot).symm
  have hremoval : Within {backupOf pid output}
      (whenThere (backupOf pid output) (removal tree (backupOf pid output)) : Action β Unit) :=
    within_removal _
  have haway : Within {output, backupOf pid output}
      (whenThere output (.rename output (backupOf pid output)) : Action β Unit) :=
    within_whenThere _ fun p hp => by simpa [Operation.accesses] using hp
  obtain ⟨⟨⟩, w₁, h₁, h⟩ := FileStore.exec_bind_eq_ok.mp h
  obtain ⟨⟨⟩, w₂, h₂, h⟩ := FileStore.exec_bind_eq_ok.mp h
  obtain ⟨⟨⟩, w₃, h₃, h₄⟩ := FileStore.exec_bind_eq_ok.mp h
  have hkept : w₂.files temporary = w.files temporary := by
    rw [haway.exec h₂ (by simp [hdifferent, htemporary]), hremoval.exec h₁ (by simp [htemporary])]
  obtain ⟨⟨hsome, hmoved⟩, -⟩ := exec_moveIn_eq_ok h₃
  rw [← hkept]
  exact ⟨hsome, (hremoval.exec h₄ hne).trans hmoved⟩

theorem movesIn_of_exec_replaceBy {w' : World Path β}
    (h : exec (replaceBy pid tree temporary output) w = (.ok (), w')) :
    ¬ Avoids (movesIn temporary output) (replaceBy pid tree temporary output) w := by
  intro havoids
  obtain ⟨⟨⟩, w₁, h₁, h⟩ := FileStore.exec_bind_eq_ok.mp h
  obtain ⟨⟨⟩, w₂, h₂, h⟩ := FileStore.exec_bind_eq_ok.mp h
  obtain ⟨⟨⟩, w₃, h₃, -⟩ := FileStore.exec_bind_eq_ok.mp h
  have hrest := (FileStore.avoids_bind_iff.mp havoids).2 () w₁ h₁
  have hrest := (FileStore.avoids_bind_iff.mp hrest).2 () w₂ h₂
  exact (exec_moveIn_eq_ok h₃).2 (FileStore.avoids_bind_iff.mp hrest).1

theorem exec_rollback {e e' : BuildError} {w' : World Path β} (htemporary : temporary ≠ backup)
    (hlook : ¬ lookFails (.look backup) w)
    (h : exec (rollback output backup e') w = (.error e, w')) :
    Avoids (movesIn temporary output) (rollback output backup e') w ∧
      (Avoids (rollbackFails output backup) (rollback output backup e') w ∧
          (w.files backup = none → w'.files = w.files) ∧
          (w.files backup ≠ none → w'.files output = w.files backup) ∨
        ¬ Avoids (rollbackFails output backup) (rollback output backup e') w ∧
          w.files backup ≠ none ∧ w'.files = w.files) := by
  have hthere := FileStore.exec_isThere (ε := BuildError) hlook
  have hlooked := FileStore.files_looked backup w
  have hlookOnly : ∀ {bad : Operation Path β → World Path β → Prop}, ¬ bad (.look backup) w →
      Avoids bad (isThere backup : Action β Bool) w := fun hgood => ⟨hgood, trivial⟩
  have hother : ¬ movesIn temporary output (.look backup) w := fun hmoves => by
    cases hmoves.1
  have hother' : ¬ rollbackFails output backup (.look backup) w := fun hfails => by
    cases hfails.1
  unfold rollback at h ⊢
  rw [FileStore.exec_bind_ok hthere] at h
  rw [FileStore.avoids_bind_of_ok hthere, FileStore.avoids_bind_of_ok hthere,
    and_iff_right (hlookOnly hother), and_iff_right (hlookOnly hother')]
  cases hbackup : w.files backup with
  | none =>
    rw [hbackup] at h
    cases h
    refine ⟨trivial, Or.inl ⟨trivial, fun _ => hlooked, fun hsome => absurd rfl hsome⟩⟩
  | some old =>
    rw [hbackup] at h
    have hsome : ((looked backup w).files backup).isSome := by
      rw [hlooked, hbackup]
      rfl
    have hperform : w' = ((Operation.rename backup output).perform (looked backup w)).2 :=
      (Prod.mk.inj h).2.symm
    refine ⟨⟨fun hmoves => ?_, trivial⟩, ?_⟩
    · injection hmoves.1 with hsource
      exact htemporary hsource.symm
    cases hnext : (looked backup w).next with
    | succeeds =>
      refine Or.inl ⟨⟨fun hfails => ?_, trivial⟩, fun hnone => absurd hnone (Option.some_ne_none old),
        fun _ => ?_⟩
      · obtain ⟨-, left, hleft⟩ := hfails
        rw [hnext] at hleft
        cases hleft
      · rw [hperform, ← hbackup, ← hlooked]
        simp only [Operation.perform, hnext]
        exact FileStore.rename_target hsome
    | fails left =>
      refine Or.inr ⟨fun havoids => havoids.1 ⟨rfl, left, hnext⟩, Option.some_ne_none old, ?_⟩
      rw [hperform, ← hlooked]
      simp only [Operation.perform, hnext]
      rfl

theorem exec_moveIn_eq_error {e : BuildError} {w' : World Path β} (htemporary : temporary ≠ backup)
    (hprepared : (w.files temporary).isSome)
    (hlooks : Avoids lookFails (moveIn temporary output backup) w)
    (h : exec (moveIn temporary output backup) w = (.error e, w')) :
    Avoids (movesIn temporary output) (moveIn temporary output backup) w ∧
      (Avoids (rollbackFails output backup) (moveIn temporary output backup) w ∧
          (w.files backup = none → w'.files = w.files) ∧
          (w.files backup ≠ none → w'.files output = w.files backup) ∨
        ¬ Avoids (rollbackFails output backup) (moveIn temporary output backup) w ∧
          w.files backup ≠ none ∧ w'.files = w.files) := by
  rcases FileStore.exec_tryCatch_cases h with ⟨_, -, hok⟩ | ⟨e', v, hrename, hrollback⟩
  · cases hok
  -- the rename failed, as there was something to move
  obtain ⟨left, hnext, hv⟩ : ∃ left, w.next = .fails left ∧ v.files = w.files := by
    rcases FileStore.exec_act_eq_error hrename with hfails | ⟨hreport, -⟩
    · exact hfails
    · rw [Operation.report, Option.map_eq_none_iff] at hreport
      rw [hreport] at hprepared
      cases hprepared
  have hunmoved : ¬ movesIn temporary output (.rename temporary output) w := fun hmoves => by
    rw [hmoves.2] at hnext
    cases hnext
  have hother : ¬ rollbackFails output backup (.rename temporary output) w := fun hfails => by
    injection hfails.1 with hsource
    exact htemporary hsource
  have hlook := ((FileStore.avoids_tryCatch_of_error hrename).mp hlooks).2
  have hcases := exec_rollback htemporary hlook.1 hrollback
  unfold moveIn
  rw [FileStore.avoids_tryCatch_of_error hrename, FileStore.avoids_tryCatch_of_error hrename,
    and_iff_right (FileStore.avoids_act_iff.mpr hunmoved),
    and_iff_right (FileStore.avoids_act_iff.mpr hother), ← hv]
  exact hcases

def PutsElsewhere (temporary output backup : Path) (operation : Operation Path β) : Prop :=
  operation ≠ .rename temporary output ∧ operation ≠ .rename backup output

theorem putsElsewhere_look (path : Path) :
    PutsElsewhere temporary output backup (.look path : Operation Path β) := by
  constructor <;> intro h <;> cases h

theorem only_removal_putsElsewhere (path : Path) :
    Only (PutsElsewhere temporary output backup) (whenThere path (removal tree path) : Action β Unit) := by
  refine only_whenThere (putsElsewhere_look _) ?_
  cases tree <;> constructor <;> intro h <;> cases h

theorem only_moveAway_putsElsewhere (hdifferent : temporary ≠ output) (hne : output ≠ backup) :
    Only (PutsElsewhere temporary output backup)
      (whenThere output (.rename output backup) : Action β Unit) := by
  refine only_whenThere (putsElsewhere_look _) ⟨fun h => ?_, fun h => ?_⟩
  · injection h with hsource
    exact hdifferent hsource.symm
  · injection h with hsource
    exact hne hsource

theorem avoids_of_other {bad : Operation Path β → World Path β → Prop} {x : Action β Unit}
    (hbad : ∀ operation v, bad operation v → operation = .rename temporary output ∨
      operation = .rename backup output)
    (hx : Only (PutsElsewhere temporary output backup) x) (w : World Path β) : Avoids bad x w :=
  hx.avoids (fun operation v hother h => (hbad operation v h).elim hother.1 hother.2) w

/-- **A replacement that fails** has not moved the new content in, and the old one
is there unless its backup could not be moved back; or it has. -/
theorem exec_replaceBy_eq_error {e : BuildError} {w' : World Path β} (hroot : output ≠ [])
    (htemporary : temporary ≠ backupOf pid output) (hdifferent : temporary ≠ output)
    (hprepared : (w.files temporary).isSome)
    (hlooks : Avoids lookFails (replaceBy pid tree temporary output) w)
    (h : exec (replaceBy pid tree temporary output) w = (.error e, w')) :
    Avoids (movesIn temporary output) (replaceBy pid tree temporary output) w ∧
        (w'.files output = w.files output ↔
          Avoids (rollbackFails output (backupOf pid output))
            (replaceBy pid tree temporary output) w) ∨
      ¬ Avoids (movesIn temporary output) (replaceBy pid tree temporary output) w ∧
        w'.files output = w.files temporary := by
  have hne : output ≠ backupOf pid output := (backupOf_ne hroot).symm
  -- neither of the two renames is among the first operations
  have hremoval : Only (PutsElsewhere temporary output (backupOf pid output))
      (whenThere (backupOf pid output) (removal tree (backupOf pid output)) : Action β Unit) :=
    only_removal_putsElsewhere _
  have haway : Only (PutsElsewhere temporary output (backupOf pid output))
      (whenThere output (.rename output (backupOf pid output)) : Action β Unit) :=
    only_moveAway_putsElsewhere hdifferent hne
  have hin : ∀ (operation : Operation Path β) v, movesIn temporary output operation v →
      operation = .rename temporary output ∨ operation = .rename (backupOf pid output) output :=
    fun _ _ h => Or.inl h.1
  have hback : ∀ (operation : Operation Path β) v,
      rollbackFails output (backupOf pid output) operation v →
      operation = .rename temporary output ∨ operation = .rename (backupOf pid output) output :=
    fun _ _ h => Or.inr h.1
  have hkeeps : Within {backupOf pid output}
      (whenThere (backupOf pid output) (removal tree (backupOf pid output)) : Action β Unit) :=
    within_removal _
  unfold replaceBy at h hlooks ⊢
  obtain ⟨hlooks₁, hlooks⟩ := FileStore.avoids_bind_iff.mp hlooks
  rcases FileStore.exec_bind_eq_error.mp h with hremove | ⟨⟨⟩, w₁, hremove, h⟩
  · rw [FileStore.avoids_bind_of_error hremove, FileStore.avoids_bind_of_error hremove]
    refine Or.inl ⟨avoids_of_other hin hremoval w, iff_of_true (hkeeps.exec hremove hne) ?_⟩
    exact avoids_of_other hback hremoval w
  rw [FileStore.avoids_bind_of_ok hremove, FileStore.avoids_bind_of_ok hremove,
    and_iff_right (avoids_of_other hin hremoval w), and_iff_right (avoids_of_other hback hremoval w)]
  have hleftover : Runs lookFails (fun _ => True) (fun _ => True)
      (fun _ v => v.files (backupOf pid output) = none ∧
        ∀ p, p ≠ backupOf pid output → v.files p = w.files p)
      (whenThere (backupOf pid output) (removal tree (backupOf pid output))) w :=
    runs_removeLeftover _ _ (fun _ _ => ⟨trivial, trivial⟩) fun _ _ => id
  obtain ⟨hbackup₁, hkept₁⟩ := hleftover.done () w₁ hremove hlooks₁
  obtain ⟨hlooks₂, hlooks⟩ := FileStore.avoids_bind_iff.mp (hlooks () w₁ hremove)
  have hmoveAway : Runs lookFails (fun files => files = w₁.files ∨ True ∧ files output = none)
      (fun files => files = w₁.files)
      (fun _ v => (v.files output = none ∧ v.files (backupOf pid output) = w₁.files output) ∧
        (w₁.files output ≠ none → True) ∧
        ∀ p, p ≠ output → p ≠ backupOf pid output → v.files p = w₁.files p)
      (whenThere output (.rename output (backupOf pid output))) w₁ :=
    runs_moveAway hne hbackup₁ (fun _ _ => id) fun _ _ _ _ => trivial
  rcases FileStore.exec_bind_eq_error.mp h with hmove | ⟨⟨⟩, w₂, hmove, h⟩
  · rw [FileStore.avoids_bind_of_error hmove, FileStore.avoids_bind_of_error hmove]
    refine Or.inl ⟨avoids_of_other hin haway w₁, iff_of_true ?_ (avoids_of_other hback haway w₁)⟩
    rw [hmoveAway.failing e w' hmove hlooks₂, hkept₁ output hne]
  rw [FileStore.avoids_bind_of_ok hmove, FileStore.avoids_bind_of_ok hmove,
    and_iff_right (avoids_of_other hin haway w₁), and_iff_right (avoids_of_other hback haway w₁)]
  obtain ⟨⟨houtput₂, hbackup₂⟩, -, hkept₂⟩ := hmoveAway.done () w₂ hmove hlooks₂
  rw [hkept₁ output hne] at hbackup₂
  have hprepared₂ : w₂.files temporary = w.files temporary :=
    (hkept₂ temporary hdifferent htemporary).trans (hkept₁ temporary htemporary)
  obtain ⟨hlooks₃, -⟩ := FileStore.avoids_bind_iff.mp (hlooks () w₂ hmove)
  rcases FileStore.exec_bind_eq_error.mp h with hmoveIn | ⟨⟨⟩, w₃, hmoveIn, h⟩
  · rw [FileStore.avoids_bind_of_error hmoveIn, FileStore.avoids_bind_of_error hmoveIn]
    obtain ⟨hunmoved, hcases⟩ :=
      exec_moveIn_eq_error htemporary (hprepared₂ ▸ hprepared) hlooks₃ hmoveIn
    refine Or.inl ⟨hunmoved, ?_⟩
    rw [← hbackup₂]
    rcases hcases with ⟨hgood, hnone, hsome⟩ | ⟨hfails, hsome, hfiles⟩
    · refine iff_of_true ?_ hgood
      rcases eq_or_ne (w₂.files (backupOf pid output)) none with hold | hold
      · rw [hnone hold, houtput₂, hold]
      · exact hsome hold
    · refine iff_of_false (fun hsame => hsome ?_) hfails
      rw [← hsame, hfiles, houtput₂]
  · obtain ⟨⟨-, houtput₃⟩, hmoved⟩ := exec_moveIn_eq_ok hmoveIn
    refine Or.inr ⟨fun havoids => hmoved (FileStore.avoids_bind_iff.mp havoids).1, ?_⟩
    rw [hkeeps.exec h hne, houtput₃, hprepared₂]

theorem replacing_congr {Moves Publishes : Prop} {v : World Path β} (h : v.files = w.files) :
    Replacing Moves Publishes temporary output v = Replacing Moves Publishes temporary output w := by
  unfold Replacing
  rw [h]

theorem runs_replaceFile (Moves : Prop) (hroot : output ≠ [])
    (htemporary : temporary ≠ backupOf pid output) (hdifferent : temporary ≠ output)
    (hlooks : ∀ operation v, lookFails operation v → bad operation v)
    (hmoves : ∀ v : World Path β, v.next = .succeeds →
      ¬ bad (.rename output (backupOf pid output)) v → w.files output ≠ none → Moves) :
    Runs bad (Replacing Moves True temporary output w)
      (fun files => files output = w.files output ∨
        Moves ∧ Replacing Moves True temporary output w files)
      (fun _ v => True ∧ (w.files temporary).isSome ∧ v.files output = w.files temporary)
      (replaceFile pid temporary output) w := by
  have hrename : Runs bad (Replacing Moves True temporary output w) (fun files => files = w.files)
      (fun _ v => True ∧ (w.files temporary).isSome ∧ v.files output = w.files temporary)
      (act (ioError output) (.rename temporary output) : Action β Unit) w := by
    refine (Runs.rename bad _ temporary output w).conseq (fun files h => ?_) (fun _ => id)
      fun _ v h => ?_
    · rcases h with rfl | ⟨⟨-, -, hsome⟩, rfl⟩
      · exact Or.inl rfl
      · exact Or.inr (Or.inr ⟨trivial, hsome, FileStore.rename_target hsome⟩)
    · obtain ⟨⟨-, -, hsome⟩, hv⟩ := h
      exact ⟨trivial, hsome, hv ▸ FileStore.rename_target hsome⟩
  refine .tryCatch hrename fun e v hv => ?_
  have hfallback : Runs bad _ _ _ (replaceBy pid false temporary output) v :=
    runs_replaceBy Moves True hroot htemporary hdifferent hlooks
      (fun u hnext hgood hold => hmoves u hnext hgood (hv ▸ hold)) fun _ _ _ => trivial
  rw [replacing_congr hv, hv] at hfallback
  exact hfallback

theorem atomic_of_runs {x : Action β Unit} (hlooks : Avoids lookFails x w)
    (hunmoved : w.files output = none ∨ Avoids (movesAway output backup) x w)
    (hruns : Runs (fun operation v => lookFails operation v ∨
        w.files output ≠ none ∧ movesAway output backup operation v)
      (Replacing False True temporary output w)
      (fun files => files output = w.files output ∨
        False ∧ Replacing False True temporary output w files)
      (fun _ v => True ∧ (w.files temporary).isSome ∧ v.files output = w.files temporary) x w) :
    Atomic x temporary output w := by
  have havoids : Avoids (fun operation v => lookFails operation v ∨
      w.files output ≠ none ∧ movesAway output backup operation v) x w := by
    rcases hunmoved with hnone | hunmoved
    · exact hlooks.mono fun _ _ h => h.resolve_right fun hold => hold.1 hnone
    · exact (hlooks.or hunmoved).mono fun _ _ h => h.imp id And.right
  constructor
  · intro files hleft
    rcases hruns.during files (FileStore.leftBefore_of_avoids havoids hleft) with hold | hmoved | hnew
    · exact Or.inl hold
    · exact hmoved.1.elim
    · exact Or.inr hnew.2
  · intro e w' hexec
    exact (hruns.failing e w' hexec havoids).resolve_right fun h => h.1

theorem not_movesAway_of_atomic {x : Action β Unit} (hne : output ≠ backup)
    (hold : w.files output ≠ none) (h : Atomic x temporary output w) :
    Avoids (movesAway output backup) x w := by
  by_contra hmoves
  obtain ⟨files, hleft, hnone⟩ := exists_left_none hne hmoves
  rcases h.during files hleft with hsame | ⟨hnew, hsame⟩
  · exact hold (hsame ▸ hnone)
  · rw [← hsame, hnone] at hnew
    cases hnew

/-- **A replacement is atomic exactly where nothing has to be moved away.** -/
theorem replaced_atomically_iff (pid : String) {temporary output : Path} (hroot : output ≠ [])
    (htemporary : temporary ≠ backupOf pid output) (hdifferent : temporary ≠ output)
    (w : World Path β) :
    (Avoids lookFails (replaceDirectory pid temporary output) w →
      (Atomic (replaceDirectory pid temporary output) temporary output w ↔ w.files output = none ∨
        Avoids (movesAway output (backupOf pid output)) (replaceDirectory pid temporary output) w)) ∧
    (Avoids lookFails (replaceFile pid temporary output) w →
      (Atomic (replaceFile pid temporary output) temporary output w ↔ w.files output = none ∨
        Avoids (movesAway output (backupOf pid output)) (replaceFile pid temporary output) w)) := by
  have hne : output ≠ backupOf pid output := (backupOf_ne hroot).symm
  have hmoves : ∀ v : World Path β, v.next = .succeeds →
      ¬ (lookFails (.rename output (backupOf pid output)) v ∨ w.files output ≠ none ∧
        movesAway output (backupOf pid output) (.rename output (backupOf pid output)) v) →
      w.files output ≠ none → False :=
    fun v hnext hgood hold => hgood (Or.inr ⟨hold, rfl, hnext⟩)
  refine ⟨fun hlooks => ⟨fun hatomic => ?_, fun hunmoved => ?_⟩,
    fun hlooks => ⟨fun hatomic => ?_, fun hunmoved => ?_⟩⟩
  · exact (em _).imp id fun hold => not_movesAway_of_atomic hne hold hatomic
  · exact atomic_of_runs hlooks hunmoved (runs_replaceBy False True hroot htemporary hdifferent
      (fun _ _ => Or.inl) hmoves fun _ _ _ => trivial)
  · exact (em _).imp id fun hold => not_movesAway_of_atomic hne hold hatomic
  · exact atomic_of_runs hlooks hunmoved (runs_replaceFile False hroot htemporary hdifferent
      (fun _ _ => Or.inl) hmoves)

end Atomic

-- A module's output
-- ---

def outputRoot : Path := ["m", ".jman", "output"]

def temporaryRoot : Path := ["m", ".jman", "output.tmp.7"]

def outputWorld (old : Option String) : World Path String :=
  .calm fun path =>
    if path = outputRoot then old else if path = temporaryRoot then some "new" else none

theorem outputWorld_avoids (old : Option String) :
    Avoids lookFails (replaceDirectory "7" temporaryRoot outputRoot) (outputWorld old) := by
  refine FileStore.avoids_of_calm (fun operation v hbad hnext => ?_) rfl
  obtain ⟨-, left, hleft⟩ := hbad
  rw [hnext] at hleft
  cases hleft

/-- A process that ends between the two renames leaves no output. -/
theorem replaceDirectory_interrupted :
    (outputWorld (some "old")).files outputRoot = some "old" ∧
      ∃ files, LeftBy (replaceDirectory "7" temporaryRoot outputRoot) (outputWorld (some "old"))
        files ∧ files outputRoot = none := by
  have hne : outputRoot ≠ backupOf "7" outputRoot := by decide +kernel
  -- two looks, then the rename of the old output
  exact ⟨rfl, exists_left_none hne fun h => h.2.2.1 ⟨rfl, rfl⟩⟩

/-- The first output of a module is published atomically. -/
theorem replaceDirectory_first :
    Atomic (replaceDirectory "7" temporaryRoot outputRoot) temporaryRoot outputRoot
      (outputWorld none) :=
  ((replaced_atomically_iff "7" (by decide) (by decide +kernel) (by decide) (outputWorld none)).1
    (outputWorld_avoids none)).mpr (Or.inl rfl)

end JMan.Build
