import JMan.Cli.Workspace
import JMan.Lib.Interrupted

/-!
# JMan — writing an imported workspace

`write_workspace_atomically` of `jman-cli/src/main.rs`: the files of every module
are staged beside their targets and then renamed. When a step fails the function
removes what it staged and the targets it has committed, also those that were
there before (`restored_iff`).
-/

namespace JMan.Cli

open FileStore (Program Operation Outcome World Avoids exec act attempt)
open Paths (Path)

abbrev Change (α : Type) := Program Path String Failure α

-- The function
-- ---

structure GeneratedModule where
  directory : Path
  manifest : String
  lock : String

def GeneratedModule.files (module : GeneratedModule) : List (Path × String) :=
  [(module.directory ++ ["jman.toml"], module.manifest),
    (module.directory ++ ["jman.lock"], module.lock)]

def ioFailure : Failure := .io "input/output error"

section Staging

variable (pid : String)

def stagingPath (target : Path) : Path :=
  target.dropLast ++ [target.getLast?.getD "jman" ++ ".tmp-" ++ pid]

/-- `for path in .. { let _ = remove_file(path) }` -/
def discardStaged (paths : List Path) : Change Unit := paths.forM fun path => attempt (.remove path)

/-- An operation after whose failure files are removed. -/
def orDiscard (operation : Operation Path String) (paths : List Path) (context : String) :
    Change Unit :=
  tryCatch (act ioFailure operation) fun error => do
    discardStaged paths
    throw (.context context error)

/-- The first loop, after the pairs of target and staging path. -/
def stageFiles (staged : List (Path × Path)) : List (Path × String) → Change (List (Path × Path))
  | [] => pure staged
  | (target, contents) :: rest => do
    orDiscard (.write (stagingPath pid target) contents) (staged.map Prod.snd)
      ("could not stage " ++ Paths.display target)
    stageFiles (staged ++ [(target, stagingPath pid target)]) rest

def commitFiles (staged : List (Path × Path)) (committed : List Path) :
    List (Path × Path) → Change Unit
  | [] => pure ()
  | (target, temporary) :: rest => do
    orDiscard (.rename temporary target) (staged.map Prod.snd ++ committed)
      ("could not commit " ++ Paths.display target)
    commitFiles staged (committed ++ [target]) rest

def writeWorkspaceAtomically (generated : List GeneratedModule) : Change Unit := do
  let staged ← stageFiles pid [] (generated.flatMap GeneratedModule.files)
  commitFiles staged [] staged

end Staging

-- Staging paths
-- ---

section Paths

variable {pid : String} {generated : List GeneratedModule}

theorem stagingPath_append (directory : Path) (name : String) :
    stagingPath pid (directory ++ [name]) = directory ++ [name ++ ".tmp-" ++ pid] := by
  rw [stagingPath, List.dropLast_concat, List.getLast?_concat, Option.getD_some]

theorem mem_targets {target : Path} :
    target ∈ (generated.flatMap GeneratedModule.files).map Prod.fst ↔
      ∃ module ∈ generated, ∃ name ∈ ["jman.toml", "jman.lock"],
        target = module.directory ++ [name] := by
  simp only [List.mem_map, List.mem_flatMap, GeneratedModule.files, List.mem_cons,
    List.not_mem_nil, or_false]
  constructor
  · rintro ⟨⟨path, text⟩, ⟨module, hmodule, hfile | hfile⟩, rfl⟩
    · cases hfile
      exact ⟨module, hmodule, _, Or.inl rfl, rfl⟩
    · cases hfile
      exact ⟨module, hmodule, _, Or.inr rfl, rfl⟩
  · rintro ⟨module, hmodule, name, rfl | rfl, rfl⟩
    · exact ⟨(_, module.manifest), ⟨module, hmodule, Or.inl rfl⟩, rfl⟩
    · exact ⟨(_, module.lock), ⟨module, hmodule, Or.inr rfl⟩, rfl⟩

theorem nodup_targets (h : (generated.map GeneratedModule.directory).Nodup) :
    ((generated.flatMap GeneratedModule.files).map Prod.fst).Nodup := by
  induction generated with
  | nil => exact List.nodup_nil
  | cons module generated ih =>
    rw [List.map_cons, List.nodup_cons] at h
    obtain ⟨hfresh, hrest⟩ := h
    have hother : ∀ name ∈ ["jman.toml", "jman.lock"], module.directory ++ [name] ∉
        (generated.flatMap GeneratedModule.files).map Prod.fst := by
      intro name _ hmem
      obtain ⟨other, hmodule, name', -, heq⟩ := mem_targets.mp hmem
      exact hfresh (List.mem_map.mpr ⟨other, hmodule, (List.append_inj' heq rfl).1.symm⟩)
    have hnames : module.directory ++ ["jman.toml"] ≠ module.directory ++ ["jman.lock"] := by
      intro heq
      have := (List.append_inj' heq rfl).2
      simp at this
    show ((module.directory ++ ["jman.toml"]) :: (module.directory ++ ["jman.lock"]) ::
      (generated.flatMap GeneratedModule.files).map Prod.fst).Nodup
    refine List.nodup_cons.mpr ⟨fun hmem => ?_, List.nodup_cons.mpr ⟨?_, ih hrest⟩⟩
    · rcases List.mem_cons.mp hmem with heq | hmem
      · exact hnames heq
      · exact hother _ (by decide) hmem
    · exact hother _ (by decide)

theorem stagingPath_injective {target target' : Path}
    (ht : target ∈ (generated.flatMap GeneratedModule.files).map Prod.fst)
    (ht' : target' ∈ (generated.flatMap GeneratedModule.files).map Prod.fst)
    (h : stagingPath pid target = stagingPath pid target') : target = target' := by
  obtain ⟨module, -, name, -, rfl⟩ := mem_targets.mp ht
  obtain ⟨module', -, name', -, rfl⟩ := mem_targets.mp ht'
  rw [stagingPath_append, stagingPath_append] at h
  obtain ⟨hdirectory, hname⟩ := List.append_inj' h rfl
  rw [List.cons.injEq, String.append_left_inj, String.append_left_inj] at hname
  rw [hdirectory, hname.1]

theorem stagingPath_ne {target target' : Path}
    (ht : target ∈ (generated.flatMap GeneratedModule.files).map Prod.fst)
    (ht' : target' ∈ (generated.flatMap GeneratedModule.files).map Prod.fst) :
    stagingPath pid target ≠ target' := by
  intro h
  obtain ⟨module, -, name, hname, rfl⟩ := mem_targets.mp ht
  obtain ⟨module', -, name', hname', rfl⟩ := mem_targets.mp ht'
  rw [stagingPath_append] at h
  have hnames := (List.cons.inj (List.append_inj' h rfl).2).1
  have hlengths := congrArg String.length hnames
  rw [String.length_append, String.length_append] at hlengths
  have hlength : ∀ name ∈ ["jman.toml", "jman.lock"], name.length = 9 := by decide
  have hsuffix : ".tmp-".length = 5 := by decide
  rw [hlength name hname, hlength name' hname', hsuffix] at hlengths
  omega

end Paths

-- Undoing
-- ---

def removeFails (operation : Operation Path String) (w : World Path String) : Prop :=
  (∃ path, operation = .remove path) ∧ ∃ left, w.next = .fails left

/-- A write fails and leaves something it did not find, or a rename replaces a
file. -/
def harms (operation : Operation Path String) (w : World Path String) : Prop :=
  (∃ path contents left, operation = .write path contents ∧ w.next = .fails (some left) ∧
    w.files path ≠ some left) ∨
  ∃ source target, operation = .rename source target ∧ w.next = .succeeds ∧
    (w.files target).isSome

section Undo

variable {operation : Operation Path String} {paths : List Path} {context : String}
  {v v' : World Path String} {e : Failure}

theorem exec_discardStaged (h : Avoids removeFails (discardStaged paths) v) : ∃ u,
    exec (discardStaged paths) v = (.ok (), u) ∧ ∀ p, u.files p = if p ∈ paths then none else v.files p := by
  unfold discardStaged at h ⊢
  induction paths generalizing v with
  | nil => exact ⟨v, rfl, fun p => (if_neg List.not_mem_nil).symm⟩
  | cons path paths ih =>
    rw [List.forM_eq_forM, List.forM_cons] at h
    have hfiles : ((Operation.remove path).perform v).2.files = Function.update v.files path none := by
      unfold Operation.perform
      cases hnext : v.next with
      | succeeds => rfl
      | fails left => exact absurd ⟨⟨path, rfl⟩, left, hnext⟩ h.1
    obtain ⟨u, hexec, hu⟩ := ih h.2
    refine ⟨u, hexec, fun p => ?_⟩
    rw [hu, hfiles]
    by_cases hp : p = path
    · rw [hp, Function.update_self, if_pos List.mem_cons_self, ite_self]
    · rw [Function.update_of_ne hp]
      simp only [List.mem_cons, hp, false_or]

theorem not_harms_remove {path : Path} : ¬ harms (.remove path) v := by
  rintro (⟨_, _, _, h, -⟩ | ⟨_, _, h, -⟩)
  · cases h
  · cases h

theorem avoids_discardStaged : Avoids harms (discardStaged paths) v := by
  unfold discardStaged
  induction paths generalizing v with
  | nil => trivial
  | cons path paths ih => exact ⟨not_harms_remove, ih⟩

theorem avoids_orDiscard : Avoids harms (orDiscard operation paths context) v ↔ ¬ harms operation v := by
  rw [orDiscard, FileStore.avoids_tryCatch_iff, FileStore.avoids_act_iff]
  refine and_iff_left fun e u _ => ?_
  exact FileStore.avoids_bind_iff.mpr ⟨avoids_discardStaged, fun _ _ _ => trivial⟩

theorem orDiscard_ok (h : exec (orDiscard operation paths context) v = (.ok (), v')) :
    (operation.report v.files).isSome ∧ v.next = .succeeds ∧ v'.files = operation.succeed v.files := by
  rcases FileStore.exec_tryCatch_cases h with ⟨⟨⟩, hact, -⟩ | ⟨e, u, -, hhandler⟩
  · obtain ⟨hreport, hfiles⟩ := FileStore.exec_act_eq_ok hact
    exact ⟨hreport, FileStore.next_of_exec_act hact, hfiles⟩
  · obtain ⟨⟨⟩, u', -, hthrow⟩ := FileStore.exec_bind_eq_ok.mp hhandler
    cases hthrow

theorem orDiscard_error (hremoves : Avoids removeFails (orDiscard operation paths context) v)
    (h : exec (orDiscard operation paths context) v = (.error e, v')) :
    ∃ e' u, exec (act ioFailure operation) v = (.error e', u) ∧
      ∀ p, v'.files p = if p ∈ paths then none else u.files p := by
  rcases FileStore.exec_tryCatch_cases h with ⟨⟨⟩, -, hok⟩ | ⟨e', u, hact, hhandler⟩
  · cases hok
  · have hdiscard := (FileStore.avoids_bind_iff.mp
      ((FileStore.avoids_tryCatch_iff.mp hremoves).2 e' u hact)).1
    obtain ⟨u', hexec, hfiles⟩ := exec_discardStaged hdiscard
    refine ⟨e', u, hact, ?_⟩
    rcases FileStore.exec_bind_eq_error.mp hhandler with hfail | ⟨⟨⟩, u'', hok, hthrow⟩
    · rw [hexec] at hfail
      cases hfail
    · rw [hexec] at hok
      cases hok
      cases hthrow
      exact hfiles

end Undo

-- The first loop
-- ---

section Stage

variable {pid : String}

def stagings (pid : String) (entries : List (Path × String)) : List Path :=
  entries.map fun entry => stagingPath pid entry.1

/-- What the loop returns: the targets with their staging paths. -/
def stagedPairs (pid : String) (entries : List (Path × String)) : List (Path × Path) :=
  entries.map fun entry => (entry.1, stagingPath pid entry.1)

theorem not_harms_write {path : Path} {contents : String} {v : World Path String} :
    ¬ harms (.write path contents) v ↔
      ∀ left, v.next = .fails (some left) → v.files path = some left := by
  constructor
  · intro h left hnext
    by_contra hne
    exact h (Or.inl ⟨path, contents, left, rfl, hnext, hne⟩)
  · rintro h (⟨path', contents', left, heq, hnext, hne⟩ | ⟨source, target, heq, -⟩)
    · cases heq
      exact hne (h left hnext)
    · cases heq

theorem stageFiles_ok {entries : List (Path × String)} {staged pairs : List (Path × Path)}
    {v v' : World Path String} (hnodup : (stagings pid entries).Nodup)
    (h : exec (stageFiles pid staged entries) v = (.ok pairs, v')) :
    pairs = staged ++ stagedPairs pid entries ∧
      Avoids harms (stageFiles pid staged entries) v ∧
      (∀ p ∉ stagings pid entries, v'.files p = v.files p) ∧
      ∀ p ∈ stagings pid entries, (v'.files p).isSome := by
  induction entries generalizing staged v with
  | nil =>
    cases h
    exact ⟨(List.append_nil _).symm, trivial, fun _ _ => rfl, fun p hp => by cases hp⟩
  | cons entry entries ih =>
    obtain ⟨target, contents⟩ := entry
    obtain ⟨⟨⟩, u, hwrite, hrest⟩ := FileStore.exec_bind_eq_ok.mp h
    obtain ⟨-, hnext, hfiles⟩ := orDiscard_ok hwrite
    rw [stagings, List.map_cons, List.nodup_cons] at hnodup
    obtain ⟨hpairs, havoids, hkept, hthere⟩ := ih hnodup.2 hrest
    refine ⟨?_, (FileStore.avoids_bind_of_ok hwrite).mpr ⟨?_, havoids⟩, fun p hp => ?_,
      fun p hp => ?_⟩
    · rw [hpairs, List.append_assoc]
      rfl
    · rw [avoids_orDiscard, not_harms_write]
      intro left hfails
      rw [hnext] at hfails
      cases hfails
    · rw [stagings, List.map_cons, List.mem_cons, not_or] at hp
      rw [hkept p hp.2, hfiles]
      exact Function.update_of_ne hp.1 ..
    · rw [stagings, List.map_cons, List.mem_cons] at hp
      rcases hp with rfl | hp
      · rw [hkept _ hnodup.1, hfiles]
        show (Function.update v.files (stagingPath pid target) (some contents)
          (stagingPath pid target)).isSome
        rw [Function.update_self]
        rfl
      · exact hthere p hp

/-- A file that could not be staged: what was staged before is removed, and the staging
file is gone or as it was exactly where the failure did no harm. -/
theorem writeStaged_error {target : Path} {contents context : String} {paths : List Path}
    {v v' : World Path String} {e : Failure}
    (hremoves : Avoids removeFails (orDiscard (.write (stagingPath pid target) contents) paths context) v)
    (hapart : stagingPath pid target ∉ paths)
    (h : exec (orDiscard (.write (stagingPath pid target) contents) paths context) v = (.error e, v')) :
    (∀ p, p ∉ paths → p ≠ stagingPath pid target → v'.files p = v.files p) ∧
      (∀ p ∈ paths, v'.files p = none) ∧
      ((v'.files (stagingPath pid target) = none ∨
          v'.files (stagingPath pid target) = v.files (stagingPath pid target)) ↔
        ¬ harms (.write (stagingPath pid target) contents) v) := by
  obtain ⟨e', u, hact, hfiles⟩ := orDiscard_error hremoves h
  obtain ⟨left, hfails, hu⟩ | ⟨hreport, -⟩ := FileStore.exec_act_eq_error hact
  · have hleft : v'.files (stagingPath pid target) = left := by
      rw [hfiles, if_neg hapart, hu]
      exact Function.update_self ..
    refine ⟨fun p hp hne => ?_, fun p hp => by rw [hfiles, if_pos hp], ?_⟩
    · rw [hfiles, if_neg hp, hu]
      exact Function.update_of_ne hne ..
    · rw [not_harms_write, hleft]
      constructor
      · intro hclean left' hnext
        rw [hfails, Outcome.fails.injEq] at hnext
        rw [hnext] at hclean
        rcases hclean with hnone | hsame
        · cases hnone
        · exact hsame.symm
      · intro hsame
        cases left with
        | none => exact Or.inl rfl
        | some left => exact Or.inr (hsame left hfails).symm
  · cases hreport

theorem stageFiles_error {entries : List (Path × String)} {staged : List (Path × Path)}
    {v v' : World Path String} {e : Failure}
    (hremoves : Avoids removeFails (stageFiles pid staged entries) v)
    (hnodup : (staged.map Prod.snd ++ stagings pid entries).Nodup)
    (h : exec (stageFiles pid staged entries) v = (.error e, v')) :
    (∀ p, p ∉ staged.map Prod.snd → p ∉ stagings pid entries → v'.files p = v.files p) ∧
      (∀ p ∈ staged.map Prod.snd, v'.files p = none) ∧
      ((∀ p ∈ stagings pid entries, v'.files p = none ∨ v'.files p = v.files p) ↔
        Avoids harms (stageFiles pid staged entries) v) := by
  induction entries generalizing staged v with
  | nil => cases h
  | cons entry entries ih =>
    obtain ⟨target, contents⟩ := entry
    obtain ⟨hremoves, hlater⟩ := FileStore.avoids_bind_iff.mp hremoves
    obtain ⟨-, htemporaries, hapart⟩ := List.nodup_append.mp hnodup
    rw [stagings, List.map_cons, List.nodup_cons] at htemporaries
    obtain ⟨hfresh, -⟩ := htemporaries
    have hcons : ∀ p, p ∈ stagings pid ((target, contents) :: entries) ↔
        p = stagingPath pid target ∨ p ∈ stagings pid entries := fun p => List.mem_cons
    rcases FileStore.exec_bind_eq_error.mp h with hwrite | ⟨⟨⟩, u, hwrite, hrest⟩
    · have hstaging : stagingPath pid target ∉ staged.map Prod.snd :=
        fun hmem => hapart _ hmem _ ((hcons _).mpr (Or.inl rfl)) rfl
      obtain ⟨hkept, hnone, hclean⟩ := writeStaged_error hremoves hstaging hwrite
      refine ⟨fun p hp hne => hkept p hp fun heq => hne ((hcons p).mpr (Or.inl heq)), hnone, ?_⟩
      rw [stageFiles, FileStore.avoids_bind_of_error hwrite, avoids_orDiscard, ← hclean]
      constructor
      · exact fun h => h _ ((hcons _).mpr (Or.inl rfl))
      · intro h p hp
        by_cases hp' : p = stagingPath pid target
        · rw [hp']
          exact h
        · exact Or.inr (hkept p (fun hmem => hapart p hmem p hp rfl) hp')
    · obtain ⟨-, hsucceeds, hfiles⟩ := orDiscard_ok hwrite
      have hupdate : ∀ p, p ≠ stagingPath pid target → u.files p = v.files p := fun p hne => by
        rw [hfiles]
        exact Function.update_of_ne hne ..
      have hmoved : (staged ++ [(target, stagingPath pid target)]).map Prod.snd =
          staged.map Prod.snd ++ [stagingPath pid target] := List.map_append
      have hnodup' : ((staged ++ [(target, stagingPath pid target)]).map Prod.snd ++
          stagings pid entries).Nodup := by
        rw [hmoved, List.append_assoc]
        exact hnodup
      obtain ⟨hkept, hnone, hclean⟩ := ih (hlater _ u hwrite) hnodup' hrest
      rw [hmoved] at hkept hnone
      have havoids : Avoids harms (stageFiles pid staged ((target, contents) :: entries)) v ↔
          Avoids harms (stageFiles pid (staged ++ [(target, stagingPath pid target)]) entries) u := by
        rw [stageFiles, FileStore.avoids_bind_of_ok hwrite, avoids_orDiscard, not_harms_write]
        refine and_iff_right fun left hfails => ?_
        rw [hsucceeds] at hfails
        cases hfails
      refine ⟨fun p hp hp' => ?_, fun p hp => hnone p (List.mem_append_left _ hp), ?_⟩
      · rw [hcons, not_or] at hp'
        rw [hkept p _ hp'.2, hupdate p hp'.1]
        rw [List.mem_append, List.mem_singleton, not_or]
        exact ⟨hp, hp'.1⟩
      · rw [havoids, ← hclean]
        constructor
        · intro h p hp
          have hne : p ≠ stagingPath pid target := fun heq => hfresh (heq ▸ hp)
          rw [hupdate p hne]
          exact h p ((hcons p).mpr (Or.inr hp))
        · intro h p hp
          rcases (hcons p).mp hp with rfl | hp
          · exact Or.inl (hnone _ (List.mem_append_right _ (List.mem_singleton_self _)))
          · have hne : p ≠ stagingPath pid target := fun heq => hfresh (heq ▸ hp)
            rw [← hupdate p hne]
            exact h p hp

end Stage

-- The second loop
-- ---

section Commit

theorem not_harms_rename {source target : Path} {v : World Path String} :
    ¬ harms (.rename source target) v ↔ (v.next = .succeeds → v.files target = none) := by
  constructor
  · intro h hnext
    by_contra hsome
    exact h (Or.inr ⟨source, target, rfl, hnext, Option.isSome_iff_ne_none.mpr hsome⟩)
  · rintro h (⟨path, contents, left, heq, -⟩ | ⟨source', target', heq, hnext, hsome⟩)
    · cases heq
    · cases heq
      rw [h hnext] at hsome
      cases hsome

theorem commitFiles_error {staged pairs : List (Path × Path)} {committed : List Path}
    {v v' : World Path String} {e : Failure}
    (hremoves : Avoids removeFails (commitFiles staged committed pairs) v)
    (hnodup : (committed ++ pairs.map Prod.fst).Nodup) (htemporaries : (pairs.map Prod.snd).Nodup)
    (hstaged : ∀ pair ∈ pairs, pair.2 ∈ staged.map Prod.snd ∧ (v.files pair.2).isSome)
    (hapart : ∀ pair ∈ pairs, pair.1 ∉ staged.map Prod.snd)
    (h : exec (commitFiles staged committed pairs) v = (.error e, v')) :
    (∀ p ∈ staged.map Prod.snd ++ committed, v'.files p = none) ∧
      ((∀ pair ∈ pairs, v'.files pair.1 = v.files pair.1) ↔
        Avoids harms (commitFiles staged committed pairs) v) := by
  induction pairs generalizing committed v with
  | nil => cases h
  | cons pair pairs ih =>
    obtain ⟨target, temporary⟩ := pair
    obtain ⟨hremoves, hlater⟩ := FileStore.avoids_bind_iff.mp hremoves
    rw [List.map_cons, List.nodup_cons] at htemporaries
    obtain ⟨hin, hsome⟩ := hstaged _ List.mem_cons_self
    have htarget := hapart _ List.mem_cons_self
    rcases FileStore.exec_bind_eq_error.mp h with hrename | ⟨⟨⟩, u, hrename, hrest⟩
    · -- the rename fails: what is still to be committed is as it was
      obtain ⟨e', u, hact, hfiles⟩ := orDiscard_error hremoves hrename
      obtain ⟨left, hfails, hu⟩ | ⟨hreport, -⟩ := FileStore.exec_act_eq_error hact
      · have hu : u.files = v.files := hu
        refine ⟨fun p hp => by rw [hfiles, if_pos hp], ?_⟩
        rw [commitFiles, FileStore.avoids_bind_of_error hrename, avoids_orDiscard, not_harms_rename]
        refine iff_of_true (fun pair hpair => ?_) fun hnext => ?_
        · have hnot : pair.1 ∉ staged.map Prod.snd ++ committed := by
            intro hp
            rcases List.mem_append.mp hp with hp | hp
            · exact hapart pair hpair hp
            · exact (List.nodup_append.mp hnodup).2.2 _ hp _ (List.mem_map_of_mem hpair) rfl
          rw [hfiles, if_neg hnot, hu]
        · rw [hfails] at hnext
          cases hnext
      · rw [Operation.report, Option.map_eq_none_iff] at hreport
        rw [hreport] at hsome
        cases hsome
    · obtain ⟨-, hsucceeds, hfiles⟩ := orDiscard_ok hrename
      have hne : target ≠ temporary := fun heq => htarget (heq ▸ hin)
      have hother : ∀ pair ∈ pairs, u.files pair.1 = v.files pair.1 := by
        intro pair hpair
        rw [hfiles, FileStore.rename_other]
        · exact fun heq => hapart pair (List.mem_cons_of_mem _ hpair) (heq ▸ hin)
        · have hrest := (List.nodup_append.mp hnodup).2.1
          rw [List.map_cons, List.nodup_cons] at hrest
          exact fun heq => hrest.1 (List.mem_map.mpr ⟨pair, hpair, heq⟩)
      have hsources : ∀ pair ∈ pairs, pair.2 ∈ staged.map Prod.snd ∧ (u.files pair.2).isSome := by
        intro pair hpair
        obtain ⟨hpin, hpsome⟩ := hstaged pair (List.mem_cons_of_mem _ hpair)
        refine ⟨hpin, ?_⟩
        rw [hfiles, FileStore.rename_other]
        · exact hpsome
        · exact fun heq => htemporaries.1 (List.mem_map.mpr ⟨pair, hpair, heq⟩)
        · exact fun heq => htarget (heq ▸ hpin)
      have hnodup' : ((committed ++ [target]) ++ pairs.map Prod.fst).Nodup := by
        rw [List.append_assoc]
        exact hnodup
      obtain ⟨hnone, hsame⟩ := ih (hlater _ u hrename) hnodup' htemporaries.2 hsources
        (fun pair hpair => hapart pair (List.mem_cons_of_mem _ hpair)) hrest
      rw [← List.append_assoc] at hnone
      refine ⟨fun p hp => hnone p (List.mem_append_left _ hp), ?_⟩
      rw [commitFiles, FileStore.avoids_bind_of_ok hrename, avoids_orDiscard, not_harms_rename,
        ← hsame, List.forall_mem_cons,
        hnone target (List.mem_append_right _ (List.mem_singleton_self _))]
      refine and_congr ⟨fun heq _ => heq.symm, fun heq => (heq hsucceeds).symm⟩ ?_
      exact forall₂_congr fun pair hpair => by rw [hother pair hpair]

end Commit

-- All or nothing
-- ---

section Results

variable {pid : String} {generated : List GeneratedModule} {w w' : World Path String} {e : Failure}

/-- Every target is as it was, and no file is staged that was not there. -/
structure Restored (pid : String) (generated : List GeneratedModule) (w w' : World Path String) :
    Prop where
  targets : ∀ target ∈ (generated.flatMap GeneratedModule.files).map Prod.fst,
    w'.files target = w.files target
  stagings : ∀ p ∈ stagings pid (generated.flatMap GeneratedModule.files),
    w'.files p = none ∨ w'.files p = w.files p

theorem nodup_stagings (pid : String) (h : (generated.map GeneratedModule.directory).Nodup) :
    (stagings pid (generated.flatMap GeneratedModule.files)).Nodup := by
  have hmap : stagings pid (generated.flatMap GeneratedModule.files) =
      ((generated.flatMap GeneratedModule.files).map Prod.fst).map (stagingPath pid) := by
    rw [stagings, List.map_map]
    rfl
  rw [hmap]
  exact (nodup_targets h).map_on fun target ht target' ht' heq => stagingPath_injective ht ht' heq

theorem not_mem_stagings {target : Path}
    (ht : target ∈ (generated.flatMap GeneratedModule.files).map Prod.fst) :
    target ∉ stagings pid (generated.flatMap GeneratedModule.files) := by
  intro hmem
  obtain ⟨entry, hentry, heq⟩ := List.mem_map.mp hmem
  exact stagingPath_ne (List.mem_map_of_mem hentry) ht heq

/-- **A failing import restores the workspace exactly when no write that fails
leaves a part of its file and no rename replaces a file.** -/
theorem restored_iff (pid : String) (hnodup : (generated.map GeneratedModule.directory).Nodup)
    (hremoves : Avoids removeFails (writeWorkspaceAtomically pid generated) w)
    (h : exec (writeWorkspaceAtomically pid generated) w = (.error e, w')) :
    Restored pid generated w w' ↔ Avoids harms (writeWorkspaceAtomically pid generated) w := by
  have hstagings := nodup_stagings pid hnodup
  obtain ⟨hremoves, hlater⟩ := FileStore.avoids_bind_iff.mp hremoves
  rcases FileStore.exec_bind_eq_error.mp h with hstage | ⟨pairs, v, hstage, hcommit⟩
  · obtain ⟨hkept, -, hclean⟩ := stageFiles_error hremoves hstagings hstage
    rw [writeWorkspaceAtomically, FileStore.avoids_bind_of_error hstage, ← hclean]
    refine ⟨fun hrestored => hrestored.stagings, fun hclean => ⟨fun target ht => ?_, hclean⟩⟩
    exact hkept target List.not_mem_nil (not_mem_stagings ht)
  · obtain ⟨hpairs, havoids, hkept, hthere⟩ := stageFiles_ok hstagings hstage
    rw [List.nil_append] at hpairs
    subst hpairs
    have hsnd : (stagedPairs pid (generated.flatMap GeneratedModule.files)).map Prod.snd =
        stagings pid (generated.flatMap GeneratedModule.files) := List.map_map
    have hfst : (stagedPairs pid (generated.flatMap GeneratedModule.files)).map Prod.fst =
        (generated.flatMap GeneratedModule.files).map Prod.fst := List.map_map
    have htarget : ∀ pair ∈ stagedPairs pid (generated.flatMap GeneratedModule.files),
        pair.1 ∈ (generated.flatMap GeneratedModule.files).map Prod.fst := fun pair hpair =>
      hfst ▸ List.mem_map_of_mem hpair
    have hstaged : ∀ pair ∈ stagedPairs pid (generated.flatMap GeneratedModule.files),
        pair.2 ∈ stagings pid (generated.flatMap GeneratedModule.files) := fun pair hpair =>
      hsnd ▸ List.mem_map_of_mem hpair
    have hcommitted := commitFiles_error (hlater _ v hstage)
      (hfst ▸ nodup_targets hnodup) (hsnd ▸ hstagings)
      (fun pair hpair => ⟨hsnd ▸ hstaged pair hpair, hthere _ (hstaged pair hpair)⟩)
      (fun pair hpair => hsnd ▸ not_mem_stagings (htarget pair hpair)) hcommit
    obtain ⟨hnone, hsame⟩ := hcommitted
    rw [writeWorkspaceAtomically, FileStore.avoids_bind_of_ok hstage, and_iff_right havoids, ← hsame]
    have hbefore : ∀ pair ∈ stagedPairs pid (generated.flatMap GeneratedModule.files),
        v.files pair.1 = w.files pair.1 := fun pair hpair =>
      hkept _ (not_mem_stagings (htarget pair hpair))
    constructor
    · intro hrestored pair hpair
      rw [hrestored.targets _ (htarget pair hpair), hbefore pair hpair]
    · refine fun hunchanged => ⟨fun target ht => ?_, fun p hp => Or.inl (hnone p ?_)⟩
      · rw [← hfst] at ht
        obtain ⟨pair, hpair, rfl⟩ := List.mem_map.mp ht
        rw [hunchanged pair hpair, hbefore pair hpair]
      · rw [List.append_nil, hsnd]
        exact hp

end Results

-- A module with a toolchain
-- ---

def importedModule : GeneratedModule := ⟨["ws"], "[project]", "lock-version = 3"⟩

def importWorld (manifest : Option String) : World Path String where
  files path := if path = ["ws", "jman.toml"] then manifest else none
  outcomes := [.succeeds, .succeeds, .succeeds, .fails none]
  trace := []

theorem import_loses_toolchain :
    ∃ e w', exec (writeWorkspaceAtomically "7" [importedModule])
        (importWorld (some "[toolchain]")) = (.error e, w') ∧
      (importWorld (some "[toolchain]")).files ["ws", "jman.toml"] = some "[toolchain]" ∧
      w'.files ["ws", "jman.toml"] = none :=
  ⟨_, _, rfl, rfl, rfl⟩

theorem importWorld_removes (manifest : Option String) :
    Avoids removeFails (writeWorkspaceAtomically "7" [importedModule]) (importWorld manifest) := by
  have hwrite : ∀ (path : Path) (contents : String) (v : World Path String),
      ¬ removeFails (.write path contents) v := fun path contents v h => by
    obtain ⟨removed, hremoved⟩ := h.1
    cases hremoved
  have hrename : ∀ (source target : Path) (v : World Path String),
      ¬ removeFails (.rename source target) v := fun source target v h => by
    obtain ⟨removed, hremoved⟩ := h.1
    cases hremoved
  have hcalm : ∀ (operation : Operation Path String) (v : World Path String), v.outcomes = [] →
      ¬ removeFails operation v := by
    rintro operation v hnone ⟨-, left, hfails⟩
    rw [World.next, hnone] at hfails
    cases hfails
  -- two writes and two renames, and the removals after the one that fails
  exact ⟨hwrite _ _ _, hwrite _ _ _, hrename _ _ _, hrename _ _ _, hcalm _ _ rfl, hcalm _ _ rfl,
    hcalm _ _ rfl, trivial⟩

/-- Where there was no manifest nothing is left of the import. -/
theorem import_restores :
    ∃ e w', exec (writeWorkspaceAtomically "7" [importedModule]) (importWorld none) = (.error e, w') ∧
      Restored "7" [importedModule] (importWorld none) w' := by
  refine ⟨_, _, rfl, (restored_iff "7" (by decide) (importWorld_removes none) rfl).mpr ?_⟩
  have hwrite : ∀ (path : Path) (contents : String) (v : World Path String), v.next = .succeeds →
      ¬ harms (.write path contents) v := fun path contents v hnext => by
    rw [not_harms_write]
    intro left hfails
    rw [hnext] at hfails
    cases hfails
  -- two writes and two renames, the second of which fails, and three removals
  exact ⟨hwrite _ _ _ rfl, hwrite _ _ _ rfl, not_harms_rename.mpr (fun _ => rfl),
    not_harms_rename.mpr nofun, not_harms_remove, not_harms_remove, not_harms_remove, trivial⟩

end JMan.Cli
