import Mathlib.Logic.Function.Basic
import JMan.Build.Artifacts
import JMan.Build.ToolchainStore

/-!
# JMan — removing JDKs

`ToolchainManager::remove` and `rollback_staged` of `jman-build/src/toolchain.rs`. The
selected installations are moved to temporary names, and then their directories are deleted
one after the other. When a step fails, what is still at a temporary name is moved back: the
directory whose deletion has failed among it.

A recursive deletion that fails has removed any of the files. Moves back are tried, and may
fail as well.

* `remove_sound_iff` — what is listed after a failed removal is complete, unless a directory
  that lost files, but not its record and its compiler, is moved back.
-/

namespace JMan.Build.Toolchains

open Paths (Path)

-- Removal
-- ---

/-- The directories of the machine, by their paths. -/
abbrev Store := Path → Option Tree

/-- A directory that is moved to a temporary name. -/
structure Staged where
  index : Nat
  temporary : Path
  original : Path
deriving DecidableEq

/-- What fails: a step before the first move, moves, deletions, after they have removed
these files, and moves back. -/
structure Faults where
  early : Option BuildError
  staging : Nat → Bool
  deletion : Nat → Option (Path → Bool)
  rollback : Nat → Bool

/-- `fs::rename` -/
def move (source target : Path) (store : Store) : Store :=
  match store source with
  | none => store
  | some tree => Function.update (Function.update store source none) target (some tree)

def moveBack (faults : Faults) (entry : Staged) (store : Store) : Store :=
  if faults.rollback entry.index then store else move entry.temporary entry.original store

def rollbackStaged (faults : Faults) (staged : List Staged) (store : Store) : Store :=
  staged.foldr (moveBack faults) store

/-- `.remove-{}-{index}` in the store -/
def temporaryOf (pid : String) (root : Path) (index : Nat) : Path :=
  root ++ [".remove-" ++ pid ++ "-" ++ toString index]

def stage (pid : String) (root : Path) (faults : Faults) :
    Nat → List ManagedJdk → List Staged → Store → Except BuildError (List Staged) × Store
  | _, [], staged, store => (.ok staged, store)
  | index, jdk :: rest, staged, store =>
    let temporary := temporaryOf pid root index
    if (store temporary).isSome then
      (.error (.invalid ("stale JDK removal path exists at " ++ Paths.display temporary)),
        rollbackStaged faults staged store)
    else if faults.staging index ∨ store jdk.home = none then
      (.error (.io (Paths.display jdk.home) "input/output error"),
        rollbackStaged faults staged store)
    else
      stage pid root faults (index + 1) rest (staged ++ [⟨index, temporary, jdk.home⟩])
        (move jdk.home temporary store)

def discard (faults : Faults) : List Staged → Store → Except BuildError Unit × Store
  | [], store => (.ok (), store)
  | entry :: rest, store =>
    match faults.deletion entry.index with
    | none => discard faults rest (Function.update store entry.temporary none)
    | some removed =>
      (.error (.io (Paths.display entry.temporary) "input/output error"),
        rollbackStaged faults (entry :: rest) (Function.update store entry.temporary
          ((store entry.temporary).map (Tree.without · removed))))

/-- `jdk.home.parent() != Some(self.root.as_path())` -/
def isOutside (root : Path) (jdk : ManagedJdk) : Bool := jdk.home = [] || jdk.home.dropLast ≠ root

/-- The removal of the candidates, after they have been selected. -/
def remove (pid : String) (root : Path) (request : ToolchainRequest) (faults : Faults)
    (candidates : List ManagedJdk) (store : Store) :
    Except BuildError (List ManagedJdk) × Store :=
  match faults.early with
  | some e => (.error e, store)
  | none =>
    if candidates = [] then
      (.error (.invalid ("no JMAN-managed " ++ request.vendor ++ " JDK " ++ request.version ++
        " installation was found")), store)
    else if candidates.any (isOutside root) then
      (.error (.invalid ("refusing to remove JDK outside " ++ Paths.display root)), store)
    else
      match stage pid root faults 0 candidates [] store with
      | (.error e, store) => (.error e, store)
      | (.ok staged, store) =>
        match discard faults staged store with
        | (.error e, store) => (.error e, store)
        | (.ok (), store) => (.ok candidates, store)

/-- Installations that are listed, each once, in directories named like those the
installation makes, which start with the vendor. -/
structure Candidates (format : RecordFormat) (platform : Platform) (root : Path) (store : Store)
    where
  jdks : List ManagedJdk
  listed : ∀ jdk ∈ jdks, ∃ tree, store jdk.home = some tree ∧
    listedAt format platform jdk.home tree = some jdk
  nodup : (jdks.map ManagedJdk.home).Nodup
  named : ∀ jdk ∈ jdks, ∃ name : String, jdk.home = root ++ [name] ∧ name.toList.head? ≠ some '.'

-- Moves back
-- ---

variable {pid : String} {root : Path} {request : ToolchainRequest} {faults : Faults}
  {store store₀ : Store} {staged all : List Staged} {entry : Staged}

structure Apart (all : List Staged) : Prop where
  originals : (all.map Staged.original).Nodup
  temporaries : (all.map Staged.temporary).Nodup
  disjoint : ∀ entry ∈ all, ∀ other ∈ all, entry.original ≠ other.temporary

theorem Apart.sublist (h : Apart all) (hsub : staged.Sublist all) : Apart staged where
  originals := (hsub.map _).nodup h.originals
  temporaries := (hsub.map _).nodup h.temporaries
  disjoint entry hentry other hother :=
    h.disjoint entry (hsub.subset hentry) other (hsub.subset hother)

theorem move_eq (source target : Path) (store : Store) (path : Path)
    (htarget : store target = none) : move source target store path =
      if path = target then store source else if path = source then none else store path := by
  rw [move]
  cases hsource : store source with
  | none =>
    show store path = _
    split
    case isTrue h => rw [h, htarget]
    case isFalse =>
      split
      case isTrue h => rw [h, hsource]
      case isFalse => rfl
  | some tree =>
    show Function.update (Function.update store source none) target (some tree) path = _
    by_cases ht : path = target
    · rw [if_pos ht, ht, Function.update_self]
    · rw [if_neg ht, Function.update_of_ne ht]
      by_cases hs : path = source
      · rw [if_pos hs, hs, Function.update_self]
      · rw [if_neg hs, Function.update_of_ne hs]

structure MovedBack (faults : Faults) (staged : List Staged) (store after : Store) : Prop where
  original : ∀ entry ∈ staged,
    after entry.original = if faults.rollback entry.index then none else store entry.temporary
  temporary : ∀ entry ∈ staged,
    after entry.temporary = if faults.rollback entry.index then store entry.temporary else none
  other : ∀ path, (∀ entry ∈ staged, path ≠ entry.original ∧ path ≠ entry.temporary) →
    after path = store path

variable (faults) in
theorem rollbackStaged_at (h : Apart staged)
    (hgone : ∀ entry ∈ staged, store entry.original = none) :
    MovedBack faults staged store (rollbackStaged faults staged store) := by
  induction staged with
  | nil => exact ⟨by simp, by simp, fun _ _ => rfl⟩
  | cons entry rest ih =>
    have hrest := ih (h.sublist (List.sublist_cons_self ..)) fun e he =>
      hgone e (List.mem_cons_of_mem _ he)
    have horiginal : ∀ other ∈ rest, entry.original ≠ other.original := fun other hother heq =>
      (List.nodup_cons.mp h.originals).1 (heq ▸ List.mem_map_of_mem hother)
    have htemporary : ∀ other ∈ rest, entry.temporary ≠ other.temporary := fun other hother heq =>
      (List.nodup_cons.mp h.temporaries).1 (heq ▸ List.mem_map_of_mem hother)
    have hself := h.disjoint entry List.mem_cons_self entry List.mem_cons_self
    have hcross : ∀ other ∈ rest,
        entry.original ≠ other.temporary ∧ other.original ≠ entry.temporary :=
      fun other hother => ⟨h.disjoint _ List.mem_cons_self _ (List.mem_cons_of_mem _ hother),
        h.disjoint _ (List.mem_cons_of_mem _ hother) _ List.mem_cons_self⟩
    -- the moves of the others leave the two paths of this one alone
    have hsource : rollbackStaged faults rest store entry.temporary = store entry.temporary :=
      hrest.other _ fun other hother =>
        ⟨(hcross other hother).2.symm, htemporary other hother⟩
    have htarget : rollbackStaged faults rest store entry.original = none := by
      rw [hrest.other _ fun other hother => ⟨horiginal other hother, (hcross other hother).1⟩]
      exact hgone entry List.mem_cons_self
    have hmove (path : Path) : rollbackStaged faults (entry :: rest) store path =
        if faults.rollback entry.index then rollbackStaged faults rest store path
        else if path = entry.original then store entry.temporary
        else if path = entry.temporary then none
        else rollbackStaged faults rest store path := by
      show moveBack faults entry (rollbackStaged faults rest store) path = _
      rw [moveBack]
      split
      case isTrue => rfl
      case isFalse => rw [move_eq _ _ _ _ htarget, hsource]
    refine ⟨fun other hother => ?_, fun other hother => ?_, fun path hpath => ?_⟩
    · rw [hmove]
      cases List.mem_cons.mp hother with
      | inl hsame =>
        subst hsame
        split
        case isTrue => exact htarget
        case isFalse => rw [if_pos rfl]
      | inr hother =>
        rw [if_neg (horiginal other hother).symm, if_neg (hcross other hother).2, ite_self]
        exact hrest.original other hother
    · rw [hmove]
      cases List.mem_cons.mp hother with
      | inl hsame =>
        subst hsame
        split
        case isTrue => exact hsource
        case isFalse => rw [if_neg hself.symm, if_pos rfl]
      | inr hother =>
        rw [if_neg (hcross other hother).1.symm, if_neg (htemporary other hother).symm, ite_self]
        exact hrest.temporary other hother
    · have hhere := hpath entry List.mem_cons_self
      rw [hmove, if_neg hhere.1, if_neg hhere.2, ite_self]
      exact hrest.other path fun other hother => hpath other (List.mem_cons_of_mem _ hother)

-- Moves to temporary names
-- ---

/-- What the candidates become, the first of them with this index. -/
def stagedOf (pid : String) (root : Path) : Nat → List ManagedJdk → List Staged
  | _, [] => []
  | index, jdk :: rest =>
    ⟨index, temporaryOf pid root index, jdk.home⟩ :: stagedOf pid root (index + 1) rest

/-- Between two steps: some directories are deleted, the others at their temporary names. -/
structure Mid (store₀ : Store) (gone kept : List Staged) (store : Store) : Prop where
  original : ∀ entry ∈ gone ++ kept, store entry.original = none
  deleted : ∀ entry ∈ gone, store entry.temporary = none
  temporary : ∀ entry ∈ kept, store entry.temporary = store₀ entry.original
  other : ∀ path, (∀ entry ∈ gone ++ kept, path ≠ entry.original ∧ path ≠ entry.temporary) →
    store path = store₀ path
  free : ∀ entry ∈ gone ++ kept, store₀ entry.temporary = none

def Stageable (faults : Faults) (store₀ : Store) (entries : List Staged) : Prop :=
  ∀ entry ∈ entries, faults.staging entry.index = false ∧ store₀ entry.temporary = none

theorem mid_start (store : Store) : Mid store [] [] store :=
  ⟨by simp, by simp, by simp, fun _ _ => rfl, by simp⟩

theorem Apart.ne (h : Apart (staged ++ entry :: all)) {other : Staged} (hother : other ∈ staged) :
    entry.original ≠ other.original ∧ entry.temporary ≠ other.temporary ∧
      entry.original ≠ other.temporary ∧ other.original ≠ entry.temporary := by
  have hleft : other ∈ staged ++ entry :: all := List.mem_append_left _ hother
  have hright : entry ∈ staged ++ entry :: all := List.mem_append_right _ List.mem_cons_self
  have horiginals := h.originals
  have htemporaries := h.temporaries
  rw [List.map_append, List.nodup_append] at horiginals htemporaries
  exact ⟨(horiginals.2.2 _ (List.mem_map_of_mem hother) _ List.mem_cons_self).symm,
    (htemporaries.2.2 _ (List.mem_map_of_mem hother) _ List.mem_cons_self).symm,
    h.disjoint _ hright _ hleft, h.disjoint _ hleft _ hright⟩

theorem Mid.moved (h : Mid store₀ [] staged store) (hapart : Apart (staged ++ [entry]))
    (hfree : store entry.temporary = none) (hthere : store₀ entry.original ≠ none) :
    Mid store₀ [] (staged ++ [entry]) (move entry.original entry.temporary store) := by
  have hself := hapart.disjoint entry (by simp) entry (by simp)
  have hsource : store entry.original = store₀ entry.original := h.other _ fun other hother =>
    ⟨(hapart.ne hother).1, (hapart.ne hother).2.2.1⟩
  constructor
  case original =>
    intro other hother
    rw [List.nil_append, List.mem_append, List.mem_singleton] at hother
    rw [move_eq _ _ _ _ hfree]
    cases hother with
    | inl hother =>
      rw [if_neg (hapart.ne hother).2.2.2, if_neg (hapart.ne hother).1.symm]
      exact h.original other hother
    | inr hother =>
      subst hother
      rw [if_neg hself, if_pos rfl]
  case deleted => simp
  case temporary =>
    intro other hother
    rw [List.mem_append, List.mem_singleton] at hother
    rw [move_eq _ _ _ _ hfree]
    cases hother with
    | inl hother =>
      rw [if_neg (hapart.ne hother).2.1.symm, if_neg (hapart.ne hother).2.2.1.symm]
      exact h.temporary other hother
    | inr hother =>
      subst hother
      rw [if_pos rfl, hsource]
  case other =>
    intro path hpath
    have hhere := hpath entry (by simp)
    rw [move_eq _ _ _ _ hfree, if_neg hhere.2, if_neg hhere.1]
    exact h.other path fun other hother => hpath other (by simp_all)
  case free =>
    intro other hother
    rw [List.nil_append, List.mem_append, List.mem_singleton] at hother
    cases hother with
    | inl hother => exact h.free other hother
    | inr hother =>
      subst hother
      rw [← h.other other.temporary fun e he => ⟨(hapart.ne he).2.2.2.symm, (hapart.ne he).2.1⟩]
      exact hfree

variable (pid faults) in
/-- **Every candidate is moved, or those that were moved are moved back.** -/
theorem stage_spec (index : Nat) (jdks : List ManagedJdk)
    (h : Mid store₀ [] staged store)
    (hapart : Apart (staged ++ stagedOf pid root index jdks))
    (hthere : ∀ jdk ∈ jdks, store₀ jdk.home ≠ none) :
    (Stageable faults store₀ (stagedOf pid root index jdks) → ∃ after,
      stage pid root faults index jdks staged store =
          (.ok (staged ++ stagedOf pid root index jdks), after) ∧
        Mid store₀ [] (staged ++ stagedOf pid root index jdks) after) ∧
    (¬ Stageable faults store₀ (stagedOf pid root index jdks) → ∃ e moved after,
      stage pid root faults index jdks staged store =
          (.error e, rollbackStaged faults moved after) ∧
        moved <+: staged ++ stagedOf pid root index jdks ∧ Mid store₀ [] moved after) := by
  induction jdks generalizing index staged store with
  | nil =>
    rw [stagedOf, List.append_nil] at hapart ⊢
    exact ⟨fun _ => ⟨store, rfl, h⟩, fun hnot => absurd (by simp [Stageable]) hnot⟩
  | cons jdk rest ih =>
    let entry : Staged := ⟨index, temporaryOf pid root index, jdk.home⟩
    have hstaged : stagedOf pid root index (jdk :: rest) =
        entry :: stagedOf pid root (index + 1) rest := rfl
    rw [hstaged] at hapart ⊢
    have hone : Apart (staged ++ [entry]) := hapart.sublist (by simp)
    have htemporary : store (temporaryOf pid root index) = store₀ (temporaryOf pid root index) :=
      h.other _ fun e he => ⟨(hone.ne he).2.2.2.symm, (hone.ne he).2.1⟩
    have hsource : store jdk.home = store₀ jdk.home :=
      h.other _ fun e he => ⟨(hone.ne he).1, (hone.ne he).2.2.1⟩
    have hbegins : staged <+: staged ++ entry :: stagedOf pid root (index + 1) rest :=
      List.prefix_append ..
    by_cases hfree : store₀ (temporaryOf pid root index) = none
    · by_cases hfault : faults.staging index = true
      · have hrun : stage pid root faults index (jdk :: rest) staged store =
            (.error (.io (Paths.display jdk.home) "input/output error"),
              rollbackStaged faults staged store) := by
          rw [stage, if_neg (by rw [htemporary, hfree]; simp),
            if_pos (Or.inl hfault)]
        exact ⟨fun hall => absurd (hall entry List.mem_cons_self).1 (by simp [entry, hfault]),
          fun _ => ⟨_, staged, store, hrun, hbegins, h⟩⟩
      · have hrun : stage pid root faults index (jdk :: rest) staged store =
            stage pid root faults (index + 1) rest (staged ++ [entry])
              (move entry.original entry.temporary store) := by
          rw [stage, if_neg (by rw [htemporary, hfree]; simp),
            if_neg (by
              rw [not_or, hsource]
              exact ⟨hfault, hthere jdk List.mem_cons_self⟩)]
        have hnext := ih (index + 1) (h.moved hone (htemporary.trans hfree)
            (hthere jdk List.mem_cons_self))
          (by rw [List.append_assoc, List.singleton_append]; exact hapart)
          fun other hother => hthere other (List.mem_cons_of_mem _ hother)
        rw [List.append_assoc, List.singleton_append] at hnext
        have hstageable : Stageable faults store₀ (entry :: stagedOf pid root (index + 1) rest) ↔
            Stageable faults store₀ (stagedOf pid root (index + 1) rest) := by
          rw [Stageable, List.forall_mem_cons]
          exact ⟨fun hall => hall.2, fun hall => ⟨⟨Bool.eq_false_of_not_eq_true hfault, hfree⟩, hall⟩⟩
        rw [hrun, hstageable]
        exact hnext
    · have hrun : stage pid root faults index (jdk :: rest) staged store =
          (.error (.invalid ("stale JDK removal path exists at " ++
              Paths.display (temporaryOf pid root index))),
            rollbackStaged faults staged store) := by
        rw [stage, if_pos (by
          rw [htemporary, Option.isSome_iff_ne_none]
          exact hfree)]
      exact ⟨fun hall => absurd (hall entry List.mem_cons_self).2 hfree,
        fun _ => ⟨_, staged, store, hrun, hbegins, h⟩⟩

-- Deletions
-- ---

theorem Mid.discarded {gone kept : List Staged} (h : Mid store₀ gone (entry :: kept) store)
    (hapart : Apart (gone ++ entry :: kept)) :
    Mid store₀ (gone ++ [entry]) kept (Function.update store entry.temporary none) := by
  have hall : (gone ++ [entry]) ++ kept = gone ++ entry :: kept := by simp
  have hentry : entry ∈ gone ++ entry :: kept := by simp
  constructor
  case original =>
    intro other hother
    rw [hall] at hother
    rw [Function.update_of_ne (hapart.disjoint other hother entry hentry)]
    exact h.original other hother
  case deleted =>
    intro other hother
    rw [List.mem_append, List.mem_singleton] at hother
    cases hother with
    | inl hother =>
      rw [Function.update_of_ne (hapart.ne hother).2.1.symm]
      exact h.deleted other hother
    | inr hother => rw [hother, Function.update_self]
  case temporary =>
    intro other hother
    have hne : other.temporary ≠ entry.temporary := by
      have htemporaries := hapart.temporaries
      rw [List.map_append, List.nodup_append] at htemporaries
      exact fun heq => (List.nodup_cons.mp htemporaries.2.1).1 (heq ▸ List.mem_map_of_mem hother)
    rw [Function.update_of_ne hne]
    exact h.temporary other (List.mem_cons_of_mem _ hother)
  case other =>
    intro path hpath
    rw [hall] at hpath
    rw [Function.update_of_ne (hpath entry hentry).2]
    exact h.other path hpath
  case free =>
    rw [hall]
    exact h.free

theorem discard_append (before rest gone : List Staged) (h : Mid store₀ gone (before ++ rest) store)
    (hapart : Apart (gone ++ (before ++ rest)))
    (hquiet : ∀ entry ∈ before, faults.deletion entry.index = none) :
    ∃ after, discard faults (before ++ rest) store = discard faults rest after ∧
      Mid store₀ (gone ++ before) rest after := by
  induction before generalizing gone store with
  | nil => exact ⟨store, rfl, (List.append_nil gone).symm ▸ h⟩
  | cons entry before ih =>
    obtain ⟨after, hrun, hmid⟩ := ih (gone ++ [entry]) (h.discarded hapart)
      (by rw [List.append_assoc]; exact hapart) fun e he => hquiet e (List.mem_cons_of_mem _ he)
    refine ⟨after, ?_, ?_⟩
    · rw [List.cons_append, discard, hquiet entry List.mem_cons_self]
      exact hrun
    · rw [List.append_assoc, List.singleton_append] at hmid
      exact hmid

theorem discard_ok (hquiet : ∀ entry ∈ staged, faults.deletion entry.index = none) (store : Store) :
    (discard faults staged store).1 = .ok () := by
  induction staged generalizing store with
  | nil => rfl
  | cons entry rest ih =>
    rw [discard, hquiet entry List.mem_cons_self]
    exact ih (fun e he => hquiet e (List.mem_cons_of_mem _ he)) _

/-- Where everything is after the deletion of a directory has failed. -/
structure TornBack (faults : Faults) (store₀ : Store) (before : List Staged) (entry : Staged)
    (removed : Path → Bool) (kept : List Staged) (after : Store) : Prop where
  deleted : ∀ other ∈ before, after other.original = none ∧ after other.temporary = none
  original : after entry.original = if faults.rollback entry.index then none
    else (store₀ entry.original).map (Tree.without · removed)
  temporary : after entry.temporary = if faults.rollback entry.index
    then (store₀ entry.original).map (Tree.without · removed) else none
  later : ∀ other ∈ kept,
    after other.original = (if faults.rollback other.index then none else store₀ other.original) ∧
    after other.temporary = if faults.rollback other.index then store₀ other.original else none
  other : ∀ path, (∀ other ∈ before ++ entry :: kept,
    path ≠ other.original ∧ path ≠ other.temporary) → after path = store₀ path

theorem discard_failed {before kept : List Staged} {removed : Path → Bool}
    (h : Mid store₀ [] (before ++ entry :: kept) store) (hapart : Apart (before ++ entry :: kept))
    (hquiet : ∀ e ∈ before, faults.deletion e.index = none)
    (hfault : faults.deletion entry.index = some removed) :
    ∃ e after, discard faults (before ++ entry :: kept) store = (.error e, after) ∧
      TornBack faults store₀ before entry removed kept after := by
  obtain ⟨middle, hrun, hmid⟩ := discard_append before (entry :: kept) [] h hapart hquiet
  rw [List.nil_append] at hmid
  let torn := Function.update middle entry.temporary
    ((middle entry.temporary).map (Tree.without · removed))
  have hkept : Apart (entry :: kept) := hapart.sublist (List.sublist_append_right ..)
  have horiginal : ∀ other ∈ before ++ entry :: kept, torn other.original = none :=
    fun other hother => (Function.update_of_ne (hapart.disjoint other hother entry (by simp)) _ _).trans
      (hmid.original other hother)
  have hback := rollbackStaged_at faults hkept fun other hother =>
    horiginal other (List.mem_append_right _ hother)
  have htorn : torn entry.temporary = (store₀ entry.original).map (Tree.without · removed) := by
    rw [← hmid.temporary entry List.mem_cons_self]
    exact Function.update_self ..
  have hfailed : discard faults (before ++ entry :: kept) store =
      (.error (.io (Paths.display entry.temporary) "input/output error"),
        rollbackStaged faults (entry :: kept) torn) := by
    rw [hrun, discard, hfault]
  refine ⟨_, _, hfailed, ?_⟩
  constructor
  case deleted =>
    intro other hother
    have hne := hapart.ne hother
    have hothers : ∀ e ∈ entry :: kept, other.original ≠ e.original ∧
        other.temporary ≠ e.temporary := by
      intro e he
      obtain ⟨left, right, hsplit⟩ := List.append_of_mem he
      have hwhole : before ++ entry :: kept = (before ++ left) ++ e :: right := by
        rw [hsplit, List.append_assoc]
      have := (hwhole ▸ hapart).ne (List.mem_append_left left hother)
      exact ⟨this.1.symm, this.2.1.symm⟩
    have hmem : other ∈ before ++ entry :: kept := List.mem_append_left _ hother
    constructor
    · rw [hback.other _ fun e he => ⟨(hothers e he).1,
        hapart.disjoint _ hmem _ (List.mem_append_right _ he)⟩]
      exact horiginal other hmem
    · rw [hback.other _ fun e he => ⟨(hapart.disjoint _ (List.mem_append_right _ he) _ hmem).symm,
        (hothers e he).2⟩]
      exact (Function.update_of_ne hne.2.1.symm _ _).trans (hmid.deleted other hother)
  case original => rw [hback.original entry List.mem_cons_self, htorn]
  case temporary => rw [hback.temporary entry List.mem_cons_self, htorn]
  case later =>
    intro other hother
    have hne : other.temporary ≠ entry.temporary := fun heq =>
      (List.nodup_cons.mp hkept.temporaries).1 (heq ▸ List.mem_map_of_mem hother)
    have hthere : torn other.temporary = store₀ other.original :=
      (Function.update_of_ne hne _ _).trans (hmid.temporary other (List.mem_cons_of_mem _ hother))
    rw [hback.original other (List.mem_cons_of_mem _ hother),
      hback.temporary other (List.mem_cons_of_mem _ hother), hthere]
    exact ⟨rfl, rfl⟩
  case other =>
    intro path hpath
    rw [hback.other path fun e he => hpath e (List.mem_append_right _ he)]
    exact (Function.update_of_ne (hpath entry (by simp)).2 _ _).trans (hmid.other path hpath)

-- What is listed
-- ---

section

variable {format : RecordFormat} {platform : Platform} {jdk : ManagedJdk} {tree : Tree}
  {path : Path} {after : Store}

/-- `list` reports this installation, and these are its files. -/
def Lists (format : RecordFormat) (platform : Platform) (root : Path) (store : Store)
    (jdk : ManagedJdk) (tree : Tree) : Prop :=
  (∃ name, jdk.home = root ++ [name]) ∧ store jdk.home = some tree ∧
    listedAt format platform jdk.home tree = some jdk

/-- What is listed has all its files, and what was not selected is as it was. -/
structure Sound (format : RecordFormat) (platform : Platform) (root : Path)
    (jdks : List ManagedJdk) (store after : Store) : Prop where
  complete : ∀ jdk tree, Lists format platform root after jdk tree → store jdk.home = some tree
  untouched : ∀ jdk tree, Lists format platform root store jdk tree → jdk ∉ jdks →
    after jdk.home = some tree

/-- What can be at a path when no installation is listed that is damaged: what was there; at
the home of a candidate, nothing that is listed; elsewhere, a part of a candidate. -/
def Settled (candidates : Candidates format platform root store) (path : Path)
    (content : Option Tree) : Prop :=
  content = store path ∨
  (∃ jdk ∈ candidates.jdks, path = jdk.home ∧ content.bind (listedAt format platform path) = none) ∨
  (store path = none ∧ ∃ jdk ∈ candidates.jdks, path ≠ jdk.home ∧
    ∃ removed : Path → Bool, content = (store jdk.home).map (Tree.without · removed))

theorem sound_of_settled (candidates : Candidates format platform root store)
    (h : ∀ path, Settled candidates path (after path)) :
    Sound format platform root candidates.jdks store after where
  complete jdk tree hlists := by
    obtain ⟨-, hthere, hlisted⟩ := hlists
    rcases h jdk.home with hsame | ⟨other, -, -, hnone⟩ | ⟨-, other, hother, hne, removed, hpart⟩
    · rw [← hsame, hthere]
    · rw [hthere, Option.bind_some, hlisted] at hnone
      cases hnone
    · obtain ⟨whole, hwhole, hown⟩ := candidates.listed other hother
      rw [hthere, hwhole, Option.map_some, Option.some.injEq] at hpart
      rw [hpart] at hlisted
      -- the record in a part of the candidate names the home of the candidate
      exact absurd (home_unique (of_listedAt_without hlisted).2.2 hown) hne
  untouched jdk tree hlists hnot := by
    obtain ⟨-, hthere, hlisted⟩ := hlists
    rcases h jdk.home with hsame | ⟨other, hother, hhome, -⟩ | ⟨hnone, -⟩
    · rw [hsame, hthere]
    · obtain ⟨whole, hwhole, hown⟩ := candidates.listed other hother
      rw [← hhome, hthere, Option.some.injEq] at hwhole
      rw [← hhome, ← hwhole, hlisted, Option.some.injEq] at hown
      exact absurd (hown ▸ hother) hnot
    · rw [hthere] at hnone
      cases hnone

theorem settled_movedBack (candidates : Candidates format platform root store₀)
    (hmid : Mid store₀ [] staged store) (hapart : Apart staged)
    (hhomes : ∀ entry ∈ staged, ∃ jdk ∈ candidates.jdks, jdk.home = entry.original) (path : Path) :
    Settled candidates path (rollbackStaged faults staged store path) := by
  have hback := rollbackStaged_at faults hapart hmid.original
  by_cases hplace : ∃ entry ∈ staged, path = entry.original ∨ path = entry.temporary
  · obtain ⟨entry, hentry, hpath⟩ := hplace
    obtain ⟨jdk, hjdk, hhome⟩ := hhomes entry hentry
    cases hpath with
    | inl hpath =>
      subst hpath
      rw [hback.original entry hentry, hmid.temporary entry hentry]
      split
      case isTrue => exact Or.inr (Or.inl ⟨jdk, hjdk, hhome.symm, rfl⟩)
      case isFalse => exact Or.inl rfl
    | inr hpath =>
      subst hpath
      rw [hback.temporary entry hentry, hmid.temporary entry hentry]
      split
      case isTrue =>
        refine Or.inr (Or.inr ⟨hmid.free entry hentry, jdk, hjdk, ?_, fun _ => false, ?_⟩)
        · rw [hhome]
          exact (hapart.disjoint entry hentry entry hentry).symm
        · rw [hhome]
          cases store₀ entry.original <;> rfl
      case isFalse => exact Or.inl (hmid.free entry hentry).symm
  · refine Or.inl ?_
    rw [hback.other path fun entry hentry => ?_, hmid.other path fun entry hentry => ?_]
    all_goals exact not_or.mp fun hpath => hplace ⟨entry, hentry, hpath⟩

theorem settled_tornBack (candidates : Candidates format platform root store₀)
    {before kept : List Staged} {removed : Path → Bool}
    (hback : TornBack faults store₀ before entry removed kept after)
    (hapart : Apart (before ++ entry :: kept))
    (hfree : ∀ e ∈ before ++ entry :: kept, store₀ e.temporary = none)
    (hhomes : ∀ e ∈ before ++ entry :: kept, ∃ jdk ∈ candidates.jdks, jdk.home = e.original)
    (htorn : faults.rollback entry.index = false → ∀ tree, store₀ entry.original = some tree →
      removed metadata = false → removed (javacPath platform) = false →
      tree.without removed = tree) (path : Path) :
    Settled candidates path (after path) := by
  by_cases hplace : ∃ e ∈ before ++ entry :: kept, path = e.original ∨ path = e.temporary
  · obtain ⟨e, he, hpath⟩ := hplace
    obtain ⟨jdk, hjdk, hhome⟩ := hhomes e he
    have hne : e.temporary ≠ jdk.home := hhome ▸ (hapart.disjoint e he e he).symm
    have hhere := hfree e he
    rcases List.mem_append.mp he with hbefore | hrest
    · have hgone := hback.deleted e hbefore
      rcases hpath with rfl | rfl
      · exact Or.inr (Or.inl ⟨jdk, hjdk, hhome.symm, by rw [hgone.1]; rfl⟩)
      · exact Or.inl (hgone.2.trans hhere.symm)
    rcases List.mem_cons.mp hrest with rfl | hkept
    · rcases hpath with rfl | rfl
      · rw [hback.original]
        cases hrollback : faults.rollback e.index with
        | true => exact Or.inr (Or.inl ⟨jdk, hjdk, hhome.symm, rfl⟩)
        | false =>
          rw [if_neg (Bool.false_ne_true)]
          cases htree : store₀ e.original with
          | none => exact Or.inl htree.symm
          | some tree =>
            rw [Option.map_some]
            cases hlisted : listedAt format platform e.original (tree.without removed) with
            | none => exact Or.inr (Or.inl ⟨jdk, hjdk, hhome.symm, hlisted⟩)
            | some listed =>
              have hpart := of_listedAt_without hlisted
              rw [htorn hrollback tree htree hpart.1 hpart.2.1]
              exact Or.inl htree.symm
      · rw [hback.temporary]
        split
        case isTrue => exact Or.inr (Or.inr ⟨hhere, jdk, hjdk, hne, removed, by rw [hhome]⟩)
        case isFalse => exact Or.inl hhere.symm
    · have hlater := hback.later e hkept
      rcases hpath with rfl | rfl
      · rw [hlater.1]
        split
        case isTrue => exact Or.inr (Or.inl ⟨jdk, hjdk, hhome.symm, rfl⟩)
        case isFalse => exact Or.inl rfl
      · rw [hlater.2]
        split
        case isTrue =>
          refine Or.inr (Or.inr ⟨hhere, jdk, hjdk, hne, fun _ => false, ?_⟩)
          rw [hhome]
          cases store₀ e.original <;> rfl
        case isFalse => exact Or.inl hhere.symm
  · refine Or.inl (hback.other path fun e he => ?_)
    exact not_or.mp fun hpath => hplace ⟨e, he, hpath⟩

-- The candidates
-- ---

theorem stagedOf_append (start : Nat) (jdks others : List ManagedJdk) :
    stagedOf pid root start (jdks ++ others) =
      stagedOf pid root start jdks ++ stagedOf pid root (start + jdks.length) others := by
  induction jdks generalizing start with
  | nil => rfl
  | cons jdk rest ih =>
    rw [List.cons_append, stagedOf, stagedOf, ih, List.cons_append, List.length_cons,
      Nat.add_comm rest.length, Nat.add_assoc]

variable (pid root) in
theorem map_original_stagedOf (start : Nat) (jdks : List ManagedJdk) :
    (stagedOf pid root start jdks).map Staged.original = jdks.map ManagedJdk.home := by
  induction jdks generalizing start with
  | nil => rfl
  | cons jdk rest ih => rw [stagedOf, List.map_cons, List.map_cons, ih]

variable (pid root) in
theorem forall_stagedOf (start : Nat) (jdks : List ManagedJdk) (P : Nat → Path → Prop) :
    (∀ entry ∈ stagedOf pid root start jdks, P entry.index entry.temporary) ↔
      ∀ i < jdks.length, P (start + i) (temporaryOf pid root (start + i)) := by
  induction jdks generalizing start with
  | nil => simp [stagedOf]
  | cons jdk rest ih =>
    rw [stagedOf, List.forall_mem_cons, ih, List.length_cons, Nat.forall_lt_succ_left]
    simp only [Nat.add_zero, Nat.add_assoc, Nat.add_comm 1]

theorem temporaryOf_injective {m n : Nat} (h : temporaryOf pid root m = temporaryOf pid root n) :
    m = n := by
  have hname := List.append_cancel_left h
  rw [List.cons.injEq, ← String.toList_inj] at hname
  simp only [String.toList_append, List.append_cancel_left_eq] at hname
  exact Numbers.toString_injective (String.toList_inj.mp hname.1)

theorem nodup_temporaries (start : Nat) (jdks : List ManagedJdk) :
    ((stagedOf pid root start jdks).map Staged.temporary).Nodup := by
  induction jdks generalizing start with
  | nil => exact List.nodup_nil
  | cons jdk rest ih =>
    rw [stagedOf, List.map_cons, List.nodup_cons]
    refine ⟨fun hmem => ?_, ih (start + 1)⟩
    obtain ⟨other, hother, heq⟩ := List.mem_map.mp hmem
    have hall := (forall_stagedOf pid root (start + 1) rest
      fun _ path => path ≠ temporaryOf pid root start).mpr fun i _ hsame => by
        have := temporaryOf_injective hsame
        omega
    exact hall other hother heq

variable (pid) in
theorem apart_stagedOf (candidates : Candidates format platform root store) :
    Apart (stagedOf pid root 0 candidates.jdks) where
  originals := by
    rw [map_original_stagedOf]
    exact candidates.nodup
  temporaries := nodup_temporaries 0 candidates.jdks
  disjoint entry hentry other hother := by
    have horiginal : entry.original ∈ candidates.jdks.map ManagedJdk.home :=
      map_original_stagedOf pid root 0 candidates.jdks ▸
        List.mem_map_of_mem hentry
    obtain ⟨jdk, hjdk, hhome⟩ := List.mem_map.mp horiginal
    obtain ⟨name, hname, hdot⟩ := candidates.named jdk hjdk
    have hall := (forall_stagedOf pid root 0 candidates.jdks
      fun _ path => entry.original ≠ path).mpr fun i _ hsame => by
        rw [← hhome, hname, temporaryOf, List.append_cancel_left_eq, List.cons.injEq] at hsame
        rw [hsame.1] at hdot
        simp at hdot
    exact hall other hother

theorem homes_stagedOf (candidates : Candidates format platform root store) :
    ∀ entry ∈ stagedOf pid root 0 candidates.jdks,
      ∃ jdk ∈ candidates.jdks, jdk.home = entry.original := by
  intro entry hentry
  have horiginal : entry.original ∈ candidates.jdks.map ManagedJdk.home :=
    map_original_stagedOf pid root 0 candidates.jdks ▸
      List.mem_map_of_mem hentry
  exact List.mem_map.mp horiginal

-- Removal
-- ---

/-- Every candidate is moved, and the first deletion that fails leaves the record and the
compiler, but not all that was there, and the directory is moved back. -/
structure PutsBack (platform : Platform) (pid : String) (root : Path) (faults : Faults)
    (jdks : List ManagedJdk) (store : Store) : Prop where
  early : faults.early = none
  staged : ∀ i < jdks.length,
    faults.staging i = false ∧ store (temporaryOf pid root i) = none
  torn : ∃ before jdk later removed tree, jdks = before ++ jdk :: later ∧
    (∀ i < before.length, faults.deletion i = none) ∧
    faults.deletion before.length = some removed ∧ faults.rollback before.length = false ∧
    store jdk.home = some tree ∧ removed metadata = false ∧
    removed (javacPath platform) = false ∧ tree.without removed ≠ tree

theorem stageable_iff (jdks : List ManagedJdk) :
    Stageable faults store (stagedOf pid root 0 jdks) ↔
      ∀ i < jdks.length, faults.staging i = false ∧ store (temporaryOf pid root i) = none := by
  rw [Stageable, forall_stagedOf _ _ 0 jdks fun i path => faults.staging i = false ∧ store path = none]
  simp only [Nat.zero_add]

variable (pid root faults) in
theorem first_fault (jdks : List ManagedJdk) :
    (∀ entry ∈ stagedOf pid root 0 jdks, faults.deletion entry.index = none) ∨
    ∃ before jdk later removed, jdks = before ++ jdk :: later ∧
      (∀ i < before.length, faults.deletion i = none) ∧
      faults.deletion before.length = some removed := by
  induction jdks using List.reverseRecOn with
  | nil => exact Or.inl (by simp [stagedOf])
  | append_singleton jdks jdk ih =>
    cases ih with
    | inl hquiet =>
      have hbefore := (forall_stagedOf _ _ 0 jdks fun i _ => faults.deletion i = none).mp hquiet
      simp only [Nat.zero_add] at hbefore
      cases hfault : faults.deletion jdks.length with
      | none =>
        refine Or.inl fun entry hentry => ?_
        rw [stagedOf_append, List.mem_append, Nat.zero_add] at hentry
        cases hentry with
        | inl hentry => exact hquiet entry hentry
        | inr hentry =>
          rw [List.mem_singleton.mp hentry]
          exact hfault
      | some removed => exact Or.inr ⟨jdks, jdk, [], removed, rfl, hbefore, hfault⟩
    | inr hfirst =>
      obtain ⟨before, other, later, removed, rfl, hbefore, hfault⟩ := hfirst
      exact Or.inr ⟨before, other, later ++ [jdk], removed, by simp, hbefore, hfault⟩

theorem any_isOutside (candidates : Candidates format platform root store) :
    ¬ candidates.jdks.any (isOutside root) = true := by
  rw [List.any_eq_true]
  rintro ⟨jdk, hjdk, houtside⟩
  obtain ⟨name, hname, -⟩ := candidates.named jdk hjdk
  simp [isOutside, hname] at houtside

theorem remove_eq (candidates : Candidates format platform root store)
    (hearly : faults.early = none) (hne : candidates.jdks ≠ []) :
    remove pid root request faults candidates.jdks store =
      match stage pid root faults 0 candidates.jdks [] store with
      | (.error e, after) => (.error e, after)
      | (.ok staged, middle) =>
        match discard faults staged middle with
        | (.error e, after) => (.error e, after)
        | (.ok (), after) => (.ok candidates.jdks, after) := by
  rw [remove, hearly]
  dsimp only
  rw [if_neg hne, if_neg (any_isOutside candidates)]

theorem sound_refl (jdks : List ManagedJdk) : Sound format platform root jdks store store :=
  ⟨fun _ _ hlists => hlists.2.1, fun _ _ hlists _ => hlists.2.1⟩

theorem there_of_candidates (candidates : Candidates format platform root store) :
    ∀ jdk ∈ candidates.jdks, store jdk.home ≠ none := by
  intro jdk hjdk hnone
  obtain ⟨tree, htree, -⟩ := candidates.listed jdk hjdk
  rw [hnone] at htree
  cases htree

variable (pid root) in
theorem stagedOf_split (before later : List ManagedJdk) (jdk : ManagedJdk) :
    stagedOf pid root 0 (before ++ jdk :: later) =
      stagedOf pid root 0 before ++
        ⟨before.length, temporaryOf pid root before.length, jdk.home⟩ ::
          stagedOf pid root (before.length + 1) later := by
  rw [stagedOf_append, Nat.zero_add, stagedOf]

variable (request) in
theorem remove_torn (candidates : Candidates format platform root store)
    (hearly : faults.early = none)
    (hstaged : ∀ i < candidates.jdks.length,
      faults.staging i = false ∧ store (temporaryOf pid root i) = none)
    {before later : List ManagedJdk} {removed : Path → Bool}
    (hjdks : candidates.jdks = before ++ jdk :: later)
    (hquiet : ∀ i < before.length, faults.deletion i = none)
    (hfault : faults.deletion before.length = some removed) :
    ∃ e after, remove pid root request faults candidates.jdks store = (.error e, after) ∧
      TornBack faults store (stagedOf pid root 0 before)
        ⟨before.length, temporaryOf pid root before.length, jdk.home⟩ removed
        (stagedOf pid root (before.length + 1) later) after := by
  have happart := apart_stagedOf pid candidates
  obtain ⟨middle, hrun, hmid⟩ := (stage_spec pid faults 0 candidates.jdks
    (mid_start store) happart (there_of_candidates candidates)).1 ((stageable_iff _).mpr hstaged)
  have hparts := stagedOf_split pid root before later jdk
  rw [← hjdks] at hparts
  rw [List.nil_append] at hrun hmid
  rw [hparts] at hmid happart
  obtain ⟨e, after, hdiscard, htorn⟩ := discard_failed hmid happart
    (by
      rw [forall_stagedOf _ _ 0 before fun i _ => faults.deletion i = none]
      simpa only [Nat.zero_add] using hquiet) hfault
  refine ⟨e, after, ?_, htorn⟩
  rw [remove_eq candidates hearly (by rw [hjdks]; simp), hrun]
  dsimp only
  rw [hparts, hdiscard]

/-- **A failed removal leaves what is listed complete, and what was not selected as it was,
unless it moves a directory back that lost files.** -/
theorem remove_sound_iff (pid : String) (root : Path) (request : ToolchainRequest)
    (faults : Faults) (store : Store) (candidates : Candidates format platform root store) :
    (∀ e after, remove pid root request faults candidates.jdks store = (.error e, after) →
      Sound format platform root candidates.jdks store after) ↔
      ¬ PutsBack platform pid root faults candidates.jdks store := by
  constructor
  · rintro hsound ⟨hearly, hstaged, before, jdk, later, removed, tree, hjdks, hquiet, hfault,
      hrollback, htree, hmetadata, hjavac, hlost⟩
    obtain ⟨e, after, hrun, htorn⟩ :=
      remove_torn request candidates hearly hstaged hjdks hquiet hfault
    have hthere : after jdk.home = some (tree.without removed) := by
      rw [htorn.original, if_neg (by rw [hrollback]; exact Bool.false_ne_true), htree]
      rfl
    have hjdk : jdk ∈ candidates.jdks := by
      rw [hjdks]
      exact List.mem_append_right _ List.mem_cons_self
    obtain ⟨whole, hwhole, hlisted⟩ := candidates.listed jdk hjdk
    rw [htree, Option.some.injEq] at hwhole
    subst hwhole
    obtain ⟨name, hname, -⟩ := candidates.named jdk hjdk
    have hcomplete := (hsound e after hrun).complete jdk _
      ⟨⟨name, hname⟩, hthere, listedAt_without hlisted hmetadata hjavac⟩
    rw [htree, Option.some.injEq] at hcomplete
    exact hlost hcomplete.symm
  · intro hnot e after hrun
    by_cases hne : candidates.jdks = []
    · have hsame : after = store := by
        rw [remove, hne] at hrun
        cases hearly : faults.early with
        | none =>
          rw [hearly] at hrun
          exact (congrArg Prod.snd hrun).symm
        | some early =>
          rw [hearly] at hrun
          exact (congrArg Prod.snd hrun).symm
      rw [hsame]
      exact sound_refl _
    cases hearly : faults.early with
    | some early =>
      rw [remove, hearly] at hrun
      have hsame : store = after := congrArg Prod.snd hrun
      rw [← hsame]
      exact sound_refl _
    | none =>
      have happart := apart_stagedOf pid candidates
      have hspec := stage_spec pid faults 0 candidates.jdks
        (mid_start store) happart (there_of_candidates candidates)
      rw [List.nil_append] at hspec
      by_cases hstaged : Stageable faults store (stagedOf pid root 0 candidates.jdks)
      · rcases first_fault pid root faults candidates.jdks with
          hquiet | ⟨before, jdk, later, removed, hjdks, hquiet, hfault⟩
        · -- no deletion fails
          obtain ⟨middle, hstage, -⟩ := hspec.1 hstaged
          have hok := discard_ok hquiet middle
          rw [remove_eq candidates hearly hne, hstage] at hrun
          dsimp only at hrun
          cases hdiscard : discard faults (stagedOf pid root 0 candidates.jdks) middle with
          | mk result last =>
            rw [hdiscard] at hok hrun
            dsimp only at hok
            subst hok
            cases hrun
        · have hindices := (stageable_iff _).mp hstaged
          obtain ⟨e', after', hrun', htorn⟩ :=
            remove_torn request candidates hearly hindices hjdks hquiet hfault
          rw [hrun'] at hrun
          cases hrun
          have hparts := stagedOf_split pid root before later jdk
          rw [← hjdks] at hparts
          refine sound_of_settled candidates (settled_tornBack candidates htorn ?_ ?_ ?_ ?_)
          · rw [← hparts]
            exact happart
          · rw [← hparts]
            exact fun entry hentry => (hstaged entry hentry).2
          · rw [← hparts]
            exact homes_stagedOf candidates
          · intro hrollback tree htree hmetadata hjavac
            by_contra hlost
            exact hnot ⟨hearly, hindices, before, jdk, later, removed, tree, hjdks, hquiet, hfault,
              hrollback, htree, hmetadata, hjavac, hlost⟩
      · obtain ⟨e', moved, middle, hstage, hbegins, hmid⟩ := hspec.2 hstaged
        rw [remove_eq candidates hearly hne, hstage] at hrun
        cases hrun
        refine sound_of_settled candidates (settled_movedBack candidates hmid
          (happart.sublist hbegins.sublist) fun entry hentry => ?_)
        exact homes_stagedOf candidates entry (hbegins.subset hentry)

section Damaged

private def toolchains : Path := ["home", "user", ".jman", "toolchains"]

private def linux : Platform := ⟨"linux", "x64", "glibc", "tar.gz", false⟩

private def installed : ManagedJdk :=
  ⟨"temurin", "21.0.4+7", 21, "linux", "x64", "sha256:c3ab8ff1", toolchains ++ ["temurin-21.0.4_7-linux-x64"]⟩

private def recordFormat : RecordFormat := plainRecords [installed]

private def files : Tree := fun path =>
  if path = metadata then some (recordFormat.toVecPretty installed)
  else if path = javacPath linux ∨ path = ["lib", "modules"] then some []
  else none

private def machine : Store := fun path => if path = installed.home then some files else none

private def modulesLost : Faults where
  early := none
  staging _ := false
  deletion _ := some fun path => path = ["lib", "modules"]
  rollback _ := false

private theorem listedAt_installed :
    listedAt recordFormat linux installed.home files = some installed :=
  listedAt_eq_some.mpr ⟨installed, parse_plainRecords installed, by decide +kernel, rfl, rfl, rfl, rfl⟩

private def selected : Candidates recordFormat linux toolchains machine where
  jdks := [installed]
  listed jdk hjdk := by
    rw [List.mem_singleton.mp hjdk]
    exact ⟨files, rfl, listedAt_installed⟩
  nodup := List.nodup_singleton _
  named jdk hjdk := by
    rw [List.mem_singleton.mp hjdk]
    exact ⟨"temurin-21.0.4_7-linux-x64", rfl, by decide +kernel⟩

/-- The deletion removes one file and fails: what is moved back is still listed. -/
theorem remove_leaves_damaged :
    ¬ ∀ e after, remove "7" toolchains ⟨"21", "temurin"⟩ modulesLost selected.jdks machine =
        (.error e, after) → Sound recordFormat linux toolchains selected.jdks machine after := by
  intro h
  have hcomplete := (h _ _ rfl).complete installed (files.without fun path => path = ["lib", "modules"])
    ⟨⟨"temurin-21.0.4_7-linux-x64", rfl⟩, rfl, listedAt_without listedAt_installed (by decide) (by decide)⟩
  have hmodules := congrArg (fun content => content.bind fun tree => tree ["lib", "modules"]) hcomplete
  exact absurd hmodules (by decide +kernel)

end Damaged

end

end JMan.Build.Toolchains
