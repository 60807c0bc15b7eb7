import JMan.Resolver.Inheritance

/-!
# JMan — what manages a dependency

The dependency management of an effective model comes from three places: the direct entries
of the project, its imports and its parent. `build_raw` of
`jman-resolver/src/effective.rs` takes them into two `DependencyCollection`s, keeping what is
there for the imports and replacing it for the rest, when the imports have completed in
whatever order.

* `management_precedence` — a direct entry wins over an import, the first import over the
  others, and both over the parent.
-/

namespace JMan.Resolver

open Overriding (Indexed overrideAll lastWith)
open Fallible (bind_eq_ok)

-- Entries of a project

/-- An entry that imports the management of another project. -/
def isImport (dependency : Dependency) : Bool :=
  dependency.scope = "import" ∧ dependency.dependencyType = "pom"

/-- The entries a project declares itself, read with its properties. -/
def directEntries (properties : PropertyMap) (declared : List Dependency) : List Dependency :=
  (declared.map (interpolateManagedDependency · properties)).filter fun d => !isImport d

def Plan.management (plan : Plan) (imported : List (Nat × EffectivePom)) : DependencyCollection :=
  (currentManagement imported plan.direct).items.foldl Indexed.replace
    (DependencyCollection.new (inheritedFrom plan.parent EffectivePom.dependencyManagement))

def entryFor (key : String) (entries : List Dependency) : Option Dependency :=
  entries.find? fun d => d.managementKey = key

section Entries

variable {platform : Platform} {raw : RawPom} {parent : Option EffectivePom} {plan : Plan}
  {imported declared : List (Nat × EffectivePom)} {m : EffectivePom} {key : String}

theorem direct_of_splitManagement {properties : PropertyMap} {entries : List Dependency} {start : Nat}
    {imports : List (Nat × Coordinate)} {direct : List Dependency}
    (h : splitManagement properties start entries = .ok (imports, direct)) :
    direct = directEntries properties entries := by
  induction entries generalizing start imports direct with
  | nil =>
    cases h
    rfl
  | cons entry rest ih =>
    rw [splitManagement] at h
    simp only [] at h
    rw [directEntries, List.map_cons]
    split at h
    · next himport =>
      obtain ⟨coordinate, -, h⟩ := bind_eq_ok.mp h
      obtain ⟨⟨imports', direct'⟩, hrest, heq⟩ := bind_eq_ok.mp h
      cases heq
      rw [List.filter_cons_of_neg (by simpa [isImport] using himport)]
      exact ih hrest
    · next himport =>
      obtain ⟨⟨imports', direct'⟩, hrest, heq⟩ := bind_eq_ok.mp h
      cases heq
      rw [List.filter_cons_of_pos (by simpa [isImport, imp_iff_not_or] using himport)]
      exact congrArg _ (ih hrest)

theorem direct_planOf (h : planOf platform raw parent = .ok plan) :
    plan.direct = directEntries plan.project.properties raw.dependencyManagement :=
  direct_of_splitManagement (planOf_eq_ok.mp h).2.2.2

theorem management_finish (h : plan.finish imported = .ok m) :
    m.dependencyManagement = (plan.management imported).items := by
  simp only [Plan.finish, bind_eq_ok] at h
  obtain ⟨dependencies, -, repositories, -, hassemble⟩ := h
  exact (fields_of_assemble hassemble).2.1

theorem items_management : (plan.management imported).items =
    overrideAll Dependency.managementKey
      (inheritedFrom plan.parent EffectivePom.dependencyManagement)
      (currentManagement imported plan.direct).items := by
  rw [Plan.management, Indexed.items_foldl_replace, DependencyCollection.items_new]

-- Imports

theorem pairwise_loaded {remote : Coordinate → Except ResolverError EffectivePom}
    (hplan : planOf platform raw parent = .ok plan)
    (hload : loadImports remote plan.imports = .ok declared) :
    declared.Pairwise fun a b => a.1 < b.1 := by
  have hindices : declared.map Prod.fst = plan.imports.map Prod.fst := by
    have hentries := loadImports_eq_ok.mp hload
    generalize plan.imports = imports at hentries ⊢
    clear hplan hload
    induction hentries with
    | nil => rfl
    | cons hentry _ ih => simp [hentry.2, ih]
  have hsublist := indices_splitManagement (planOf_eq_ok.mp hplan).2.2.2
  rw [← hindices] at hsublist
  exact List.pairwise_map.mp (List.Pairwise.sublist hsublist List.pairwise_lt_range')

/-- **The imports are taken in the order of their declaration,** in whichever order
they completed. -/
theorem insertionSort_loaded {remote : Coordinate → Except ResolverError EffectivePom}
    (hplan : planOf platform raw parent = .ok plan)
    (hload : loadImports remote plan.imports = .ok declared) (hperm : imported.Perm declared) :
    imported.insertionSort (fun a b => a.1 ≤ b.1) = declared := by
  have hpairwise := pairwise_loaded hplan hload
  have hnodup : (declared.map Prod.fst).Nodup :=
    List.pairwise_map.mpr (hpairwise.imp fun hlt => Nat.ne_of_lt hlt)
  rw [← insertionSort_perm hperm.symm hnodup]
  exact List.Pairwise.insertionSort_eq (hpairwise.imp Nat.le_of_lt)

/-- The entry of the first import that has one. -/
def importedEntry (key : String) (declared : List (Nat × EffectivePom)) : Option Dependency :=
  declared.findSome? fun entry => entryFor key entry.2.dependencyManagement

theorem entryFor_currentManagement
    (hsorted : imported.insertionSort (fun a b => a.1 ≤ b.1) = declared) (direct : List Dependency) :
    entryFor key (currentManagement imported direct).items =
      (lastWith Dependency.managementKey key direct).or (importedEntry key declared) := by
  rw [entryFor, currentManagement, Indexed.items_foldl_replace, Overriding.find_overrideAll,
    Indexed.items_foldl_insertIfAbsent, hsorted]
  congr 1
  rw [Overriding.find_absorbAll fun k => decide (k = key), importedEntry]
  show List.find? _ (declared.flatMap _) = _
  rw [List.find?_flatMap]
  rfl

theorem nodup_currentManagement (imported : List (Nat × EffectivePom)) (direct : List Dependency) :
    ((currentManagement imported direct).items.map Dependency.managementKey).Nodup := by
  rw [currentManagement, Indexed.items_foldl_replace, Indexed.items_foldl_insertIfAbsent]
  exact Overriding.nodup_map_overrideAll (Overriding.nodup_map_absorbAll List.nodup_nil)

/-- **An entry comes from the project, or else from its imports, or else from its parent.** -/
theorem entryFor_management (hplan : planOf platform raw parent = .ok plan)
    (hsorted : imported.insertionSort (fun a b => a.1 ≤ b.1) = declared) :
    entryFor key (plan.management imported).items =
      ((lastWith Dependency.managementKey key
          (directEntries plan.project.properties raw.dependencyManagement)).or
        (importedEntry key declared)).or
        (entryFor key (inheritedFrom parent EffectivePom.dependencyManagement)) := by
  rw [items_management, entryFor, Overriding.find_overrideAll,
    Overriding.lastWith_eq_find (nodup_currentManagement imported plan.direct),
    (planOf_eq_ok.mp hplan).2.1, ← direct_planOf hplan]
  exact congrArg (Option.or · _) (entryFor_currentManagement hsorted plan.direct)

end Entries

-- Built models

/-- The models that a builder comes to, whatever it is asked and has remembered: built from
a POM, with models as the answers for the parent and the imports. -/
inductive Built (platform : Platform) : EffectivePom → Prop where
  | intro {raw : RawPom} {m : EffectivePom} (remote : Coordinate → Except ResolverError EffectivePom)
      (hremote : ∀ c p, remote c = .ok p → Built platform p)
      (hbuild : buildRaw platform remote raw = .ok m) : Built platform m

section Built

variable {platform : Platform} {raw : RawPom} {parent : Option EffectivePom} {plan : Plan}
  {imported declared : List (Nat × EffectivePom)} {m : EffectivePom}
  {remote : Coordinate → Except ResolverError EffectivePom}

/-- A model with distinct keys in its management. -/
def EffectivePom.Distinct (m : EffectivePom) : Prop :=
  (m.dependencyManagement.map Dependency.managementKey).Nodup

theorem nodup_management (hparent : ∀ p, plan.parent = some p → p.Distinct) :
    ((plan.management imported).items.map Dependency.managementKey).Nodup := by
  rw [items_management]
  refine Overriding.nodup_map_overrideAll ?_
  cases hplan : plan.parent with
  | none => exact List.nodup_nil
  | some p => exact hparent p hplan

theorem distinct_finish (hremote : ∀ c p, remote c = .ok p → p.Distinct)
    (hparent : loadParent remote raw = .ok parent) (hplan : planOf platform raw parent = .ok plan)
    (hfinish : plan.finish imported = .ok m) : m.Distinct := by
  rw [EffectivePom.Distinct, management_finish hfinish]
  refine nodup_management fun p hp => ?_
  rw [(planOf_eq_ok.mp hplan).2.1] at hp
  obtain ⟨-, hnone⟩ | ⟨c, q, -, hq, hsome⟩ := loadParent_eq_ok.mp hparent
  · rw [hnone] at hp
    cases hp
  · obtain rfl : q = p := by simpa [hsome] using hp
    exact hremote c q hq

/-- **No built model manages a key twice.** -/
theorem Built.distinct (h : Built platform m) : m.Distinct := by
  induction h with
  | @intro raw m remote _ hbuild ih =>
    obtain ⟨parent, hparent, hbuild⟩ := bind_eq_ok.mp hbuild
    obtain ⟨plan, imported, hplan, -, hfinish⟩ := buildOn_eq_ok.mp hbuild
    exact distinct_finish ih hparent hplan hfinish

/-- **What manages a key.** The answers for the parent and the imports being built models, a
plan that finishes with its imports in any order gives every key to the last direct entry of
the project, or else to the first import in the order of declaration, or else to the parent;
no key is in the result twice, and the index of the collection has every key at the place of
its entry. -/
theorem management_precedence (hremote : ∀ c p, remote c = .ok p → Built platform p)
    (hparent : loadParent remote raw = .ok parent) (hplan : planOf platform raw parent = .ok plan)
    (hload : loadImports remote plan.imports = .ok declared) (hperm : imported.Perm declared)
    (hfinish : plan.finish imported = .ok m) :
    (∀ key, entryFor key m.dependencyManagement =
      ((lastWith Dependency.managementKey key
          (directEntries plan.project.properties raw.dependencyManagement)).or
        (importedEntry key declared)).or
        (entryFor key (inheritedFrom parent EffectivePom.dependencyManagement))) ∧
    m.Distinct ∧ (plan.management imported).items = m.dependencyManagement ∧
    (∀ key, (plan.management imported).get? key = entryFor key m.dependencyManagement) ∧
    ∀ key i, (plan.management imported).indices key = some i ↔
      ∃ d, m.dependencyManagement[i]? = some d ∧ d.managementKey = key := by
  have hitems := management_finish hfinish
  have hdistinct := distinct_finish (fun c p hp => (hremote c p hp).distinct) hparent hplan hfinish
  refine ⟨fun key => ?_, hdistinct, hitems.symm, fun key => ?_, fun key i => ?_⟩
  · rw [hitems, entryFor_management hplan (insertionSort_loaded hplan hload hperm)]
  · rw [Indexed.get?_eq_find, hitems]
    rfl
  · rw [EffectivePom.Distinct, hitems] at hdistinct
    rw [Indexed.indices_eq_some_iff hdistinct, hitems]

theorem built_bomAt (c : Coordinate) (p : EffectivePom) (h : bomAt c = .ok p) : Built linux p := by
  unfold bomAt at h
  split at h
  · exact .intro _ (fun d q hq => by cases hq) h
  · cases h

theorem built_releaseRepository (version : String) (c : Coordinate) (p : EffectivePom)
    (h : releaseRepository version c = .ok p) : Built linux p := by
  unfold releaseRepository at h
  split at h
  · exact .intro bomAt built_bomAt h
  · exact built_bomAt c p h

def managingChild : RawPom :=
  { releaseChild with
    dependencyManagement := [libraryAt "tool" "2", libraryAt "tool" "3",
      ⟨"org", "bom", some "2", "import", true, "pom", true, none, none, []⟩] }

theorem management_precedence_child :
    ∃ (plan : Plan) (declared : List (Nat × EffectivePom)) (m : EffectivePom),
    buildRaw linux (releaseRepository "1") managingChild = .ok m ∧
    (∀ key, entryFor key m.dependencyManagement =
      ((lastWith Dependency.managementKey key
          (directEntries plan.project.properties managingChild.dependencyManagement)).or
        (importedEntry key declared)).or
        (entryFor key (inheritedFrom plan.parent EffectivePom.dependencyManagement))) ∧ m.Distinct := by
  obtain ⟨m, hm⟩ : ∃ m, buildRaw linux (releaseRepository "1") managingChild = .ok m :=
    Fallible.exists_eq_ok (by decide +kernel)
  obtain ⟨parent, hparent, hbuild⟩ := bind_eq_ok.mp hm
  obtain ⟨plan, declared, hplan, hload, hfinish⟩ := buildOn_eq_ok.mp hbuild
  obtain ⟨hprecedence, hdistinct, -⟩ := management_precedence (built_releaseRepository "1") hparent
    hplan hload (List.Perm.refl _) hfinish
  rw [← (planOf_eq_ok.mp hplan).2.1] at hprecedence
  exact ⟨plan, declared, m, hm, hprecedence, hdistinct⟩

end Built

end JMan.Resolver
