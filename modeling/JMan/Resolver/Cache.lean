import Mathlib.Data.List.Perm.Basic
import JMan.Resolver.Builder
import JMan.Resolver.Models

/-!
# JMan — the cache does not show

Whatever was built before and however the imports interleave, a build answers
with the model the repository means, or with an error that says why there is
none (`Builds.sound`). The cache is keyed by the text of a coordinate, so this
is a statement about repositories where equal texts mean equal POMs; fields
without colons are enough (`faithful_of_colonFree`).

The invariant of a run is `Computes`: every call in the tree works for the
coordinate it was started with, under a stack of coordinates that need it.
-/

namespace JMan.Resolver

open Relation (ReflTransGen TransGen)

-- The invariant

/-- A set of coordinates that is closed under needs and whose texts tell POMs
apart. -/
structure Faithful (platform : Platform) (pom : Coordinate → Except ResolverError RawPom)
    (S : Coordinate → Prop) : Prop where
  closed : ∀ a b, S a → Needs platform pom a b → S b
  texts : ∀ a b, S a → S b → a.toString = b.toString → pom a = pom b

/-- Every entry of the cache is the model of a coordinate with its text. -/
def CacheSound (platform : Platform) (pom : Coordinate → Except ResolverError RawPom)
    (S : Coordinate → Prop) (cache : ModelCache) : Prop :=
  ∀ text m, cache text = some m → ∃ c, S c ∧ c.toString = text ∧ Models platform pom c m

/-- The active coordinates, outermost first, and the one that is now built:
all of them need it. -/
structure Active (platform : Platform) (pom : Coordinate → Except ResolverError RawPom)
    (S : Coordinate → Prop) (path : List Coordinate) (c : Coordinate) : Prop where
  mem : S c
  needs : ∀ a ∈ path, S a ∧ TransGen (Needs platform pom) a c

/-- A call that works for `c` under the active coordinates `path`. -/
inductive Computes (platform : Platform) (pom : Coordinate → Except ResolverError RawPom) :
    List Coordinate → Coordinate → Task → Prop where
  | remote {path : List Coordinate} {c : Coordinate} :
      Computes platform pom path c (.remote c (path.map Coordinate.toString))
  | loading {path : List Coordinate} {c : Coordinate} :
      Computes platform pom path c (.loading c ((path ++ [c]).map Coordinate.toString))
  | parent {path : List Coordinate} {c q : Coordinate} {raw : RawPom} {child : Task}
      (hpom : pom c = .ok raw) (hparent : parentCoordinate raw = some q)
      (hchild : Computes platform pom (path ++ [c]) q child) :
      Computes platform pom path c
        (.parent c ((path ++ [c]).map Coordinate.toString) raw child)
  | imports {path : List Coordinate} {c : Coordinate} {raw : RawPom}
      {parent : Option EffectivePom} {plan : Plan} {waiting : List (Nat × Coordinate)}
      {running : List ((Nat × Coordinate) × Task)}
      {answered : List ((Nat × Coordinate) × EffectivePom)}
      (hpom : pom c = .ok raw) (hparent : loadParent (modelOf platform pom) raw = .ok parent)
      (hplan : planOf platform raw parent = .ok plan)
      (hperm : plan.imports.Perm (answered.map Prod.fst ++ (running.map Prod.fst ++ waiting)))
      (hrunning : ∀ entry task, (entry, task) ∈ running →
        Computes platform pom (path ++ [c]) entry.2 task)
      (hanswered : ∀ entry m, (entry, m) ∈ answered → Models platform pom entry.2 m) :
      Computes platform pom path c
        (.imports c ((path ++ [c]).map Coordinate.toString) plan waiting running answered)
  | built {path : List Coordinate} {c : Coordinate} {m : EffectivePom}
      (h : Models platform pom c m) : Computes platform pom path c (.done (.ok m))
  | failed {path : List Coordinate} {c : Coordinate} {e : ResolverError}
      (h : Fault platform pom c e) : Computes platform pom path c (.done (.error e))

section Invariant

variable {platform : Platform} {pom : Coordinate → Except ResolverError RawPom}
  {S : Coordinate → Prop} {cache cache' : ModelCache} {path : List Coordinate}
  {c d : Coordinate} {task task' : Task} {raw : RawPom} {parent : Option EffectivePom}
  {plan : Plan} {m : EffectivePom}

theorem Active.root (h : S c) : Active platform pom S [] c where
  mem := h
  needs a ha := by cases ha

theorem Active.push (hfaithful : Faithful platform pom S) (h : Active platform pom S path c)
    (hneeds : Needs platform pom c d) : Active platform pom S (path ++ [c]) d := by
  refine ⟨hfaithful.closed c d h.mem hneeds, fun a ha => ?_⟩
  rcases List.mem_append.mp ha with ha | ha
  · obtain ⟨hmem, hac⟩ := h.needs a ha
    exact ⟨hmem, hac.tail hneeds⟩
  · obtain rfl := List.mem_singleton.mp ha
    exact ⟨h.mem, .single hneeds⟩

theorem Active.cycle (hfaithful : Faithful platform pom S) (h : Active platform pom S path c)
    (hstack : c.toString ∈ path.map Coordinate.toString) : TransGen (Needs platform pom) c c := by
  obtain ⟨a, ha, htext⟩ := List.mem_map.mp hstack
  obtain ⟨hmem, hac⟩ := h.needs a ha
  -- what the earlier coordinate needs first, the later one needs too
  obtain ⟨b, hab, hbc⟩ := TransGen.head'_iff.mp hac
  exact .head' (hab.of_pom_eq (hfaithful.texts a c hmem h.mem htext)) hbc

theorem Computes.startImports (hpom : pom c = .ok raw)
    (hparent : loadParent (modelOf platform pom) raw = .ok parent) :
    Computes platform pom path c (startImports c ((path ++ [c]).map Coordinate.toString)
      (planOf platform raw parent)) := by
  cases hplan : planOf platform raw parent with
  | error e => exact .failed (.own (.unplanned hpom hparent hplan))
  | ok plan =>
    exact .imports hpom hparent hplan (by simp) (by simp) (by simp)

theorem exists_loadImports {answered : List ((Nat × Coordinate) × EffectivePom)}
    (hperm : plan.imports.Perm (answered.map Prod.fst))
    (hanswered : ∀ entry m, (entry, m) ∈ answered → Models platform pom entry.2 m) :
    ∃ imported, loadImports (modelOf platform pom) plan.imports = .ok imported ∧
      imported.Perm (importedModels answered) := by
  have hforall : List.Forall₂ (fun (entry : Nat × Coordinate) (answer : Nat × EffectivePom) =>
      modelOf platform pom entry.2 = .ok answer.2 ∧ answer.1 = entry.1)
      (answered.map Prod.fst) (importedModels answered) := by
    rw [importedModels, List.forall₂_map_left_iff, List.forall₂_map_right_iff, List.forall₂_same]
    exact fun answer h => ⟨modelOf_eq_ok.mpr (hanswered answer.1 answer.2 h), rfl⟩
  obtain ⟨imported, himported, hto⟩ := List.perm_comp_forall₂ hperm hforall
  exact ⟨imported, loadImports_eq_ok.mpr himported, hto⟩

theorem exists_finish {answered : List ((Nat × Coordinate) × EffectivePom)}
    (hplan : planOf platform raw parent = .ok plan)
    (hperm : plan.imports.Perm (answered.map Prod.fst))
    (hanswered : ∀ entry m, (entry, m) ∈ answered → Models platform pom entry.2 m) :
    ∃ imported, loadImports (modelOf platform pom) plan.imports = .ok imported ∧
      plan.finish imported = plan.finish (importedModels answered) := by
  obtain ⟨imported, himported, hto⟩ := exists_loadImports hperm hanswered
  refine ⟨imported, himported, (Plan.finish_perm hto.symm ?_).symm⟩
  have hindices : (importedModels answered).map Prod.fst =
      (answered.map Prod.fst).map Prod.fst := by
    simp [importedModels, Function.comp_def]
  rw [hindices]
  exact (hperm.map Prod.fst).nodup_iff.mp (nodup_imports hplan)

theorem needs_of_running {waiting : List (Nat × Coordinate)}
    {running : List ((Nat × Coordinate) × Task)}
    {answered : List ((Nat × Coordinate) × EffectivePom)} {entry : Nat × Coordinate}
    (hpom : pom c = .ok raw) (hparent : loadParent (modelOf platform pom) raw = .ok parent)
    (hplan : planOf platform raw parent = .ok plan)
    (hperm : plan.imports.Perm (answered.map Prod.fst ++ (running.map Prod.fst ++ waiting)))
    (hmem : entry ∈ running.map Prod.fst) : Needs platform pom c entry.2 := by
  refine .bom entry.1 hpom hparent hplan (hperm.mem_iff.mpr ?_)
  exact List.mem_append_right _ (List.mem_append_left _ hmem)

/-- **One step** keeps every call at its coordinate and the cache sound. -/
theorem Computes.step (hfaithful : Faithful platform pom S)
    (hstep : Step platform pom cache task cache' task') (hactive : Active platform pom S path c)
    (h : Computes platform pom path c task) (hcache : CacheSound platform pom S cache) :
    Computes platform pom path c task' ∧ CacheSound platform pom S cache' := by
  induction hstep generalizing path c with
  | @hit b _ _ hm =>
    cases h
    obtain ⟨d, hd, htext, hmodel⟩ := hcache _ _ hm
    exact ⟨.built (hmodel.of_pom_eq (hfaithful.texts d b hd hactive.mem htext)), hcache⟩
  | cycle _ hstack =>
    cases h
    exact ⟨.failed (.cycle _ (hactive.cycle hfaithful hstack)), hcache⟩
  | @start b =>
    cases h
    have hpushed : path.map Coordinate.toString ++ [b.toString] =
        (path ++ [b]).map Coordinate.toString := by simp
    rw [hpushed]
    exact ⟨.loading, hcache⟩
  | unloaded hpom =>
    cases h
    exact ⟨.failed (.own (.unloaded hpom)), hcache⟩
  | toParent hpom hparent =>
    cases h
    exact ⟨.parent hpom hparent .remote, hcache⟩
  | toImports hpom hparent =>
    cases h
    refine ⟨.startImports hpom ?_, hcache⟩
    exact loadParent_eq_ok.mpr (.inl ⟨hparent, rfl⟩)
  | inParent _ ih =>
    cases h with
    | parent hpom hparent hchild =>
      obtain ⟨hchild', hcache'⟩ := ih (hactive.push hfaithful (.parent hpom hparent)) hchild
      exact ⟨.parent hpom hparent hchild', hcache'⟩
  | parentFailed =>
    cases h with
    | parent hpom hparent hchild =>
      cases hchild with
      | failed hfault => exact ⟨.failed (.needed (.parent hpom hparent) hfault), hcache⟩
  | parentBuilt =>
    cases h with
    | parent hpom hparent hchild =>
      cases hchild with
      | built hmodel =>
        refine ⟨.startImports hpom ?_, hcache⟩
        exact loadParent_eq_ok.mpr (.inr ⟨_, _, hparent, modelOf_eq_ok.mpr hmodel, rfl⟩)
  | launch =>
    cases h with
    | imports hpom hparent hplan hperm hrunning hanswered =>
      refine ⟨.imports hpom hparent hplan ?_ ?_ hanswered, hcache⟩
      · -- the entry moves from the waiting imports to the running ones
        simpa using hperm
      · intro entry task hmem
        rcases List.mem_append.mp hmem with hmem | hmem
        · exact hrunning entry task hmem
        · obtain ⟨rfl, rfl⟩ := Prod.mk.inj (List.mem_singleton.mp hmem)
          exact .remote
  | @inImport _ b _ _ entry task task' _ before after _ _ ih =>
    cases h with
    | imports hpom hparent hplan hperm hrunning hanswered =>
      have hneeds : Needs platform pom b entry.2 :=
        needs_of_running hpom hparent hplan hperm (by simp)
      obtain ⟨htask, hcache'⟩ :=
        ih (hactive.push hfaithful hneeds) (hrunning entry task (by simp))
      refine ⟨.imports hpom hparent hplan (by simpa using hperm) ?_ hanswered, hcache'⟩
      intro other otherTask hmem
      simp only [List.mem_append, List.mem_cons, Prod.mk.injEq] at hmem
      rcases hmem with hmem | ⟨rfl, rfl⟩ | hmem
      · exact hrunning _ _ (by simp [hmem])
      · exact htask
      · exact hrunning _ _ (by simp [hmem])
  | @collect _ _ _ entry m _ before after answered =>
    cases h with
    | imports hpom hparent hplan hperm hrunning hanswered =>
      have hmodel : Models platform pom entry.2 m := by
        cases hrunning entry _ (List.mem_append_right _ (List.mem_cons_self ..)) with
        | built hmodel => exact hmodel
      refine ⟨.imports hpom hparent hplan ?_ ?_ ?_, hcache⟩
      · -- the entry moves from the running imports to the answered ones
        refine hperm.trans ?_
        simp only [List.map_append, List.map_cons, List.append_assoc, List.cons_append,
          List.map_nil, List.nil_append]
        exact List.Perm.append_left _ List.perm_middle
      · intro other otherTask hmem
        refine hrunning other otherTask ?_
        rcases List.mem_append.mp hmem with hmem | hmem
        · exact List.mem_append_left _ hmem
        · exact List.mem_append_right _ (List.mem_cons_of_mem _ hmem)
      · intro other n hmem
        rcases List.mem_append.mp hmem with hmem | hmem
        · exact hanswered other n hmem
        · obtain ⟨rfl, rfl⟩ := Prod.mk.inj (List.mem_singleton.mp hmem)
          exact hmodel
  | @importFailed b _ _ entry e _ before after answered =>
    cases h with
    | imports hpom hparent hplan hperm hrunning hanswered =>
      have hneeds : Needs platform pom b entry.2 :=
        needs_of_running hpom hparent hplan hperm (by simp)
      cases hrunning entry _ (List.mem_append_right _ (List.mem_cons_self ..)) with
      | failed hfault => exact ⟨.failed (.needed hneeds hfault), hcache⟩
  | @finished b _ _ _ m hfinish =>
    cases h with
    | imports hpom hparent hplan hperm hrunning hanswered =>
      obtain ⟨imported, himported, hsame⟩ := exists_finish hplan (by simpa using hperm) hanswered
      have hmodel : Models platform pom b m := models_iff.mpr ⟨_, hpom, Fallible.bind_eq_ok.mpr
        ⟨_, hparent, buildOn_eq_ok.mpr ⟨_, imported, hplan, himported, hsame.trans hfinish⟩⟩⟩
      refine ⟨.built hmodel, fun text n hn => ?_⟩
      by_cases htext : text = b.toString
      · subst htext
        rw [ModelCache.insert_self] at hn
        cases hn
        exact ⟨b, hactive.mem, rfl, hmodel⟩
      · rw [ModelCache.insert_of_ne _ _ htext] at hn
        exact hcache text n hn
  | unfinished hfinish =>
    cases h with
    | imports hpom hparent hplan hperm hrunning hanswered =>
      obtain ⟨imported, himported, hsame⟩ := exists_finish hplan (by simpa using hperm) hanswered
      exact ⟨.failed (.own (.unfinished hpom hparent hplan himported (hsame.trans hfinish))),
        hcache⟩

end Invariant

-- Runs and histories

/-- The coordinates that building the roots can ask for. -/
def Requested (platform : Platform) (pom : Coordinate → Except ResolverError RawPom)
    (roots : List Coordinate) (c : Coordinate) : Prop :=
  ∃ root ∈ roots, ReflTransGen (Needs platform pom) root c

/-- Requested coordinates with the same text have the same POM. -/
def TextsFaithful (platform : Platform) (pom : Coordinate → Except ResolverError RawPom)
    (roots : List Coordinate) : Prop :=
  ∀ a b, Requested platform pom roots a → Requested platform pom roots b →
    a.toString = b.toString → pom a = pom b

section Runs

variable {platform : Platform} {pom : Coordinate → Except ResolverError RawPom}
  {S : Coordinate → Prop} {cache cache' cache'' : ModelCache} {c : Coordinate}
  {built roots : List Coordinate} {result fresh : Except ResolverError EffectivePom}
  {m : EffectivePom}

theorem requested_of_mem (h : c ∈ roots) : Requested platform pom roots c := ⟨c, h, .refl⟩

theorem TextsFaithful.faithful (h : TextsFaithful platform pom roots) :
    Faithful platform pom (Requested platform pom roots) where
  closed a b ha hneeds := by
    obtain ⟨root, hroot, hpath⟩ := ha
    exact ⟨root, hroot, hpath.tail hneeds⟩
  texts := h

/-- **A whole run** keeps every call at its coordinate and the cache sound. -/
theorem Computes.run (hfaithful : Faithful platform pom S) (hc : S c)
    {s t : ModelCache × Task} (hrun : ReflTransGen (Steps platform pom) s t)
    (h : Computes platform pom [] c s.2) (hcache : CacheSound platform pom S s.1) :
    Computes platform pom [] c t.2 ∧ CacheSound platform pom S t.1 := by
  induction hrun with
  | refl => exact ⟨h, hcache⟩
  | tail _ hstep ih => exact ih.1.step hfaithful hstep (.root hc) ih.2

theorem Builds.computes (hfaithful : Faithful platform pom S) (hc : S c)
    (hcache : CacheSound platform pom S cache) (h : Builds platform pom cache c cache' result) :
    Computes platform pom [] c (.done result) ∧ CacheSound platform pom S cache' :=
  Computes.run hfaithful hc h .remote hcache

theorem History.sound (hfaithful : Faithful platform pom S) (hbuilt : ∀ b ∈ built, S b)
    (h : History platform pom built cache) : CacheSound platform pom S cache := by
  induction h with
  | new =>
    intro text m hm
    cases hm
  | build _ hbuilds ih =>
    rw [List.forall_mem_cons] at hbuilt
    exact (hbuilds.computes hfaithful hbuilt.1 (ih hbuilt.2)).2

theorem History.computes (htexts : TextsFaithful platform pom (c :: built))
    (hhistory : History platform pom built cache)
    (h : Builds platform pom cache c cache' result) :
    Computes platform pom [] c (.done result) := by
  have hbuilt : ∀ b ∈ built, Requested platform pom (c :: built) b :=
    fun b hb => requested_of_mem (List.mem_cons_of_mem _ hb)
  have hsound := hhistory.sound htexts.faithful hbuilt
  exact (h.computes htexts.faithful (requested_of_mem (List.mem_cons_self ..)) hsound).1

theorem Computes.eq_ok_iff {path : List Coordinate}
    (h : Computes platform pom path c (.done result)) :
    result = .ok m ↔ Models platform pom c m := by
  cases h with
  | built hmodel =>
    constructor
    · intro hm
      obtain rfl := Except.ok.inj hm
      exact hmodel
    · exact fun hm => congrArg _ (hmodel.unique hm)
  | failed hfault =>
    constructor
    · intro hm
      cases hm
    · exact fun hm => absurd hm hfault.not_models

/-- **The cache does not show.** After any history of builds and under any
interleaving, a build has the result that it has with a new builder: the same
model, or an error when that is an error. -/
theorem build_ignores_history (htexts : TextsFaithful platform pom (c :: built))
    (hhistory : History platform pom built cache)
    (hbuilds : Builds platform pom cache c cache' result)
    (hfresh : Builds platform pom .empty c cache'' fresh) :
    result.toOption = fresh.toOption := by
  have halone : TextsFaithful platform pom [c] := by
    rintro a b ⟨root, hroot, ha⟩ ⟨root', hroot', hb⟩
    obtain rfl := List.mem_singleton.mp hroot
    obtain rfl := List.mem_singleton.mp hroot'
    exact htexts a b ⟨_, List.mem_cons_self .., ha⟩ ⟨_, List.mem_cons_self .., hb⟩
  rw [Fallible.toOption_eq_iff]
  intro m
  rw [(hhistory.computes htexts hbuilds).eq_ok_iff, (History.new.computes halone hfresh).eq_ok_iff]

end Runs

-- Colon-free coordinates

def Coordinate.ColonFree (c : Coordinate) : Prop :=
  ':' ∉ c.group.toList ∧ ':' ∉ c.artifact.toList ∧ ':' ∉ c.version.toList ∧
    ':' ∉ c.extension.toList ∧ ∀ classifier, c.classifier = some classifier →
      ':' ∉ classifier.toList

def Coordinate.shown (c : Coordinate) : List String :=
  match c.classifier with
  | none => if c.extension = "jar" then [c.version] else [c.extension, c.version]
  | some classifier => [c.extension, classifier, c.version]

def joined : List String → String
  | [] => ""
  | [x] => x
  | x :: xs => x ++ ":" ++ joined xs

theorem joined_inj {xs ys : List String} (hxs : ∀ x ∈ xs, ':' ∉ x.toList)
    (hys : ∀ y ∈ ys, ':' ∉ y.toList) (hx : xs ≠ []) (hy : ys ≠ [])
    (h : joined xs = joined ys) : xs = ys := by
  induction xs generalizing ys with
  | nil => exact absurd rfl hx
  | cons x xs ih =>
    cases ys with
    | nil => exact absurd rfl hy
    | cons y ys =>
      rw [List.forall_mem_cons] at hxs hys
      cases xs with
      | nil =>
        cases ys with
        | nil => simpa [joined] using h
        | cons z ys =>
          -- a single field would hold the colon that joins the others
          simp only [joined] at h
          exact absurd (by simp [h]) hxs.1
      | cons w xs =>
        cases ys with
        | nil =>
          simp only [joined] at h
          exact absurd (by simp [← h]) hys.1
        | cons z ys =>
          obtain ⟨rfl, hrest⟩ := append_colon_inj hxs.1 hys.1 (by simpa only [joined] using h)
          rw [ih hxs.2 hys.2 (by simp) (by simp) hrest]

theorem Coordinate.toString_eq (c : Coordinate) :
    c.toString = joined (c.group :: c.artifact :: c.shown) := by
  unfold toString shown
  cases c.classifier with
  | none => by_cases h : c.extension = "jar" <;> simp [h, joined, String.append_assoc]
  | some classifier => simp [joined, String.append_assoc]

theorem Coordinate.toString_inj {c d : Coordinate} (hc : c.ColonFree) (hd : d.ColonFree)
    (h : c.toString = d.toString) : c = d := by
  have hfields : ∀ e : Coordinate, e.ColonFree →
      ∀ x ∈ e.group :: e.artifact :: e.shown, ':' ∉ x.toList := by
    rintro e ⟨hg, ha, hv, he, hcl⟩
    unfold shown
    cases hclassifier : e.classifier with
    | none => by_cases hjar : e.extension = "jar" <;> simp [hjar, hg, ha, hv, he]
    | some classifier => simp [hg, ha, hv, he, hcl classifier hclassifier]
  rw [toString_eq, toString_eq] at h
  have hshown := joined_inj (hfields c hc) (hfields d hd) (by simp) (by simp) h
  simp only [List.cons.injEq] at hshown
  obtain ⟨hgroup, hartifact, hshown⟩ := hshown
  obtain ⟨group, artifact, version, extension, classifier⟩ := c
  obtain ⟨group', artifact', version', extension', classifier'⟩ := d
  obtain rfl : group = group' := hgroup
  obtain rfl : artifact = artifact' := hartifact
  cases classifier <;> cases classifier' <;> simp only [shown] at hshown
  · split at hshown <;> split at hshown <;> simp_all
  · split at hshown <;> simp at hshown
  · split at hshown <;> simp at hshown
  · simp_all

theorem textsFaithful_of_colonFree {platform : Platform}
    {pom : Coordinate → Except ResolverError RawPom} {roots : List Coordinate}
    (h : ∀ c, Requested platform pom roots c → c.ColonFree) :
    TextsFaithful platform pom roots := by
  intro a b ha hb htext
  rw [Coordinate.toString_inj (h a ha) (h b hb) htext]

-- A parent built before, and two coordinates with one text

def familyParent : Coordinate := Coordinate.pom "dev" "parent" "1"

def familyChild : Coordinate := Coordinate.pom "dev" "child" "1"

def familyPom (c : Coordinate) : Except ResolverError RawPom :=
  if c = familyParent then .ok (barePom "parent" [])
  else if c = familyChild then .ok releaseChild
  else .error (.offlineMiss c.toString)

theorem needs_family {c d : Coordinate} (h : Needs linux familyPom c d) :
    c = familyChild ∧ d = familyParent := by
  have hpom : ∃ raw, familyPom c = .ok raw := by
    cases h with
    | parent hpom => exact ⟨_, hpom⟩
    | bom _ hpom => exact ⟨_, hpom⟩
  obtain ⟨raw, hpom⟩ := hpom
  have hraw := hpom
  unfold familyPom at hpom
  split at hpom
  · -- the parent has no parent
    cases hpom
    cases h.parent_of_unmanaged hraw rfl
  · split at hpom
    · rename_i hc
      cases hpom
      exact ⟨hc, (Option.some.inj (h.parent_of_unmanaged hraw rfl)).symm⟩
    · cases hpom

theorem textsFaithful_family : TextsFaithful linux familyPom [familyChild, familyParent] := by
  refine textsFaithful_of_colonFree fun c hrequested => ?_
  obtain ⟨root, hroot, hpath⟩ := hrequested
  have hc : c = familyChild ∨ c = familyParent := by
    induction hpath with
    | refl => simpa using hroot
    | tail _ hneeds => exact .inr (needs_family hneeds).2
  rcases hc with rfl | rfl
  · exact ⟨by decide, by decide, by decide, by decide, fun _ h => by cases h⟩
  · exact ⟨by decide, by decide, by decide, by decide, fun _ h => by cases h⟩

theorem exists_family : ∃ p m remote, buildOn linux remote (barePom "parent" []) none = .ok p ∧
    buildOn linux remote releaseChild (some p) = .ok m := by
  let remote : Coordinate → Except ResolverError EffectivePom := fun _ =>
    buildRaw linux (fun c => .error (.offlineMiss c.toString)) (barePom "parent" [])
  obtain ⟨m, hm⟩ : ∃ m, buildRaw linux remote releaseChild = .ok m :=
    Fallible.exists_eq_ok (by decide +kernel)
  obtain ⟨parent, hload, hm⟩ := Fallible.bind_eq_ok.mp hm
  obtain ⟨hnone, -⟩ | ⟨q, p, -, hp, rfl⟩ := loadParent_eq_ok.mp hload
  · cases hnone
  · -- the parent asks nothing of anyone
    have hp' : buildRaw linux remote (barePom "parent" []) = .ok p :=
      buildRaw_mono (fun _ _ h => by cases h) hp
    exact ⟨p, m, remote, hp', hm⟩

/-- The child's model does not depend on whether the parent was built before. -/
theorem child_after_parent : ∃ cache cache' cache'' m n,
    History linux familyPom [familyParent] cache ∧
    Builds linux familyPom cache familyChild cache' (.ok m) ∧
    Builds linux familyPom .empty familyChild cache'' (.ok n) ∧
    (Except.ok m : Except ResolverError EffectivePom).toOption =
      (Except.ok n : Except ResolverError EffectivePom).toOption := by
  obtain ⟨p, m, remote, hp, hm⟩ := exists_family
  have hparent : Builds linux familyPom .empty familyParent
      (ModelCache.empty.insert familyParent.toString p) (.ok p) :=
    builds_alone rfl (by simp) rfl rfl rfl hp
  have hhistory := History.new.build hparent
  -- after the parent's build the child finds it in the cache
  have hhit : Steps linux familyPom
      (ModelCache.empty.insert familyParent.toString p, .remote familyParent [familyChild.toString])
      (ModelCache.empty.insert familyParent.toString p, .done (.ok p)) :=
    step_hit (ModelCache.insert_self ..)
  have hafter : Builds linux familyPom _ familyChild _ (.ok m) :=
    builds_child (ModelCache.insert_of_ne _ _ (by decide)) (by simp) rfl rfl rfl (.single hhit) hm
  -- a new builder builds the parent on the way
  have hfresh : Builds linux familyPom .empty familyChild _ (.ok m) :=
    builds_child rfl (by simp) rfl rfl rfl (builds_alone rfl (by decide) rfl rfl rfl hp) hm
  exact ⟨_, _, _, m, m, hhistory, hafter, hfresh,
    build_ignores_history textsFaithful_family hhistory hafter hfresh⟩

def splitGroup : Coordinate := Coordinate.pom "a" "b:c" "1"

def splitArtifact : Coordinate := Coordinate.pom "a:b" "c" "1"

/-- Two coordinates with one text: the one builds, the other is its own parent;
and a project that inherits from the one and imports the other. -/
def collidingPom (c : Coordinate) : Except ResolverError RawPom :=
  if c = splitArtifact then .ok (barePom "c" [])
  else if c = splitGroup then
    .ok { barePom "b:c" [] with parent := some ⟨"a", "b:c", "1", none⟩ }
  else if c = Coordinate.pom "dev" "both" "1" then
    .ok { barePom "both" [] with
      parent := some ⟨"a:b", "c", "1", none⟩
      dependencyManagement :=
        [⟨"a", "b:c", some "1", "import", true, "pom", true, none, none, []⟩] }
  else .error (.offlineMiss c.toString)

theorem finite_colliding : {c | ∃ raw, collidingPom c = .ok raw}.Finite := by
  refine (Set.finite_mem_finset {splitArtifact, splitGroup, Coordinate.pom "dev" "both" "1"}).subset
    fun c hbuilds => ?_
  obtain ⟨raw, hraw⟩ := hbuilds
  unfold collidingPom at hraw
  split at hraw
  · simp_all
  · split at hraw
    · simp_all
    · split at hraw
      · simp_all
      · cases hraw

/-- With two coordinates of one text, a build answers with the cached model of
the other where a new builder finds a cycle. -/
theorem equal_texts_share_an_entry :
    (∃ cache cache' m chain, History linux collidingPom [splitArtifact] cache ∧
      Builds linux collidingPom cache splitGroup cache (.ok m) ∧
      Builds linux collidingPom .empty splitGroup cache'
        (.error (.modelContext "a:b:c:pom:1" (.modelCycle chain)))) ∧
    ¬ ∀ platform pom built cache cache' cache'' c result fresh,
        {c | ∃ raw, pom c = .ok raw}.Finite → History platform pom built cache →
        Builds platform pom cache c cache' result → Builds platform pom .empty c cache'' fresh →
        result.toOption = fresh.toOption := by
  obtain ⟨m, hm⟩ : ∃ m, buildOn linux (fun c => .error (.offlineMiss c.toString))
      (barePom "c" []) none = .ok m := Fallible.exists_eq_ok (by decide +kernel)
  have hone : Builds linux collidingPom .empty splitArtifact
      (ModelCache.empty.insert splitArtifact.toString m) (.ok m) :=
    builds_alone rfl (by simp) rfl rfl rfl hm
  have hhistory := History.new.build hone
  have htext : splitGroup.toString = splitArtifact.toString := by decide
  have hhit : Builds linux collidingPom (ModelCache.empty.insert splitArtifact.toString m)
      splitGroup (ModelCache.empty.insert splitArtifact.toString m) (.ok m) :=
    .single (step_hit (by rw [htext, ModelCache.insert_self]))
  have hcycle : Builds linux collidingPom .empty splitGroup .empty
      (.error (.modelContext splitGroup.toString (.modelCycle
        (" -> ".intercalate (([] ++ [splitGroup.toString]) ++ [splitGroup.toString]))))) :=
    builds_own_parent rfl (by simp) rfl rfl
  have hname : splitGroup.toString = "a:b:c:pom:1" := by decide
  refine ⟨⟨_, _, m, _, hhistory, hhit, hname ▸ hcycle⟩, fun h => ?_⟩
  cases h _ _ _ _ _ _ _ _ _ finite_colliding hhistory hhit hcycle

end JMan.Resolver
