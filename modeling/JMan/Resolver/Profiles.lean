import Mathlib.Data.Bool.AllAny
import Mathlib.Data.String.Basic
import JMan.Resolver.Pom

/-!
# JMan — which profiles are active

The profiles that `parse_pom` applies beside those that Maven does. For Maven a profile is
active when every condition on properties and on the operating system that it states holds,
and at least one is stated. `parse_pom` takes one of the two for enough, and reads some
conditions differently.

* `applies_like_maven_iff` — the projects whose profiles are applied as by Maven.
-/

namespace JMan.Resolver.Pom

open Xml (Element)

-- Selection with a default

section Selection

variable {α : Type} {p q d : α → Bool} {l : List α}

theorem filter_eq_filter_iff : l.filter p = l.filter q ↔ ∀ a ∈ l, p a = q a := by
  constructor
  · intro h a ha
    have hp : a ∈ l.filter p ↔ p a = true := by simp [ha]
    have hq : a ∈ l.filter q ↔ q a = true := by simp [ha]
    rw [h] at hp
    exact Bool.eq_iff_iff.mpr (hp.symm.trans hq)
  · exact fun h => List.filter_congr h

theorem filter_eq_nil_iff_false : l.filter p = [] ↔ ∀ a ∈ l, p a = false := by
  simp [List.filter_eq_nil_iff]

/-- What meets the condition, or the default where nothing does. -/
def selected (p d : α → Bool) (l : List α) : List α :=
  if l.filter p = [] then l.filter d else l.filter p

/-- **Two conditions select the same if they agree, or if one of them is never met and the other
agrees with the default.** -/
theorem eq_selected_iff : selected p d l = selected q d l ↔
    (∀ a ∈ l, p a = q a) ∨
    ((∀ a ∈ l, p a = false) ∧ ∀ a ∈ l, q a = d a) ∨
    ((∀ a ∈ l, q a = false) ∧ ∀ a ∈ l, p a = d a) := by
  rw [selected, selected, ← filter_eq_nil_iff_false, ← filter_eq_nil_iff_false,
    ← filter_eq_filter_iff, ← filter_eq_filter_iff, ← filter_eq_filter_iff]
  by_cases hp : l.filter p = []
  · by_cases hq : l.filter q = []
    · rw [if_pos hp, if_pos hq]
      exact iff_of_true rfl (Or.inl (hp.trans hq.symm))
    · rw [if_pos hp, if_neg hq]
      constructor
      · exact fun h => Or.inr (Or.inl ⟨hp, h.symm⟩)
      · rintro (h | ⟨-, h⟩ | ⟨h, -⟩)
        · exact absurd (h.symm.trans hp) hq
        · exact h.symm
        · exact absurd h hq
  · by_cases hq : l.filter q = []
    · rw [if_neg hp, if_pos hq]
      constructor
      · exact fun h => Or.inr (Or.inr ⟨hq, h⟩)
      · rintro (h | ⟨h, -⟩ | ⟨-, h⟩)
        · exact absurd (h.trans hq) hp
        · exact absurd h hp
        · exact h
    · rw [if_neg hp, if_neg hq]
      constructor
      · exact Or.inl
      · rintro (h | ⟨h, -⟩ | ⟨h, -⟩)
        · exact h
        · exact absurd h hp
        · exact absurd h hq

end Selection

-- Maven

/-- What Maven finds the operating system to be. -/
structure MavenOs where
  isFamily : String → Bool
  isName : String → Bool
  isArch : String → Bool
  isVersion : String → Bool

/-- A condition with a `!` in front holds when the one without does not. -/
def mavenMatch (holds : String → Bool) (value : String) : Bool :=
  match stripNot value with
  | some value => !holds value
  | none => holds value

def osPart (os : Element) (name : String) : Option String := (child os name).map elementText

/-- At least one part is stated, and every one that is holds. -/
def mavenOsHolds (maven : MavenOs) (os : Element) : Bool :=
  ["family", "name", "arch", "version"].any (fun name => (osPart os name).isSome) &&
    (osPart os "family").all (mavenMatch maven.isFamily) &&
    (osPart os "name").all (mavenMatch maven.isName) &&
    (osPart os "arch").all (mavenMatch maven.isArch) &&
    (osPart os "version").all (mavenMatch maven.isVersion)

/-- With a value the property has to have it, or not; without one it has to be set, or not. The
`!` of the name counts in the latter case only. -/
def mavenPropertyHolds (host : Host) (property : Element) : Bool :=
  match childText property "name" with
  | none => false
  | some name =>
    let variableName := (stripNot name).getD name
    if variableName = "" then false
    else
      match childText property "value" with
      | some value => mavenMatch (fun value => lookUp host variableName = some value) value
      | none =>
        mavenMatch (fun name => ((lookUp host name).filter fun value => value ≠ "").isSome) name

/-- Every condition that is stated holds, and one is stated. -/
def isMavenActive (host : Host) (maven : MavenOs) (profile : Element) : Bool :=
  match child profile "activation" with
  | none => false
  | some activation =>
    ((child activation "property").isSome || (child activation "os").isSome) &&
      (child activation "property").all (mavenPropertyHolds host) &&
      (child activation "os").all (mavenOsHolds maven)

def mavenProfiles (host : Host) (maven : MavenOs) (project : Element) : List Element :=
  selected (isMavenActive host maven) isActiveByDefaultProfile (profilesOf project)

-- Conditions that are read alike

/-- A property that must not be set is read alike unless it has the empty value, or, with a value
in the condition, unless it is unset or has that value. A property that must be set is read
alike unless it has the empty value. -/
def PropertyAlike (host : Host) (property : Element) : Prop :=
  match childText property "name" with
  | none => True
  | some name =>
    match stripNot name, childText property "value" with
    | none, none => lookUp host name ≠ some ""
    | none, some _ => True
    | some name, none => if name = "" then lookUp host "" ≠ none else lookUp host name ≠ some ""
    | some name, some value =>
      if name = "" then lookUp host "" ≠ none
      else
        match stripNot value with
        | some excluded => lookUp host name = none ∨ lookUp host name = some excluded
        | none => lookUp host name ≠ none ∧ lookUp host name ≠ some value

/-- The conditions of a profile come to the same: the only one that is stated is read alike,
or one of the two holds for `parse_pom` exactly if both hold for Maven. -/
def ReadAlike (host : Host) (maven : MavenOs) (profile : Element) : Prop :=
  match child profile "activation" with
  | none => True
  | some activation =>
    match child activation "property", child activation "os" with
    | none, none => True
    | some property, none => PropertyAlike host property
    | none, some os => osActivation host activation = mavenOsHolds maven os
    | some property, some os =>
      propertyActivation host activation = true ∨ osActivation host activation = true ↔
        mavenPropertyHolds host property = true ∧ mavenOsHolds maven os = true

/-- Every profile is read alike; or none is active for one of the two, and the other finds
those active that are marked `activeByDefault`. -/
def SelectedAlike (host : Host) (maven : MavenOs) (profiles : List Element) : Prop :=
  (∀ profile ∈ profiles, ReadAlike host maven profile) ∨
  ((∀ profile ∈ profiles, isEnvironmentActiveProfile host profile = false) ∧
    ∀ profile ∈ profiles, isMavenActive host maven profile = isActiveByDefaultProfile profile) ∨
  ((∀ profile ∈ profiles, isMavenActive host maven profile = false) ∧
    ∀ profile ∈ profiles, isEnvironmentActiveProfile host profile = isActiveByDefaultProfile profile)

variable {host : Host} {maven : MavenOs} {project profile activation property os : Element}
  {raw : RawPom}

theorem childText_ne_empty (node : Element) (name : String) : childText node name ≠ some "" := by
  intro h
  rw [childText, Option.filter_eq_some_iff] at h
  simp at h

theorem propertyAlike_iff (h : child activation "property" = some property) :
    propertyActivation host activation = mavenPropertyHolds host property ↔
      PropertyAlike host property := by
  rw [propertyActivation, h, mavenPropertyHolds, PropertyAlike]
  simp only [mavenMatch]
  cases hname : childText property "name" with
  | none => simp
  | some name =>
    have hne : name ≠ "" := fun heq => childText_ne_empty property "name" (heq ▸ hname)
    dsimp only
    cases hnot : stripNot name with
    | none =>
      rw [Option.getD_none, if_neg hne]
      cases hvalue : childText property "value" with
      | none => cases lookUp host name <;> simp [Option.filter]
      | some value => cases hexcluded : stripNot value <;> simp [hexcluded]
    | some variableName =>
      rw [Option.getD_some]
      by_cases hempty : variableName = ""
      · subst hempty
        cases childText property "value" <;> simp
      · rw [if_neg hempty]
        cases hvalue : childText property "value" with
        | none => cases hset : lookUp host variableName <;> simp [hset, Option.filter, hempty]
        | some value =>
          cases hexcluded : stripNot value <;> cases hset : lookUp host variableName <;>
            simp [hexcluded, hset, hempty]

theorem osActivation_eq_false (h : child activation "os" = none) :
    osActivation host activation = false := by
  rw [osActivation, h]

theorem propertyActivation_eq_false (h : child activation "property" = none) :
    propertyActivation host activation = false := by
  rw [propertyActivation, h]

theorem readAlike_iff :
    isEnvironmentActiveProfile host profile = isMavenActive host maven profile ↔
      ReadAlike host maven profile := by
  rw [isEnvironmentActiveProfile, isMavenActive, ReadAlike]
  cases child profile "activation" with
  | none => simp
  | some activation =>
    dsimp only
    cases hproperty : child activation "property" with
    | none =>
      rw [propertyActivation_eq_false hproperty]
      cases hos : child activation "os" with
      | none =>
        rw [osActivation_eq_false hos]
        simp
      | some os => simp
    | some property =>
      cases hos : child activation "os" with
      | none =>
        rw [osActivation_eq_false hos]
        simpa using propertyAlike_iff hproperty
      | some os =>
        rw [Bool.eq_iff_iff]
        simp

theorem selectedAlike_iff : activeProfiles host (profilesOf project) = mavenProfiles host maven project ↔
    SelectedAlike host maven (profilesOf project) := by
  have hselected : activeProfiles host (profilesOf project) =
      selected (isEnvironmentActiveProfile host) isActiveByDefaultProfile (profilesOf project) := rfl
  rw [hselected, mavenProfiles, eq_selected_iff, SelectedAlike]
  simp only [readAlike_iff]

-- Projects

/-- The profiles that Maven applies are applied, and what they declare is added in their order:
the last definition of a property counts. -/
structure AppliesLikeMaven (host : Host) (maven : MavenOs) (project : Element) (raw : RawPom) :
    Prop where
  profiles : appliedProfiles host true project = mavenProfiles host maven project
  properties : ∀ name, raw.properties.get? name =
    (project :: mavenProfiles host maven project).reverse.findSome? fun node =>
      declaredProperty node name
  added : ∃ own parts, parseSections project = .ok own ∧
    List.Forall₂ (fun profile part => parseSections profile = .ok part)
      (mavenProfiles host maven project) parts ∧
    raw.dependencies = own.dependencies ++ parts.flatMap Sections.dependencies ∧
    raw.dependencyManagement =
      own.dependencyManagement ++ parts.flatMap Sections.dependencyManagement ∧
    raw.repositories = own.repositories ++ parts.flatMap Sections.repositories

theorem findSome?_of_forall₂ {nodes : List Element} {parts : List Sections} (name : String)
    (h : List.Forall₂ (fun node part => parseSections node = .ok part) nodes parts) :
    (parts.reverse.findSome? fun part => part.properties.get? name) =
      nodes.reverse.findSome? fun node => declaredProperty node name := by
  induction h with
  | nil => rfl
  | cons hpart _ ih =>
    rw [List.reverse_cons, List.reverse_cons, List.findSome?_append, List.findSome?_append, ih]
    simp [(parseSections_properties hpart).2]

/-- **The profiles are applied as by Maven exactly if their conditions are read alike, or the
default makes up for it.** -/
theorem applies_like_maven_iff (maven : MavenOs) (h : parsePom host (.ok project) = .ok raw) :
    AppliesLikeMaven host maven project raw ↔ SelectedAlike host maven (profilesOf project) := by
  rw [← selectedAlike_iff]
  refine ⟨fun happlies => happlies.profiles, fun hsame => ?_⟩
  have hparse : parseProject host true project = .ok raw := by
    obtain ⟨_, hproject, h⟩ := Fallible.bind_eq_ok.mp h
    cases hproject
    split at h
    case isTrue => cases h
    case isFalse => exact h
  obtain ⟨own, parts, hown, hparts, hsections⟩ := parseProject_eq_ok hparse
  have happlied : appliedProfiles host true project = mavenProfiles host maven project := hsame
  rw [happlied] at hparts
  obtain ⟨hdependencies, hmanagement, hrepositories⟩ := foldl_extend_dependencies parts own
  rw [← hsections] at hdependencies hmanagement hrepositories
  refine ⟨happlied, fun name => ?_, own, parts, hown, hparts, hdependencies, hmanagement,
    hrepositories⟩
  have hascending : ∀ part ∈ parts, Ascending part.properties := by
    intro part hpart
    obtain ⟨profile, -, hprofile⟩ := Fallible.exists_of_forall₂ hparts.flip hpart
    exact (parseSections_properties hprofile).1
  have hget := get?_foldl_extend parts own hascending name
  rw [← hsections, findSome?_of_forall₂ name (hparts.cons hown)] at hget
  exact hget

section Examples

private def leaf (name text : String) : Element := .mk name text []

private def node (name : String) (children : List Element) : Element := .mk name "" children

private def projectWith (conditions : List Element) : Element :=
  node "project" [leaf "artifactId" "app",
    node "profiles" [node "profile" [node "activation" conditions,
      node "properties" [leaf "mode" "ci"]]]]

private def linuxHost : Host where
  var name := if name = "CI" then some "true" else none
  windows := false
  unix := true
  macos := false
  os := "linux"
  arch := "x86_64"

private def linuxMaven : MavenOs where
  isFamily family := family = "unix"
  isName name := name.toLower = "linux"
  isArch arch := arch.toLower = "amd64"
  isVersion version := version = "6.8.0"

private def propertySet : Element := node "property" [leaf "name" "ci", leaf "value" "true"]

theorem applies_property_like_maven : ∃ raw,
    parsePom linuxHost (.ok (projectWith [propertySet])) = .ok raw ∧
      AppliesLikeMaven linuxHost linuxMaven (projectWith [propertySet]) raw := by
  refine ⟨_, rfl, (applies_like_maven_iff linuxMaven rfl).mpr (Or.inl fun profile hprofile => ?_)⟩
  rw [List.mem_singleton.mp hprofile]
  trivial

theorem applies_with_one_condition : ∃ raw,
    parsePom linuxHost
        (.ok (projectWith [propertySet, node "os" [leaf "family" "windows"]])) = .ok raw ∧
      ¬ AppliesLikeMaven linuxHost linuxMaven
        (projectWith [propertySet, node "os" [leaf "family" "windows"]]) raw := by
  refine ⟨_, rfl, fun h => ?_⟩
  have hlength := congrArg List.length h.profiles
  exact absurd hlength (by decide +kernel)

end Examples

end JMan.Resolver.Pom
