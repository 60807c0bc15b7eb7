import JMan.Resolver.Versions

/-!
# JMan — pre-releases among the updates

Whether a version is a pre-release is told from the start of its qualifier. A marker
that stands further behind, as in `31.1-jre-SNAPSHOT`, or behind digits of the same
part, as in `1.0rc1`, is not seen, and the version counts as an update.

* `keepsOutPrereleases_iff` — such a version is reported exactly where no proper
  release of its class passes it.
-/

namespace JMan.Resolver

open Ranking (FirstGreatest)

-- Markers

/-- The parts of a version between separators and digits, in lower case. -/
def qualifierParts (version : String) : List (List Char) :=
  (version.toList.map Char.toLower).splitOnP fun c => isSeparator c || c.isDigit

/-- The markers of `qualifierRank` that make a pre-release. -/
def isMarker (part : List Char) : Bool :=
  "snapshot".toList.isPrefixOf part ||
    ["alpha", "a", "beta", "b", "milestone", "m", "rc", "cr", "ea", "preview"].any fun marker =>
      marker.toList == part

def hasMarker (version : String) : Bool := (qualifierParts version).any isMarker

/-- What is reported without pre-releases has none. -/
def KeepsOutPrereleases (current : String) (available : List String) : Prop :=
  ∀ version ∈ (analyzeVersions current available false).versions, hasMarker version = false

-- Releases that pass a candidate

/-- A release passes a candidate: it is of the same class and newer, or as new and before
it, or the candidate is of no class and the release is newer. -/
def PassedBy (current : String) (before : List String) (candidate : String) (after : List String)
    (release : String) : Prop :=
  isUpdate current false release = true ∧ hasMarker release = false ∧
    (changeOf current release = changeOf current candidate ∧
        (release ∈ before ∧ compareVersions candidate release ≠ .gt ∨
          release ∈ after ∧ compareVersions release candidate = .gt) ∨
      changeOf current candidate = .other ∧ release ∈ before ++ candidate :: after ∧
        compareVersions release candidate = .gt)

/-- Every update with a marker is passed by a release. -/
def MarkersPassed (current : String) (available : List String) : Prop :=
  ∀ before candidate after, available = before ++ candidate :: after →
    isUpdate current false candidate = true → hasMarker candidate = true →
      ∃ release, PassedBy current before candidate after release

variable {current : String} {available : List String}

theorem mem_versions {version : String} :
    version ∈ (analyzeVersions current available false).versions ↔
      (∃ change, change ≠ .other ∧ (bucketsOf current available false).get change = some version) ∨
      (analyzeVersions current available false).latest = some version := by
  simp only [VersionUpdates.versions, List.mem_filterMap, List.mem_cons, id_eq]
  constructor
  · rintro ⟨chosen, hchosen, rfl⟩
    rcases hchosen with h | h | h | h | h
    · exact Or.inl ⟨.patch, by decide, h.symm⟩
    · exact Or.inl ⟨.minor, by decide, h.symm⟩
    · exact Or.inl ⟨.major, by decide, h.symm⟩
    · exact Or.inr h.symm
    · cases h
  · rintro (⟨change, hchange, hget⟩ | hlatest)
    · refine ⟨some version, ?_, rfl⟩
      cases change with
      | patch => exact Or.inl hget.symm
      | minor => exact Or.inr (Or.inl hget.symm)
      | major => exact Or.inr (Or.inr (Or.inl hget.symm))
      | other => exact absurd rfl hchange
    · exact ⟨some version, Or.inr (Or.inr (Or.inr (Or.inl hlatest.symm))), rfl⟩

/-- A bucket holds a version with a marker only if it is the one without a class, and is
passed by a newer update. -/
theorem passed_of_get (hpassed : MarkersPassed current available) {change : VersionChange}
    {version : String} (hget : (bucketsOf current available false).get change = some version)
    (hmarker : hasMarker version = true) :
    change = .other ∧ ∃ release ∈ available, isUpdate current false release = true ∧
      compareVersions release version = .gt := by
  have hspec := get_bucketsOf current available false change
  rw [hget] at hspec
  have hfirst : FirstGreatest compareVersions (candidatesOf current available false change) version := hspec
  obtain ⟨-, hupdate, rfl⟩ := mem_candidatesOf.mp hfirst.mem
  obtain ⟨before, after, hsplit, hbefore, hafter⟩ := hfirst.not_passed
  obtain ⟨release, hrelease, -, hpass⟩ := hpassed before version after hsplit hupdate hmarker
  rcases hpass with ⟨hclass, ⟨hmem, hle⟩ | ⟨hmem, hgt⟩⟩ | ⟨hother, hmem, hgt⟩
  · exact absurd (hbefore release hmem (by simp [hrelease, hclass])) hle
  · exact absurd hgt (hafter release hmem (by simp [hrelease, hclass]))
  · exact ⟨hother, release, hsplit ▸ hmem, hrelease, hgt⟩

theorem keepsOut_of_passed (hpassed : MarkersPassed current available) :
    KeepsOutPrereleases current available := by
  intro version hversion
  by_contra hmarker
  rw [Bool.not_eq_false] at hmarker
  rcases mem_versions.mp hversion with ⟨change, hchange, hget⟩ | hlatest
  · exact hchange (passed_of_get hpassed hget hmarker).1
  · obtain ⟨hnewest, -⟩ := newest_latest current available false
    rw [hlatest] at hnewest
    obtain ⟨entry, hentry, rfl⟩ := Option.map_eq_some_iff.mp hlatest
    have hspec := Ranking.maxBy_spec compareEntries (bucketsOf current available false).filled
    rw [← Buckets.newest, hentry] at hspec
    have hget := mem_filled.mp (Ranking.LastGreatest.mem hspec)
    obtain ⟨-, release, havailable, hrelease, hgt⟩ := passed_of_get hpassed hget hmarker
    exact hnewest.2 release ⟨havailable, hrelease⟩ hgt

theorem passedBy_of_get {before after : List String} {candidate version : String}
    (hupdate : isUpdate current false candidate = true) (hmarker : hasMarker candidate = true)
    (hget : (bucketsOf current (before ++ candidate :: after) false).get
      (changeOf current candidate) = some version)
    (hnone : hasMarker version = false) : PassedBy current before candidate after version := by
  have hspec := get_bucketsOf current (before ++ candidate :: after) false (changeOf current candidate)
  rw [hget] at hspec
  have hfirst : FirstGreatest compareVersions (candidatesOf current (before ++ candidate :: after) false
    (changeOf current candidate)) version := hspec
  obtain ⟨-, hrelease, hclass⟩ := mem_candidatesOf.mp hfirst.mem
  refine ⟨hrelease, hnone, Or.inl ⟨hclass, ?_⟩⟩
  have hne : version ≠ candidate := by
    rintro rfl
    rw [hnone] at hmarker
    cases hmarker
  rw [candidatesOf, List.filter_append, List.filter_cons_of_pos (by simp [hupdate])] at hfirst
  rcases hfirst.passes hne with ⟨hmem, hle⟩ | ⟨hmem, hgt⟩
  · exact Or.inl ⟨List.mem_of_mem_filter hmem, hle⟩
  · exact Or.inr ⟨List.mem_of_mem_filter hmem, hgt⟩

theorem get_other_of_latest {latest version : String}
    (hlatest : (analyzeVersions current available false).latest = some latest)
    (hget : (bucketsOf current available false).get .other = some version)
    (hle : compareVersions latest version ≠ .gt) : latest = version := by
  obtain ⟨entry, hentry, rfl⟩ := Option.map_eq_some_iff.mp hlatest
  have hspec := Ranking.maxBy_spec compareEntries (bucketsOf current available false).filled
  rw [← Buckets.newest, hentry] at hspec
  have hother : (bucketsOf current available false).other = some version := hget
  have hlast : (bucketsOf current available false).filled = ([((bucketsOf current available false).patch,
      VersionChange.patch), ((bucketsOf current available false).minor, .minor),
      ((bucketsOf current available false).major, .major)].filterMap fun entry =>
        entry.1.map fun version => (version, entry.2)) ++ [(version, .other)] := by
    rw [Buckets.filled, hother]
    show List.filterMap _ ([_, _, _] ++ [_]) = _
    exact List.filterMap_append
  rw [hlast] at hspec
  exact congrArg Prod.fst (Ranking.LastGreatest.eq_last hspec hle)

theorem passed_of_keepsOut (hkeeps : KeepsOutPrereleases current available) :
    MarkersPassed current available := by
  rintro before candidate after rfl hupdate hmarker
  have hmem : candidate ∈ candidatesOf current (before ++ candidate :: after) false
      (changeOf current candidate) := mem_candidatesOf.mpr ⟨by simp, hupdate, rfl⟩
  have hbucket := newest_bucket current (before ++ candidate :: after) false (changeOf current candidate)
  cases hget : (bucketsOf current (before ++ candidate :: after) false).get
      (changeOf current candidate) with
  | none =>
    rw [hget] at hbucket
    exact absurd hmem (hbucket candidate)
  | some version =>
    rw [hget] at hbucket
    by_cases hother : changeOf current candidate = .other
    swap
    · have hnone := hkeeps version (mem_versions.mpr (Or.inl ⟨_, hother, hget⟩))
      exact ⟨version, passedBy_of_get hupdate hmarker hget hnone⟩
    -- without a class, the latest version passes it, or is the one of its bucket
    obtain ⟨hnewest, -⟩ := newest_latest current (before ++ candidate :: after) false
    cases hlatest : (analyzeVersions current (before ++ candidate :: after) false).latest with
    | none =>
      rw [hlatest] at hnewest
      exact absurd ⟨by simp, hupdate⟩ (hnewest candidate)
    | some latest =>
      rw [hlatest] at hnewest
      have hnone := hkeeps latest (mem_versions.mpr (Or.inr hlatest))
      by_cases hgt : compareVersions latest candidate = .gt
      · exact ⟨latest, hnewest.1.2, hnone, Or.inr ⟨hother, hnewest.1.1, hgt⟩⟩
      · rw [hother] at hget
        have hbest : compareVersions candidate version ≠ .gt := hbucket.2 candidate hmem
        obtain rfl := get_other_of_latest hlatest hget (Ranking.not_gt_trans hgt hbest)
        exact ⟨latest, passedBy_of_get hupdate hmarker (hother ▸ hget) hnone⟩

/-- **Pre-releases are kept out exactly where releases pass them.** Without pre-releases,
no reported version has a marker if and only if every update with a marker, which the
check of the qualifier's start has missed, is passed by an update without one. -/
theorem keepsOutPrereleases_iff (current : String) (available : List String) :
    KeepsOutPrereleases current available ↔ MarkersPassed current available :=
  ⟨passed_of_keepsOut, keepsOut_of_passed⟩

/-- A snapshot behind another qualifier, and a candidate behind a digit. -/
theorem prereleases_not_kept_out :
    ¬ KeepsOutPrereleases "31.0" ["31.1-jre-SNAPSHOT"] ∧ ¬ KeepsOutPrereleases "0.9" ["1.0rc1"] := by
  unfold KeepsOutPrereleases
  decide +kernel

end JMan.Resolver
