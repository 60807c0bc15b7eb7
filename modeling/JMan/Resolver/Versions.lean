import Mathlib.Data.List.GetD
import JMan.Lib.Numbers
import JMan.Lib.Ranking

/-!
# JMan — updates of a version

`jman-resolver/src/version.rs`: which of the available versions are updates of a
declared one, and of which class. Versions are compared by their leading numbers,
missing ones being zero, and then by their qualifiers.

* `transCmp_compareVersions` — the comparison is a total preorder.
* `get_bucketsOf` — every bucket holds the first of the newest candidates of its class.
* `newest_bucket`, `newest_latest` — what the analysis reports is the newest of each
  class, and the newest of all.
-/

namespace JMan.Resolver

open Ranking (keepGreater Chosen FirstGreatest)
open Std (TransCmp OrientedCmp)

-- Numbers and qualifiers

def isSeparator (c : Char) : Bool := c == '.' || c == '-' || c == '_' || c == '+'

/-- `version.split(['.', '-', '_', '+'])` -/
def versionParts (version : List Char) : List (List Char) := version.splitOnP isSeparator

/-- `str::parse::<u64>` -/
def parseU64 : List Char → Option Nat := Numbers.parseUnsigned 18446744073709551615

def mapWhile {α β : Type} (f : α → Option β) : List α → List β
  | [] => []
  | a :: rest =>
    match f a with
    | none => []
    | some b => b :: mapWhile f rest

structure NumericVersion where
  major : Nat
  minor : Nat
deriving DecidableEq

def numericVersion (version : String) : Option NumericVersion :=
  match versionParts version.toList with
  | [] => none
  | first :: rest =>
    (parseU64 first).map fun major =>
      { major, minor := (rest.head?.bind parseU64).getD 0 }

def numericComponents (version : String) : List Nat :=
  mapWhile parseU64 (versionParts version.toList)

/-- `qualifier_marker`: the qualifier starts with a marker, and the marker ends there. -/
def qualifierMarker (qualifier : List Char) (long short : String) : Bool :=
  [long.toList, short.toList].any fun marker =>
    marker.isPrefixOf qualifier &&
      match qualifier.drop marker.length with
      | [] => true
      | c :: _ => c == '.' || c.isDigit

structure QualifierKey where
  rank : Int
  number : Nat
  qualifier : String
deriving DecidableEq

def QualifierKey.cmp (left right : QualifierKey) : Ordering :=
  (compare left.rank right.rank).then
    ((compare left.number right.number).then (compare left.qualifier right.qualifier))

/-- What is left of a version in lower case behind its leading numbers. -/
def qualifierOf (version : String) : List Char :=
  let normalized := version.toList.map Char.toLower
  ['.'].intercalate ((versionParts normalized).dropWhile fun value => value.all Char.isDigit)

def qualifierNumber (qualifier : List Char) : Nat :=
  (parseU64 ((qualifier.dropWhile fun c => !c.isDigit).takeWhile Char.isDigit)).getD 0

def qualifierRank (qualifier : List Char) : Int :=
  if "snapshot".toList.isPrefixOf qualifier then -60
  else if qualifierMarker qualifier "alpha" "a" then -50
  else if qualifierMarker qualifier "beta" "b" then -40
  else if qualifierMarker qualifier "milestone" "m" then -30
  else if qualifierMarker qualifier "rc" "rc" || qualifierMarker qualifier "cr" "cr" then -20
  else if qualifierMarker qualifier "ea" "ea" || qualifierMarker qualifier "preview" "preview" then -10
  else if "sp".toList.isPrefixOf qualifier then 10
  else 0

def qualifierKey (version : String) : QualifierKey :=
  let qualifier := qualifierOf version
  if qualifier = [] ∨ qualifier = "final".toList ∨ qualifier = "ga".toList ∨
      qualifier = "release".toList then
    { rank := 0, number := 0, qualifier := "" }
  else
    { rank := qualifierRank qualifier, number := qualifierNumber qualifier,
      qualifier := String.ofList qualifier }

def isPrerelease (version : String) : Bool := (qualifierKey version).rank < 0

/-- The leading numbers compared place by place, missing ones as zeros. -/
def compareNumbers (left right : List Nat) : Ordering :=
  Ranking.compareAt compare (fun i => left.getD i 0) (fun i => right.getD i 0)
    (List.range (max left.length right.length))

def compareVersions (left right : String) : Ordering :=
  (compareNumbers (numericComponents left) (numericComponents right)).then
    ((qualifierKey left).cmp (qualifierKey right))

-- The analysis

inductive VersionChange where
  | patch
  | minor
  | major
  | other
deriving DecidableEq

structure VersionUpdates where
  patch : Option String
  minor : Option String
  major : Option String
  latest : Option String
  change : Option VersionChange
deriving DecidableEq

def selectNewer (selected : Option String) (candidate : String) : Option String :=
  if selected.all fun current => compareVersions candidate current = .gt then some candidate
  else selected

structure Buckets where
  patch : Option String
  minor : Option String
  major : Option String
  other : Option String

/-- The condition under which the loop goes on with a candidate. -/
def isUpdate (current : String) (includePrerelease : Bool) (candidate : String) : Bool :=
  !(candidate == current || (!includePrerelease && isPrerelease candidate) ||
    compareVersions candidate current != .gt)

def Buckets.consider (current : String) (includePrerelease : Bool) (buckets : Buckets)
    (candidate : String) : Buckets :=
  if isUpdate current includePrerelease candidate then
    match numericVersion current, numericVersion candidate with
    | some now, some next =>
      if next.major = now.major ∧ next.minor = now.minor then
        { buckets with patch := selectNewer buckets.patch candidate }
      else if next.major = now.major ∧ next.minor > now.minor then
        { buckets with minor := selectNewer buckets.minor candidate }
      else if next.major > now.major then
        { buckets with major := selectNewer buckets.major candidate }
      else { buckets with other := selectNewer buckets.other candidate }
    | _, _ => { buckets with other := selectNewer buckets.other candidate }
  else buckets

def bucketsOf (current : String) (available : List String) (includePrerelease : Bool) : Buckets :=
  available.foldl (Buckets.consider current includePrerelease)
    { patch := none, minor := none, major := none, other := none }

def Buckets.filled (buckets : Buckets) : List (String × VersionChange) :=
  [(buckets.patch, VersionChange.patch), (buckets.minor, .minor), (buckets.major, .major),
    (buckets.other, .other)].filterMap fun entry => entry.1.map fun version => (version, entry.2)

def compareEntries (left right : String × VersionChange) : Ordering :=
  compareVersions left.1 right.1

/-- `max_by` of the filled buckets. -/
def Buckets.newest (buckets : Buckets) : Option (String × VersionChange) :=
  Ranking.maxBy compareEntries buckets.filled

def analyzeVersions (current : String) (available : List String) (includePrerelease : Bool) :
    VersionUpdates :=
  let buckets := bucketsOf current available includePrerelease
  { patch := buckets.patch
    minor := buckets.minor
    major := buckets.major
    latest := buckets.newest.map Prod.fst
    change := buckets.newest.map Prod.snd }

def VersionUpdates.versions (updates : VersionUpdates) : List String :=
  [updates.patch, updates.minor, updates.major, updates.latest].filterMap id

-- The order of versions

def component (version : String) (i : Nat) : Nat := (numericComponents version).getD i 0

theorem compareNumbers_eq (left right : List Nat) {n : Nat} (hleft : left.length ≤ n)
    (hright : right.length ≤ n) :
    compareNumbers left right =
      Ranking.compareAt compare (fun i => left.getD i 0) (fun i => right.getD i 0) (List.range n) := by
  refine (Ranking.compareAt_range (by omega) fun i hi => ?_).symm
  rw [List.getD_eq_default _ _ (by omega), List.getD_eq_default _ _ (by omega)]

instance transCmp_compareNumbers : TransCmp compareNumbers where
  eq_swap {left right} := by
    have hswap := (Ranking.transCmp_compareAt (compare : Nat → Nat → Ordering)
      (List.range (max left.length right.length))).eq_swap
        (a := fun i => left.getD i 0) (b := fun i => right.getD i 0)
    rw [compareNumbers_eq right left (n := max left.length right.length) (by omega) (by omega)]
    exact hswap
  isLE_trans {a b c} hab hbc := by
    -- enough places for all three
    have htrans := Ranking.transCmp_compareAt (compare : Nat → Nat → Ordering)
      (List.range (a.length + b.length + c.length))
    rw [compareNumbers_eq _ _ (n := a.length + b.length + c.length) (by omega) (by omega)] at *
    exact htrans.isLE_trans hab hbc

/-- **The greater list of numbers is so at the first difference.** -/
theorem compareNumbers_eq_gt_iff {left right : List Nat} :
    compareNumbers left right = .gt ↔
      ∃ i, (∀ j < i, left.getD j 0 = right.getD j 0) ∧ left.getD i 0 > right.getD i 0 := by
  rw [compareNumbers, Ranking.compareAt_eq_gt_iff]
  simp only [Nat.compare_eq_gt]
  constructor
  · rintro ⟨i, -, h⟩
    exact ⟨i, h⟩
  · rintro ⟨i, hbelow, hgt⟩
    refine ⟨i, ?_, hbelow, hgt⟩
    by_contra hi
    rw [List.getD_eq_default left _ (by omega)] at hgt
    omega

instance transCmp_qualifierKey : TransCmp QualifierKey.cmp :=
  inferInstanceAs (TransCmp (compareLex (compareOn QualifierKey.rank)
    (compareLex (compareOn QualifierKey.number) (compareOn QualifierKey.qualifier))))

/-- **Versions are compared by a total preorder.** -/
instance transCmp_compareVersions : TransCmp compareVersions := by
  have hnumbers := Ranking.transCmp_on compareNumbers numericComponents
  have hkeys := Ranking.transCmp_on QualifierKey.cmp qualifierKey
  exact inferInstanceAs (TransCmp (compareLex
    (fun left right => compareNumbers (numericComponents left) (numericComponents right))
    fun left right => (qualifierKey left).cmp (qualifierKey right)))

instance transCmp_compareEntries : TransCmp compareEntries :=
  Ranking.transCmp_on compareVersions Prod.fst

theorem older_of_component_lt {left right : String} {i : Nat}
    (hbelow : ∀ j < i, component left j = component right j)
    (hlt : component left i < component right i) : compareVersions left right = .lt := by
  have hnumbers : compareNumbers (numericComponents right) (numericComponents left) = .gt :=
    compareNumbers_eq_gt_iff.mpr ⟨i, fun j hj => (hbelow j hj).symm, hlt⟩
  rw [compareVersions, OrientedCmp.lt_of_gt hnumbers]
  rfl

-- Classes

/-- The class of a candidate: by the first number in which it differs, when both
versions have numbers. -/
def changeOf (current candidate : String) : VersionChange :=
  if numericComponents current = [] ∨ numericComponents candidate = [] then .other
  else if component candidate 0 ≠ component current 0 then .major
  else if component candidate 1 ≠ component current 1 then .minor
  else .patch

theorem component_of_newer {current candidate : String}
    (hnewer : compareVersions candidate current = .gt) :
    component current 0 ≤ component candidate 0 ∧
      (component candidate 0 = component current 0 →
        component current 1 ≤ component candidate 1) := by
  constructor
  · by_contra hlt
    rw [older_of_component_lt (i := 0) (by omega) (by omega)] at hnewer
    cases hnewer
  · intro hfirst
    by_contra hlt
    have hbelow : ∀ j < 1, component candidate j = component current j := by
      intro j hj
      obtain rfl : j = 0 := by omega
      exact hfirst
    rw [older_of_component_lt hbelow (by omega)] at hnewer
    cases hnewer

theorem numericVersion_eq (version : String) :
    numericVersion version =
      if numericComponents version = [] then none
      else some ⟨component version 0, component version 1⟩ := by
  unfold numericVersion component numericComponents
  cases hparts : versionParts version.toList with
  | nil => rfl
  | cons first rest =>
    cases hfirst : parseU64 first with
    | none => simp [mapWhile, hfirst]
    | some major =>
      cases rest with
      | nil => simp [mapWhile, hfirst]
      | cons second rest =>
        cases hsecond : parseU64 second with
        | none => simp [mapWhile, hfirst, hsecond]
        | some minor => simp [mapWhile, hfirst, hsecond]

def Buckets.get (buckets : Buckets) : VersionChange → Option String
  | .patch => buckets.patch
  | .minor => buckets.minor
  | .major => buckets.major
  | .other => buckets.other

section Loop

variable {current candidate : String} {available : List String} {includePrerelease : Bool}
  {buckets : Buckets}

theorem isUpdate_iff : isUpdate current includePrerelease candidate = true ↔
    (includePrerelease = false → isPrerelease candidate = false) ∧
      compareVersions candidate current = .gt := by
  have hself : compareVersions current current = .eq := Std.ReflCmp.compare_self
  unfold isUpdate
  cases includePrerelease <;> simp <;> grind

/-- **A turn of the loop offers a candidate to the bucket of its class.** -/
theorem get_consider (change : VersionChange) :
    (buckets.consider current includePrerelease candidate).get change =
      if isUpdate current includePrerelease candidate ∧ changeOf current candidate = change then
        selectNewer (buckets.get change) candidate
      else buckets.get change := by
  by_cases hupdate : isUpdate current includePrerelease candidate = true
  swap
  · simp [Buckets.consider, hupdate]
  obtain ⟨hmajor, hminor⟩ := component_of_newer (isUpdate_iff.mp hupdate).2
  unfold Buckets.consider changeOf
  rw [numericVersion_eq, numericVersion_eq]
  by_cases hcurrent : numericComponents current = []
  · cases change <;> simp [hupdate, hcurrent, Buckets.get]
  by_cases hcandidate : numericComponents candidate = []
  · cases change <;> simp [hupdate, hcurrent, hcandidate, Buckets.get]
  by_cases hfirst : component candidate 0 = component current 0
  · by_cases hsecond : component candidate 1 = component current 1
    · cases change <;> simp [hupdate, hcurrent, hcandidate, hfirst, hsecond, Buckets.get]
    · have hgreater : component current 1 < component candidate 1 := by
        have hle := hminor hfirst
        omega
      cases change <;> simp [hupdate, hcurrent, hcandidate, hfirst, hsecond, hgreater, Buckets.get]
  · have hgreater : component current 0 < component candidate 0 := by omega
    cases change <;> simp [hupdate, hcurrent, hcandidate, hfirst, hgreater, Buckets.get]

def candidatesOf (current : String) (available : List String) (includePrerelease : Bool)
    (change : VersionChange) : List String :=
  available.filter fun candidate =>
    isUpdate current includePrerelease candidate && changeOf current candidate = change

theorem mem_candidatesOf {change : VersionChange} :
    candidate ∈ candidatesOf current available includePrerelease change ↔
      candidate ∈ available ∧ isUpdate current includePrerelease candidate = true ∧
        changeOf current candidate = change := by
  simp [candidatesOf]

theorem selectNewer_eq : selectNewer = keepGreater compareVersions := by
  funext selected candidate
  cases selected with
  | none => rfl
  | some version => simp [selectNewer, keepGreater]

theorem get_foldl_consider (change : VersionChange) (available : List String) (buckets : Buckets) :
    (available.foldl (Buckets.consider current includePrerelease) buckets).get change =
      (candidatesOf current available includePrerelease change).foldl selectNewer
        (buckets.get change) := by
  unfold candidatesOf
  induction available generalizing buckets with
  | nil => rfl
  | cons candidate available ih =>
    rw [List.foldl_cons, ih, get_consider, List.filter_cons]
    by_cases h : isUpdate current includePrerelease candidate ∧ changeOf current candidate = change
    · simp [h]
    · rw [if_neg h, if_neg (by simpa using h)]

/-- **Every bucket holds the first of the newest candidates of its class.** -/
theorem get_bucketsOf (current : String) (available : List String) (includePrerelease : Bool)
    (change : VersionChange) :
    Chosen (FirstGreatest compareVersions)
      (candidatesOf current available includePrerelease change)
      ((bucketsOf current available includePrerelease).get change) := by
  have hempty : (Buckets.mk none none none none).get change = none := by cases change <;> rfl
  rw [bucketsOf, get_foldl_consider, hempty, selectNewer_eq]
  exact Ranking.foldl_keepGreater compareVersions _

theorem mem_filled {version : String} {change : VersionChange} :
    (version, change) ∈ buckets.filled ↔ buckets.get change = some version := by
  cases change <;> simp [Buckets.filled, Buckets.get]

-- What is reported

/-- A choice that is made where there is something to choose, and then is one of
those to which none is newer. -/
def Newest (among : String → Prop) : Option String → Prop
  | none => ∀ version, ¬ among version
  | some version => among version ∧ ∀ other, among other → compareVersions other version ≠ .gt

theorem newest_bucket (current : String) (available : List String) (includePrerelease : Bool)
    (change : VersionChange) :
    Newest (· ∈ candidatesOf current available includePrerelease change)
      ((bucketsOf current available includePrerelease).get change) := by
  have hspec := get_bucketsOf current available includePrerelease change
  cases hget : (bucketsOf current available includePrerelease).get change with
  | none =>
    rw [hget] at hspec
    intro version hmem
    rw [show candidatesOf current available includePrerelease change = [] from hspec] at hmem
    cases hmem
  | some version =>
    rw [hget] at hspec
    exact ⟨hspec.mem, fun other hother => hspec.not_gt hother⟩

/-- **The latest version is the newest of all updates,** and it is reported with its class. -/
theorem newest_latest (current : String) (available : List String) (includePrerelease : Bool) :
    Newest (fun version => version ∈ available ∧ isUpdate current includePrerelease version = true)
        (analyzeVersions current available includePrerelease).latest ∧
      (analyzeVersions current available includePrerelease).change =
        (analyzeVersions current available includePrerelease).latest.map (changeOf current) := by
  have hspec := Ranking.maxBy_spec compareEntries
    (bucketsOf current available includePrerelease).filled
  rw [← Buckets.newest] at hspec
  have hbucket := newest_bucket current available includePrerelease
  show Newest _ ((bucketsOf current available includePrerelease).newest.map Prod.fst) ∧
    (bucketsOf current available includePrerelease).newest.map Prod.snd =
      ((bucketsOf current available includePrerelease).newest.map Prod.fst).map (changeOf current)
  cases hnewest : (bucketsOf current available includePrerelease).newest with
  | none =>
    rw [hnewest] at hspec
    refine ⟨fun version hupdate => ?_, rfl⟩
    have hnone := hbucket (changeOf current version)
    cases hbest : (bucketsOf current available includePrerelease).get (changeOf current version) with
    | none =>
      rw [hbest] at hnone
      exact hnone version (mem_candidatesOf.mpr ⟨hupdate.1, hupdate.2, rfl⟩)
    | some best =>
      have hmem := mem_filled.mpr hbest
      rw [show Buckets.filled _ = [] from hspec] at hmem
      cases hmem
  | some entry =>
    obtain ⟨version, change⟩ := entry
    rw [hnewest] at hspec
    have hget := mem_filled.mp (Ranking.LastGreatest.mem hspec)
    have hown := hbucket change
    rw [hget] at hown
    obtain ⟨havailable, hupdate, hclass⟩ := mem_candidatesOf.mp hown.1
    refine ⟨⟨⟨havailable, hupdate⟩, fun other hother => ?_⟩, ?_⟩
    · -- the newest of the other's own class stands between
      have hclassOf := hbucket (changeOf current other)
      have hmem := mem_candidatesOf.mpr ⟨hother.1, hother.2, rfl⟩
      cases hbest : (bucketsOf current available includePrerelease).get (changeOf current other) with
      | none =>
        rw [hbest] at hclassOf
        exact absurd hmem (hclassOf other)
      | some best =>
        rw [hbest] at hclassOf
        have hpassed : compareEntries (best, changeOf current other) (version, change) ≠ .gt :=
          Ranking.LastGreatest.not_gt hspec (mem_filled.mpr hbest)
        exact Ranking.not_gt_trans (hclassOf.2 other hmem) hpassed
    · simp [hclass]

-- One class after another

theorem Newest.orElse {first second : String → Prop} {chosen other : Option String}
    (hchosen : Newest first chosen) (hother : Newest second other)
    (hnewer : ∀ v w, first v → second w → compareVersions w v ≠ .gt) :
    Newest (fun version => first version ∨ second version) (chosen <|> other) := by
  cases chosen with
  | some version =>
    refine ⟨Or.inl hchosen.1, fun w hw => ?_⟩
    rcases hw with hw | hw
    · exact hchosen.2 w hw
    · exact hnewer version w hchosen.1 hw
  | none =>
    show Newest _ other
    cases other with
    | none =>
      intro version hversion
      rcases hversion with hversion | hversion
      · exact hchosen version hversion
      · exact hother version hversion
    | some version =>
      refine ⟨Or.inr hother.1, fun w hw => ?_⟩
      rcases hw with hw | hw
      · exact absurd hw (hchosen w)
      · exact hother.2 w hw

theorem Newest.congr {first second : String → Prop} {chosen : Option String}
    (h : Newest first chosen) (hiff : ∀ version, first version ↔ second version) :
    Newest second chosen := by
  obtain rfl : first = second := funext fun version => propext (hiff version)
  exact h

theorem component_of_changeOf {version : String} (hnewer : compareVersions version current = .gt) :
    (changeOf current version = .major → component current 0 < component version 0) ∧
    (changeOf current version = .minor → component version 0 = component current 0 ∧
      component current 1 < component version 1) ∧
    (changeOf current version = .patch → component version 0 = component current 0 ∧
      component version 1 = component current 1) := by
  obtain ⟨hfirst, hsecond⟩ := component_of_newer hnewer
  unfold changeOf
  refine ⟨?_, ?_, ?_⟩ <;> intro h <;> split_ifs at h <;> grind

/-- **A patch is older than a minor update,** and both are older than a major one. -/
theorem older_of_class {newer older : String} (hnewer : compareVersions newer current = .gt)
    (holder : compareVersions older current = .gt)
    (hclasses : changeOf current newer = .major ∧
        (changeOf current older = .minor ∨ changeOf current older = .patch) ∨
      changeOf current newer = .minor ∧ changeOf current older = .patch) :
    compareVersions older newer = .lt := by
  obtain ⟨hmajor, hminor, -⟩ := component_of_changeOf hnewer
  obtain ⟨-, hminor', hpatch'⟩ := component_of_changeOf holder
  rcases hclasses with ⟨hclass, hclass' | hclass'⟩ | ⟨hclass, hclass'⟩
  · have hgreater := hmajor hclass
    have hsame := (hminor' hclass').1
    exact older_of_component_lt (i := 0) (by omega) (by omega)
  · have hgreater := hmajor hclass
    have hsame := (hpatch' hclass').1
    exact older_of_component_lt (i := 0) (by omega) (by omega)
  · obtain ⟨hsame, hgreater⟩ := hminor hclass
    obtain ⟨hsame', hsecond⟩ := hpatch' hclass'
    refine older_of_component_lt (i := 1) (fun j hj => ?_) (by omega)
    obtain rfl : j = 0 := by omega
    omega

end Loop

end JMan.Resolver
