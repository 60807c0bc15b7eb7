import Mathlib.Data.Finset.Sort
import Mathlib.Data.String.Basic
import JMan.Config.Manifest
import JMan.Lib.Numbers

/-!
# JMan — the audit policy

`validate_audit` and `is_iso_date` of `jman-config`, and `evaluate_audit`, which decides
what of the findings is suppressed, denied and reported. Of the suppressions that match a
finding only the first is looked at, and expiry dates are compared as texts.

* `followsPolicy_iff` — a report follows the policy exactly where the first match decides
  rightly and every suppression in use is the first match of a finding.
* `expired_suppression_hides_another` — the smallest case where it is not so.
-/

namespace JMan.Cli

open JMan.Config

-- Dates
-- ---

structure CalendarDate where
  year : Nat
  month : Nat
  day : Nat
deriving DecidableEq

namespace CalendarDate

def Before (date other : CalendarDate) : Prop :=
  date.year < other.year ∨ (date.year = other.year ∧
    (date.month < other.month ∨ (date.month = other.month ∧ date.day < other.day)))

instance (date other : CalendarDate) : Decidable (date.Before other) := by
  unfold Before
  infer_instance

/-- The days of a month, by the table of `is_iso_date`. -/
def daysOf (year month : Nat) : Nat :=
  let leap := year % 4 = 0 ∧ (year % 100 ≠ 0 ∨ year % 400 = 0)
  if month = 2 then if leap then 29 else 28
  else if month = 4 ∨ month = 6 ∨ month = 9 ∨ month = 11 then 30
  else 31

/-- A number with zeros in front of it up to a width. -/
def padded (width number : Nat) : List Char :=
  let digits := Nat.toDigits 10 number
  List.replicate (width - digits.length) '0' ++ digits

/-- `utc_date` -/
def format (date : CalendarDate) : String :=
  String.ofList (padded 4 date.year ++ '-' :: padded 2 date.month ++ '-' :: padded 2 date.day)

end CalendarDate

/-- `str::parse::<u32>` -/
def parseU32 : List Char → Option Nat := Numbers.parseUnsigned 4294967295

def dateParts (value : String) : Option CalendarDate :=
  match value.toList.splitOn '-' with
  | [year, month, day] => do
    let year ← parseU32 year
    let month ← parseU32 month
    let day ← parseU32 day
    return ⟨year, month, day⟩
  | _ => none

def isIsoDate (value : String) : Bool :=
  match dateParts value with
  | none => false
  | some date =>
    if value.utf8ByteSize ≠ 10 ∨ date.year = 0 ∨ ¬(1 ≤ date.month ∧ date.month ≤ 12) then false
    else 1 ≤ date.day ∧ date.day ≤ CalendarDate.daysOf date.year date.month

-- Suppressions
-- ---

structure AuditSuppression where
  id : String
  reason : String
  expires : String
deriving DecidableEq

/-- `validate_audit`, with the identifiers of the suppressions before. -/
def validateSuppressions (identifiers : List String) : List AuditSuppression → Except ConfigError Unit
  | [] => .ok ()
  | suppression :: rest =>
    if isBlank suppression.id then
      .error (.validation "audit suppression ID cannot be empty")
    else if identifiers.contains suppression.id then
      .error (.validation ("duplicate audit suppression `" ++ suppression.id ++ "`"))
    else if isBlank suppression.reason then
      .error (.validation ("audit suppression `" ++ suppression.id ++ "` requires a reason"))
    else if !isIsoDate suppression.expires then
      .error (.validation ("audit suppression `" ++ suppression.id ++
        "` expiry must use a valid YYYY-MM-DD date"))
    else validateSuppressions (suppression.id :: identifiers) rest

def validateAudit (suppressions : List AuditSuppression) : Except ConfigError Unit :=
  validateSuppressions [] suppressions

-- Findings
-- ---

inductive Severity where
  | unknown
  | low
  | medium
  | high
  | critical
deriving DecidableEq

def Severity.rank : Severity → Nat
  | .unknown => 0
  | .low => 1
  | .medium => 2
  | .high => 3
  | .critical => 4

structure AuditPackage where
  group : String
  artifact : String
  version : String
deriving DecidableEq

def AuditPackage.cmp (left right : AuditPackage) : Ordering :=
  (compare left.group right.group).then
    ((compare left.artifact right.artifact).then (compare left.version right.version))

structure Advisory where
  id : String
  aliases : List String
  summary : String
  severity : Severity
  fixedVersions : List String
  references : List String
  modified : Option String
deriving DecidableEq

structure Finding where
  package : AuditPackage
  advisory : Advisory
deriving DecidableEq

inductive AuditSource where
  | network
  | cache
  | staleCache
deriving DecidableEq

structure AuditResult where
  provider : String
  source : AuditSource
  findings : List Finding

-- The report
-- ---

structure AuditDependencyPath where
  module : String
  coordinates : List String
deriving DecidableEq

structure AppliedAuditSuppression where
  reason : String
  expires : String
deriving DecidableEq

structure AuditFindingReport where
  package : AuditPackage
  advisory : Advisory
  paths : List AuditDependencyPath
  active : Bool
  suppression : Option AppliedAuditSuppression
deriving DecidableEq

structure DependencyAuditReport where
  provider : String
  source : AuditSource
  packagesChecked : Nat
  totalFindings : Nat
  reportedFindings : Nat
  active : Nat
  suppressed : Nat
  denied : Nat
  suppressionWarnings : List String
  findings : List AuditFindingReport

/-- Where the packages come from: a map, as the list of its entries. -/
abbrev AuditPaths := List (AuditPackage × List AuditDependencyPath)

namespace AuditSuppression

/-- `suppression.expires.as_str() < today` -/
def comparesExpired (suppression : AuditSuppression) (today : String) : Bool :=
  suppression.expires < today

def suppresses (suppression : AuditSuppression) (advisory : Advisory) : Bool :=
  suppression.id = advisory.id || advisory.aliases.contains suppression.id

def expiredWarning (suppression : AuditSuppression) : String :=
  "audit suppression '" ++ suppression.id ++ "' expired on " ++ suppression.expires ++
    " and no longer applies"

def unmatchedWarning (suppression : AuditSuppression) : String :=
  "audit suppression '" ++ suppression.id ++ "' did not match any finding"

end AuditSuppression

def appliedSuppression (suppressions : List AuditSuppression) (today : String) (advisory : Advisory) :
    Option AuditSuppression :=
  (suppressions.find? (·.suppresses advisory)).bind fun suppression =>
    if suppression.comparesExpired today then none else some suppression

def reportFinding (paths : AuditPaths) (suppressions : List AuditSuppression) (today : String)
    (finding : Finding) : AuditFindingReport :=
  let applied := (appliedSuppression suppressions today finding.advisory).map fun suppression =>
    (⟨suppression.reason, suppression.expires⟩ : AppliedAuditSuppression)
  { package := finding.package
    advisory := finding.advisory
    paths := (paths.lookup finding.package).getD []
    active := applied.isNone
    suppression := applied }

def usedSuppressions (suppressions : List AuditSuppression) (today : String) (findings : List Finding) :
    List String :=
  findings.filterMap fun finding =>
    (appliedSuppression suppressions today finding.advisory).map AuditSuppression.id

def suppressionWarnings (suppressions : List AuditSuppression) (today : String) (findings : List Finding) :
    List String :=
  let used := usedSuppressions suppressions today findings
  let expired := suppressions.filter fun suppression => suppression.comparesExpired today
  let unmatched := suppressions.filter fun suppression =>
    !suppression.comparesExpired today && !used.contains suppression.id
  let warnings := expired.map AuditSuppression.expiredWarning ++ unmatched.map AuditSuppression.unmatchedWarning
  warnings.dedup.insertionSort (· ≤ ·)

/-- `all.sort_by`: severe findings first. -/
def AuditFindingReport.cmp (left right : AuditFindingReport) : Ordering :=
  (compare right.advisory.severity.rank left.advisory.severity.rank).then
    ((left.package.cmp right.package).then (compare left.advisory.id right.advisory.id))

def evaluateAudit (result : AuditResult) (paths : AuditPaths) (suppressions : List AuditSuppression)
    (minimum : Severity) (deny : Option Severity) (today : String) : DependencyAuditReport :=
  let all := result.findings.map (reportFinding paths suppressions today)
  let denied := match deny with
    | none => 0
    | some threshold =>
      (all.filter fun finding => finding.active && threshold.rank ≤ finding.advisory.severity.rank).length
  let reported := (all.filter fun finding => minimum.rank ≤ finding.advisory.severity.rank).mergeSort
    fun left right => (left.cmp right).isLE
  let active := (reported.filter fun finding => finding.active).length
  { provider := result.provider
    source := result.source
    packagesChecked := paths.length
    totalFindings := result.findings.length
    reportedFindings := reported.length
    active := active
    suppressed := reported.length - active
    denied := denied
    suppressionWarnings := suppressionWarnings suppressions today result.findings
    findings := reported }

def validateAuditThresholds (minimum : Severity) (deny : Option Severity) : Except String Unit :=
  if deny.any fun deny => deny.rank < minimum.rank then
    .error "--severity cannot be higher than --deny because denied findings would be hidden"
  else .ok ()

-- The policy
-- ---

/-- The day a suppression expires on has passed. -/
def AuditSuppression.expired (suppression : AuditSuppression) (today : CalendarDate) : Bool :=
  (dateParts suppression.expires).all fun date => date.Before today

/-- Some suppression that matches has not expired. -/
def isSuppressed (suppressions : List AuditSuppression) (today : CalendarDate) (advisory : Advisory) : Bool :=
  suppressions.any fun suppression => suppression.suppresses advisory && !suppression.expired today

def AuditSuppression.MatchesSome (suppression : AuditSuppression) (findings : List Finding) : Prop :=
  ∃ finding ∈ findings, suppression.suppresses finding.advisory

structure FollowsPolicy (findings : List Finding) (suppressions : List AuditSuppression)
    (deny : Option Severity) (today : CalendarDate) (report : DependencyAuditReport) : Prop where
  suppressed : ∀ finding ∈ report.findings,
    finding.suppression.isSome = isSuppressed suppressions today finding.advisory
  denied : report.denied = (findings.filter fun finding =>
    !isSuppressed suppressions today finding.advisory &&
      deny.any fun threshold => threshold.rank ≤ finding.advisory.severity.rank).length
  reported : ∀ threshold, deny = some threshold → ∀ finding ∈ findings,
    threshold.rank ≤ finding.advisory.severity.rank →
    isSuppressed suppressions today finding.advisory = false →
    ∃ found ∈ report.findings, found.package = finding.package ∧ found.advisory = finding.advisory
  expired : ∀ suppression ∈ suppressions, suppression.expired today →
    suppression.expiredWarning ∈ report.suppressionWarnings
  unmatched : ∀ suppression ∈ suppressions, suppression.expired today = false →
    ¬ suppression.MatchesSome findings → suppression.unmatchedWarning ∈ report.suppressionWarnings
  matched : ∀ suppression ∈ suppressions, suppression.MatchesSome findings →
    suppression.unmatchedWarning ∉ report.suppressionWarnings

/-- When the comparison of texts and the first match are enough. -/
structure FirstMatchDecides (findings : List Finding) (suppressions : List AuditSuppression)
    (minimum : Severity) (today : CalendarDate) : Prop where
  /-- A date that has passed compares as passed. -/
  passed : ∀ suppression ∈ suppressions, suppression.expired today →
    suppression.comparesExpired today.format
  /-- A date to come compares as to come, if the suppression matches nothing. -/
  coming : ∀ suppression ∈ suppressions, suppression.expired today = false →
    ¬ suppression.MatchesSome findings → suppression.comparesExpired today.format = false
  /-- Of the suppressions that match a finding that is shown, one of which has not expired,
  the first compares as not expired. -/
  first : ∀ finding ∈ findings, minimum.rank ≤ finding.advisory.severity.rank →
    isSuppressed suppressions today finding.advisory → ∀ suppression,
    suppressions.find? (·.suppresses finding.advisory) = some suppression →
    suppression.comparesExpired today.format = false
  /-- A suppression that compares as not expired is the first match of some finding, if it
  matches any. -/
  used : ∀ suppression ∈ suppressions, suppression.MatchesSome findings →
    suppression.comparesExpired today.format = false →
    ∃ finding ∈ findings, suppressions.find? (·.suppresses finding.advisory) = some suppression

-- Validation
-- ---

section Validation

variable {suppressions : List AuditSuppression} {suppression other : AuditSuppression}

theorem validateSuppressions_ok {identifiers : List String}
    (h : validateSuppressions identifiers suppressions = .ok ()) :
    (suppressions.map AuditSuppression.id).Nodup ∧
      (∀ suppression ∈ suppressions, suppression.id ∉ identifiers) ∧
      ∀ suppression ∈ suppressions, isIsoDate suppression.expires := by
  induction suppressions generalizing identifiers with
  | nil => exact ⟨List.nodup_nil, fun _ h => absurd h List.not_mem_nil, fun _ h => absurd h List.not_mem_nil⟩
  | cons suppression rest ih =>
    rw [validateSuppressions] at h
    split at h
    · cases h
    · split at h
      · cases h
      · next hnew =>
        split at h
        · cases h
        · split at h
          · cases h
          · next hdate =>
            obtain ⟨hnodup, hapart, hdates⟩ := ih h
            have hfirst : suppression.id ∉ identifiers := fun hmem => hnew (List.contains_iff_mem.mpr hmem)
            refine ⟨List.nodup_cons.mpr ⟨fun hmem => ?_, hnodup⟩, ?_, ?_⟩
            · obtain ⟨later, hlater, hid⟩ := List.mem_map.mp hmem
              exact hapart later hlater (hid ▸ List.mem_cons_self)
            · intro found hfound
              rcases List.mem_cons.mp hfound with rfl | hfound
              · exact hfirst
              · exact fun hmem => hapart found hfound (List.mem_cons_of_mem _ hmem)
            · intro found hfound
              rcases List.mem_cons.mp hfound with rfl | hfound
              · simpa using hdate
              · exact hdates found hfound

theorem eq_of_id (h : validateAudit suppressions = .ok ()) (hmem : suppression ∈ suppressions)
    (hother : other ∈ suppressions) (hid : suppression.id = other.id) : suppression = other :=
  List.inj_on_of_nodup_map (validateSuppressions_ok h).1 hmem hother hid

theorem utf8ByteSize_of_isIsoDate {value : String} (h : isIsoDate value) : value.utf8ByteSize = 10 := by
  unfold isIsoDate at h
  split at h
  · cases h
  · split at h
    · cases h
    · next hshape =>
      rw [not_or, not_not] at hshape
      exact hshape.1

end Validation

-- The warnings
-- ---

section Warnings

variable {suppressions : List AuditSuppression} {suppression other : AuditSuppression}
  {findings : List Finding} {today : String}

theorem eq_nil_of_size {more : List Char} {whole stop : String} (h : whole.toList = more ++ stop.toList)
    (hsize : stop.utf8ByteSize = whole.utf8ByteSize) : more = [] := by
  have hwhole : whole = String.ofList more ++ stop := by
    rw [← String.toList_inj, String.toList_append, String.toList_ofList, h]
  rw [hwhole, String.utf8ByteSize_append] at hsize
  have hmore : String.ofList more = "" := String.utf8ByteSize_eq_zero_iff.mp (by omega)
  rw [← String.toList_ofList (l := more), hmore]
  rfl

theorem append_inj_of_size {left right stop stop' : String} (h : left ++ stop = right ++ stop')
    (hsize : stop.utf8ByteSize = stop'.utf8ByteSize) : left = right ∧ stop = stop' := by
  have hlists : left.toList ++ stop.toList = right.toList ++ stop'.toList := by
    rw [← String.toList_append, ← String.toList_append, h]
  rcases List.append_eq_append_iff.mp hlists with ⟨more, hright, hstop⟩ | ⟨more, hleft, hstop⟩
  · obtain rfl := eq_nil_of_size hstop hsize.symm
    exact ⟨String.toList_inj.mp (by rw [hright, List.append_nil]), String.toList_inj.mp hstop⟩
  · obtain rfl := eq_nil_of_size hstop hsize
    exact ⟨String.toList_inj.mp (by rw [hleft, List.append_nil]), (String.toList_inj.mp hstop).symm⟩

theorem unmatchedWarning_inj (h : suppression.unmatchedWarning = other.unmatchedWarning) :
    suppression.id = other.id := by
  unfold AuditSuppression.unmatchedWarning at h
  exact (String.append_right_inj _).mp ((String.append_left_inj _).mp h)

theorem expiredWarning_inj (h : suppression.expiredWarning = other.expiredWarning)
    (hsize : suppression.expires.utf8ByteSize = other.expires.utf8ByteSize) :
    suppression.id = other.id := by
  unfold AuditSuppression.expiredWarning at h
  obtain ⟨hfront, -⟩ := append_inj_of_size ((String.append_left_inj _).mp h) hsize
  exact (String.append_right_inj _).mp ((String.append_left_inj _).mp hfront)

theorem unmatchedWarning_ne_expiredWarning (suppression other : AuditSuppression) :
    suppression.unmatchedWarning ≠ other.expiredWarning := by
  intro h
  have hlast := congrArg (fun text => text.toList.getLast?) h
  unfold AuditSuppression.unmatchedWarning AuditSuppression.expiredWarning at hlast
  simp only [String.toList_append] at hlast
  rw [List.getLast?_append_of_ne_nil _ (by decide), List.getLast?_append_of_ne_nil _ (by decide)] at hlast
  exact absurd hlast (by decide)

theorem mem_suppressionWarnings {text : String} :
    text ∈ suppressionWarnings suppressions today findings ↔
      (∃ suppression ∈ suppressions, suppression.comparesExpired today ∧ suppression.expiredWarning = text) ∨
      ∃ suppression ∈ suppressions, suppression.comparesExpired today = false ∧
        suppression.id ∉ usedSuppressions suppressions today findings ∧
        suppression.unmatchedWarning = text := by
  unfold suppressionWarnings
  rw [List.mem_insertionSort, List.mem_dedup, List.mem_append, List.mem_map, List.mem_map]
  simp only [List.mem_filter, and_assoc, Bool.and_eq_true, Bool.not_eq_true', List.contains_eq_mem,
    decide_eq_false_iff_not]

theorem expiredWarning_mem_iff (h : validateAudit suppressions = .ok ()) (hmem : suppression ∈ suppressions) :
    suppression.expiredWarning ∈ suppressionWarnings suppressions today findings ↔
      suppression.comparesExpired today := by
  rw [mem_suppressionWarnings]
  constructor
  · rintro (⟨found, hfound, hexpired, htext⟩ | ⟨found, -, -, -, htext⟩)
    · have hdates := (validateSuppressions_ok h).2.2
      have hsize := (utf8ByteSize_of_isIsoDate (hdates found hfound)).trans
        (utf8ByteSize_of_isIsoDate (hdates suppression hmem)).symm
      rwa [← eq_of_id h hfound hmem (expiredWarning_inj htext hsize)]
    · exact absurd htext (unmatchedWarning_ne_expiredWarning _ _)
  · exact fun hexpired => .inl ⟨suppression, hmem, hexpired, rfl⟩

theorem unmatchedWarning_mem_iff (h : validateAudit suppressions = .ok ()) (hmem : suppression ∈ suppressions) :
    suppression.unmatchedWarning ∈ suppressionWarnings suppressions today findings ↔
      suppression.comparesExpired today = false ∧
        suppression.id ∉ usedSuppressions suppressions today findings := by
  rw [mem_suppressionWarnings]
  constructor
  · rintro (⟨found, -, -, htext⟩ | ⟨found, hfound, hcoming, hunused, htext⟩)
    · exact absurd htext.symm (unmatchedWarning_ne_expiredWarning _ _)
    · rw [← eq_of_id h hfound hmem (unmatchedWarning_inj htext)]
      exact ⟨hcoming, hunused⟩
  · exact fun ⟨hcoming, hunused⟩ => .inr ⟨suppression, hmem, hcoming, hunused, rfl⟩

theorem appliedSuppression_eq_some {advisory : Advisory} :
    appliedSuppression suppressions today advisory = some suppression ↔
      suppressions.find? (·.suppresses advisory) = some suppression ∧
        suppression.comparesExpired today = false := by
  unfold appliedSuppression
  rw [Option.bind_eq_some_iff]
  constructor
  · rintro ⟨found, hfound, happlied⟩
    split at happlied
    · cases happlied
    · next hcoming =>
      cases happlied
      exact ⟨hfound, Bool.eq_false_iff.mpr hcoming⟩
  · rintro ⟨hfound, hcoming⟩
    refine ⟨suppression, hfound, ?_⟩
    rw [if_neg (Bool.eq_false_iff.mp hcoming)]

theorem id_mem_usedSuppressions (h : validateAudit suppressions = .ok ()) (hmem : suppression ∈ suppressions) :
    suppression.id ∈ usedSuppressions suppressions today findings ↔
      ∃ finding ∈ findings, suppressions.find? (·.suppresses finding.advisory) = some suppression ∧
        suppression.comparesExpired today = false := by
  unfold usedSuppressions
  rw [List.mem_filterMap]
  refine exists_congr fun finding => and_congr_right fun _ => ?_
  rw [Option.map_eq_some_iff, ← appliedSuppression_eq_some]
  constructor
  · rintro ⟨found, happlied, hid⟩
    have hfound := List.mem_of_find?_eq_some (appliedSuppression_eq_some.mp happlied).1
    rwa [← eq_of_id h hfound hmem hid]
  · exact fun happlied => ⟨suppression, happlied, rfl⟩

end Warnings

-- When the policy is followed
-- ---

section Policy

variable {result : AuditResult} {paths : AuditPaths} {suppressions : List AuditSuppression}
  {minimum : Severity} {deny : Option Severity} {today : CalendarDate} {found : AuditFindingReport}
  {advisory : Advisory} {text : String}

theorem mem_findings : found ∈ (evaluateAudit result paths suppressions minimum deny text).findings ↔
    ∃ finding ∈ result.findings, minimum.rank ≤ finding.advisory.severity.rank ∧
      found = reportFinding paths suppressions text finding := by
  unfold evaluateAudit
  dsimp only
  rw [List.mem_mergeSort, List.mem_filter, List.mem_map]
  constructor
  · rintro ⟨⟨finding, hmem, rfl⟩, hsevere⟩
    exact ⟨finding, hmem, of_decide_eq_true hsevere, rfl⟩
  · rintro ⟨finding, hmem, hsevere, rfl⟩
    exact ⟨⟨finding, hmem, rfl⟩, decide_eq_true hsevere⟩

theorem isSome_suppression (finding : Finding) :
    (reportFinding paths suppressions text finding).suppression.isSome =
      (appliedSuppression suppressions text finding.advisory).isSome :=
  Option.isSome_map

theorem active_reportFinding (finding : Finding) :
    (reportFinding paths suppressions text finding).active =
      (appliedSuppression suppressions text finding.advisory).isNone :=
  Option.isNone_map

theorem isSome_appliedSuppression : (appliedSuppression suppressions text advisory).isSome ↔
    ∃ suppression, suppressions.find? (·.suppresses advisory) = some suppression ∧
      suppression.comparesExpired text = false := by
  rw [Option.isSome_iff_exists]
  exact exists_congr fun suppression => appliedSuppression_eq_some

theorem isSuppressed_iff : isSuppressed suppressions today advisory ↔
    ∃ suppression ∈ suppressions, suppression.suppresses advisory ∧ suppression.expired today = false := by
  unfold isSuppressed
  simp only [List.any_eq_true, Bool.and_eq_true, Bool.not_eq_true']

theorem exists_first (h : isSuppressed suppressions today advisory) :
    ∃ suppression, suppressions.find? (·.suppresses advisory) = some suppression := by
  obtain ⟨suppression, hmem, hmatches, -⟩ := isSuppressed_iff.mp h
  exact Option.isSome_iff_exists.mp (List.find?_isSome.mpr ⟨suppression, hmem, hmatches⟩)

theorem isSuppressed_of_isSome
    (hpassed : ∀ suppression ∈ suppressions, suppression.expired today →
      suppression.comparesExpired today.format)
    (h : (appliedSuppression suppressions today.format advisory).isSome) :
    isSuppressed suppressions today advisory := by
  obtain ⟨suppression, hfirst, hcoming⟩ := isSome_appliedSuppression.mp h
  have hmem := List.mem_of_find?_eq_some hfirst
  have hmatches : suppression.suppresses advisory := by
    simpa using List.find?_some hfirst
  refine isSuppressed_iff.mpr ⟨suppression, hmem, hmatches, Bool.eq_false_iff.mpr fun hexpired => ?_⟩
  rw [hpassed suppression hmem hexpired] at hcoming
  cases hcoming

theorem FirstMatchDecides.isSome_eq (h : FirstMatchDecides result.findings suppressions minimum today)
    {finding : Finding} (hmem : finding ∈ result.findings)
    (hshown : minimum.rank ≤ finding.advisory.severity.rank) :
    (appliedSuppression suppressions today.format finding.advisory).isSome =
      isSuppressed suppressions today finding.advisory := by
  rw [Bool.eq_iff_iff]
  refine ⟨isSuppressed_of_isSome h.passed, fun hsuppressed => ?_⟩
  obtain ⟨suppression, hfirst⟩ := exists_first hsuppressed
  exact isSome_appliedSuppression.mpr
    ⟨suppression, hfirst, h.first finding hmem hshown hsuppressed suppression hfirst⟩

theorem minimum_le (h : validateAuditThresholds minimum deny = .ok ()) {threshold : Severity}
    (hdeny : deny = some threshold) : minimum.rank ≤ threshold.rank := by
  subst hdeny
  unfold validateAuditThresholds at h
  split at h
  · cases h
  · next hnot => simpa using hnot

theorem FirstMatchDecides.denied (h : FirstMatchDecides result.findings suppressions minimum today)
    (hthresholds : validateAuditThresholds minimum deny = .ok ()) :
    (evaluateAudit result paths suppressions minimum deny today.format).denied =
      (result.findings.filter fun finding =>
        !isSuppressed suppressions today finding.advisory &&
          deny.any fun threshold => threshold.rank ≤ finding.advisory.severity.rank).length := by
  unfold evaluateAudit
  dsimp only
  cases hdeny : deny with
  | none =>
    dsimp only [Option.any_none]
    rw [List.filter_eq_nil_iff.mpr fun finding _ => by rw [Bool.and_false]; exact Bool.false_ne_true]
    rfl
  | some threshold =>
    dsimp only [Option.any_some]
    rw [List.filter_map, List.length_map]
    congr 1
    refine List.filter_congr fun finding hmem => ?_
    show ((reportFinding paths suppressions today.format finding).active &&
        decide (threshold.rank ≤ finding.advisory.severity.rank)) = _
    by_cases hsevere : threshold.rank ≤ finding.advisory.severity.rank
    · rw [active_reportFinding, ← h.isSome_eq hmem ((minimum_le hthresholds hdeny).trans hsevere),
        Option.not_isSome]
    · rw [decide_eq_false hsevere, Bool.and_false, Bool.and_false]

/-- **The report of an audit follows the policy** exactly where the first match decides
rightly. -/
theorem followsPolicy_iff (hvalid : validateAudit suppressions = .ok ())
    (hthresholds : validateAuditThresholds minimum deny = .ok ()) :
    FollowsPolicy result.findings suppressions deny today
        (evaluateAudit result paths suppressions minimum deny today.format) ↔
      FirstMatchDecides result.findings suppressions minimum today := by
  constructor
  · intro h
    have hpassed : ∀ suppression ∈ suppressions, suppression.expired today →
        suppression.comparesExpired today.format := fun suppression hmem hexpired =>
      (expiredWarning_mem_iff hvalid hmem).mp (h.expired suppression hmem hexpired)
    refine ⟨hpassed, fun suppression hmem hcoming hnone => ?_,
      fun finding hmem hsevere hsuppressed suppression hfirst => ?_, fun suppression hmem hmatches hcoming => ?_⟩
    · exact ((unmatchedWarning_mem_iff hvalid hmem).mp (h.unmatched suppression hmem hcoming hnone)).1
    · have hshown := h.suppressed _ (mem_findings.mpr ⟨finding, hmem, hsevere, rfl⟩)
      rw [isSome_suppression] at hshown
      obtain ⟨applied, hfound, hcompares⟩ := isSome_appliedSuppression.mp (hshown.trans hsuppressed)
      rwa [Option.some.inj (hfirst.symm.trans hfound)]
    · have hused : suppression.id ∈ usedSuppressions suppressions today.format result.findings := by
        by_contra hunused
        exact h.matched suppression hmem hmatches
          ((unmatchedWarning_mem_iff hvalid hmem).mpr ⟨hcoming, hunused⟩)
      obtain ⟨finding, hfinding, hfirst, -⟩ := (id_mem_usedSuppressions hvalid hmem).mp hused
      exact ⟨finding, hfinding, hfirst⟩
  · intro h
    refine ⟨fun found hfound => ?_, h.denied hthresholds, fun threshold hdeny finding hmem hsevere _ => ?_,
      fun suppression hmem hexpired => ?_, fun suppression hmem hcoming hnone => ?_,
      fun suppression hmem hmatches hwarned => ?_⟩
    · obtain ⟨finding, hmem, hshown, rfl⟩ := mem_findings.mp hfound
      rw [isSome_suppression]
      exact h.isSome_eq hmem hshown
    · exact ⟨_, mem_findings.mpr ⟨finding, hmem, (minimum_le hthresholds hdeny).trans hsevere, rfl⟩, rfl, rfl⟩
    · exact (expiredWarning_mem_iff hvalid hmem).mpr (h.passed suppression hmem hexpired)
    · refine (unmatchedWarning_mem_iff hvalid hmem).mpr ⟨h.coming suppression hmem hcoming hnone, fun hused => ?_⟩
      obtain ⟨finding, hfinding, hfirst, -⟩ := (id_mem_usedSuppressions hvalid hmem).mp hused
      have hmatches : suppression.suppresses finding.advisory := by
        simpa using List.find?_some hfirst
      exact hnone ⟨finding, hfinding, hmatches⟩
    · obtain ⟨hcoming, hunused⟩ := (unmatchedWarning_mem_iff hvalid hmem).mp hwarned
      obtain ⟨finding, hfinding, hfirst⟩ := h.used suppression hmem hmatches hcoming
      exact hunused ((id_mem_usedSuppressions hvalid hmem).mpr ⟨finding, hfinding, hfirst, hcoming⟩)

end Policy

-- One finding, suppressed under its own name

def findingOfExample : Finding where
  package := ⟨"org.example", "library", "1"⟩
  advisory := ⟨"GHSA-1", ["CVE-1"], "", .high, [], [], none⟩

def resultOfExample : AuditResult := ⟨"fixture", .network, [findingOfExample]⟩

def dayOfExample : CalendarDate := ⟨2026, 9, 19⟩

theorem followsPolicy_one : FollowsPolicy resultOfExample.findings [⟨"GHSA-1", "unused", "2027-01-01"⟩]
    (some .high) dayOfExample (evaluateAudit resultOfExample [] [⟨"GHSA-1", "unused", "2027-01-01"⟩]
      .low (some .high) dayOfExample.format) := by
  refine (followsPolicy_iff (by rfl) (by rfl)).mpr ⟨by decide, ?_, ?_, ?_⟩
  · intro suppression hmem _ _
    obtain rfl := List.mem_singleton.mp hmem
    decide
  · intro finding hmem _ _ suppression hfirst
    obtain rfl := List.mem_singleton.mp hmem
    obtain rfl := Option.some.inj hfirst
    decide
  · intro suppression hmem _ _
    obtain rfl := List.mem_singleton.mp hmem
    exact ⟨findingOfExample, List.mem_singleton_self _, rfl⟩

/-- The finding has a suppression under its alias, which has expired, and after it one
under its own name, which has not. -/
def suppressionsOfAlias : List AuditSuppression :=
  [⟨"CVE-1", "accepted", "2026-01-01"⟩, ⟨"GHSA-1", "accepted", "2027-01-01"⟩]

theorem expired_suppression_hides_another :
    validateAudit suppressionsOfAlias = .ok () ∧ validateAuditThresholds .low (some .high) = .ok () ∧
      isSuppressed suppressionsOfAlias dayOfExample findingOfExample.advisory ∧
      ¬ FollowsPolicy resultOfExample.findings suppressionsOfAlias (some .high) dayOfExample
        (evaluateAudit resultOfExample [] suppressionsOfAlias .low (some .high) dayOfExample.format) := by
  refine ⟨by rfl, by rfl, by decide, fun h => ?_⟩
  have hshown := h.suppressed _ (mem_findings.mpr ⟨findingOfExample, List.mem_singleton_self _, by decide, rfl⟩)
  exact absurd hshown (by decide)

-- Dates in their usual form
-- ---

section Format

variable {k n m : Nat}

theorem padded_one (h : n < 10) : CalendarDate.padded 1 n = [Nat.digitChar n] := by
  unfold CalendarDate.padded
  rw [Nat.toDigits_of_lt_base h]
  rfl

theorem padded_concat (hk : 0 < k) (n : Nat) :
    CalendarDate.padded (k + 1) n = CalendarDate.padded k (n / 10) ++ [Nat.digitChar (n % 10)] := by
  unfold CalendarDate.padded
  by_cases hn : n < 10
  · obtain ⟨j, rfl⟩ := Nat.exists_eq_add_of_lt hk
    rw [Nat.toDigits_of_lt_base hn, Nat.div_eq_of_lt hn, Nat.mod_eq_of_lt hn, Nat.toDigits_zero]
    simp only [Nat.zero_add, List.length_singleton, Nat.add_sub_cancel]
    rw [List.replicate_succ' (n := j)]
  · rw [Nat.toDigits_of_base_le (by decide) (Nat.le_of_not_lt hn)]
    simp only [List.length_append, List.length_singleton, Nat.add_sub_add_right]
    rw [List.append_assoc]

theorem length_padded (hk : 0 < k) (hn : n < 10 ^ k) : (CalendarDate.padded k n).length = k := by
  unfold CalendarDate.padded
  have := (Nat.length_toDigits_le_iff (b := 10) (by decide) hk).mpr hn
  rw [List.length_append, List.length_replicate]
  omega

theorem append_lt_append_iff {front front' back back' : List Char} (h : front.length = front'.length) :
    front ++ back < front' ++ back' ↔ front < front' ∨ (front = front' ∧ back < back') := by
  induction front generalizing front' with
  | nil =>
    rw [List.eq_nil_of_length_eq_zero h.symm]
    simp
  | cons c front ih =>
    cases front' with
    | nil => cases h
    | cons c' front' =>
      rw [List.cons_append, List.cons_append, List.cons_lt_cons_iff, List.cons_lt_cons_iff,
        ih (Nat.succ.inj h), List.cons.injEq]
      tauto

theorem digit_lt_iff {a b : Nat} (ha : a < 10) (hb : b < 10) :
    [Nat.digitChar a] < [Nat.digitChar b] ↔ a < b := by
  have htable : ∀ a : Fin 10, ∀ b : Fin 10, Nat.digitChar a < Nat.digitChar b ↔ a.val < b.val := by decide
  rw [List.cons_lt_cons_iff, htable ⟨a, ha⟩ ⟨b, hb⟩]
  exact or_iff_left fun h => List.not_lt_nil _ h.2

theorem padded_lt_iff (hk : 0 < k) (hn : n < 10 ^ k) (hm : m < 10 ^ k) :
    CalendarDate.padded k n < CalendarDate.padded k m ↔ n < m := by
  induction k, hk using Nat.le_induction generalizing n m with
  | base =>
    rw [padded_one hn, padded_one hm, digit_lt_iff hn hm]
  | succ k hk ih =>
    have hn' : n / 10 < 10 ^ k := by omega
    have hm' : m / 10 < 10 ^ k := by omega
    have hsame : CalendarDate.padded k (n / 10) = CalendarDate.padded k (m / 10) ↔ n / 10 = m / 10 := by
      refine ⟨fun heq => ?_, congrArg _⟩
      have hnot : ¬ n / 10 < m / 10 := fun hlt => List.lt_irrefl _ (heq ▸ (ih hn' hm').mpr hlt)
      have hnot' : ¬ m / 10 < n / 10 := fun hlt => List.lt_irrefl _ (heq ▸ (ih hm' hn').mpr hlt)
      omega
    rw [padded_concat hk, padded_concat hk,
      append_lt_append_iff ((length_padded hk hn').trans (length_padded hk hm').symm), ih hn' hm', hsame,
      digit_lt_iff (Nat.mod_lt _ (by decide)) (Nat.mod_lt _ (by decide))]
    omega

theorem padded_inj (hk : 0 < k) (hn : n < 10 ^ k) (hm : m < 10 ^ k)
    (h : CalendarDate.padded k n = CalendarDate.padded k m) : n = m := by
  have hnot : ¬ n < m := fun hlt => List.lt_irrefl _ (h ▸ (padded_lt_iff hk hn hm).mpr hlt)
  have hnot' : ¬ m < n := fun hlt => List.lt_irrefl _ (h ▸ (padded_lt_iff hk hm hn).mpr hlt)
  omega

def CalendarDate.Writable (date : CalendarDate) : Prop :=
  date.year < 10000 ∧ date.month < 100 ∧ date.day < 100

variable {date today : CalendarDate}

theorem format_lt_iff (h : date.Writable) (htoday : today.Writable) : date.format < today.format ↔ date.Before today := by
  have hyear : (CalendarDate.padded 4 date.year).length = (CalendarDate.padded 4 today.year).length :=
    (length_padded (by decide) h.1).trans (length_padded (by decide) htoday.1).symm
  have hmonth : (CalendarDate.padded 2 date.month).length = (CalendarDate.padded 2 today.month).length :=
    (length_padded (by decide) h.2.1).trans (length_padded (by decide) htoday.2.1).symm
  have hyears : CalendarDate.padded 4 date.year = CalendarDate.padded 4 today.year ↔ date.year = today.year :=
    ⟨padded_inj (by decide) h.1 htoday.1, congrArg _⟩
  have hmonths : CalendarDate.padded 2 date.month = CalendarDate.padded 2 today.month ↔
      date.month = today.month :=
    ⟨padded_inj (by decide) h.2.1 htoday.2.1, congrArg _⟩
  rw [String.lt_iff_toList_lt, CalendarDate.format, CalendarDate.format, String.toList_ofList,
    String.toList_ofList, List.append_assoc, List.append_assoc, List.cons_append, List.cons_append,
    append_lt_append_iff hyear, List.cons_lt_cons_iff, append_lt_append_iff hmonth,
    List.cons_lt_cons_iff, padded_lt_iff (by decide) h.1 htoday.1, padded_lt_iff (by decide) h.2.1 htoday.2.1,
    padded_lt_iff (by decide) h.2.2 htoday.2.2, hyears, hmonths]
  simp only [lt_irrefl, false_or, true_and]
  rfl

end Format

end JMan.Cli
