import Mathlib.Logic.Function.Basic
import JMan.Cli.OsvPaging
import JMan.Lib.Blocks

/-!
# JMan — the cache of audits

`Auditor` of `jman-audit/src/cache.rs`. An audit reads the file that is named after its
packages, and answers from it or asks the provider, whose answer replaces the file. Any
number of audits run side by side on one directory, whose files may be damaged or deleted;
any write may fail. What the providers have answered is recorded beside the files.

* `Genuine.step` — files, and what audits have read of them, hold answers to the packages
  the files are named after.
* `audits_are_genuine` — so do all results.
-/

namespace JMan.Cli

open Encoding (Bytes Distinguishes utf8 utf8_injective)

structure VulnerabilityProvider where
  name : String
  cacheIdentity : String

structure AuditQuery where
  provider : VulnerabilityProvider
  packages : List AuditPackage

structure AuditOptions where
  offline : Bool
  refresh : Bool
  ttl : Nat

structure CachedAudit where
  schemaVersion : Nat
  fetchedAt : Nat
  provider : String
  findings : List Finding

inductive AuditorError where
  | provider (error : AuditError)
  | cache (path : List String) (message : String)
  | invalidCache (path : List String) (message : String)
  | offlineMiss

def AuditQuery.of (provider : VulnerabilityProvider) (packages : List AuditPackage) : AuditQuery :=
  ⟨provider, (packages.mergeSort fun left right => (left.cmp right).isLE).dedup⟩

def cacheDirectoryName (provider : String) : String :=
  let value := provider.map fun c => if c.isAlphanum || c = '-' || c = '_' then c else '_'
  if value = "" || value.toList.all (· = '.') then "provider" else value

def AuditPackage.fields (package : AuditPackage) : List String :=
  [package.group, package.artifact, package.version]

/-- What `cache_path` hashes. -/
def AuditQuery.hashed (query : AuditQuery) : Bytes :=
  utf8 query.provider.cacheIdentity ++
    (query.packages.flatMap AuditPackage.fields).flatMap fun field => 0 :: utf8 field

def CachedAudit.isFresh (cache : CachedAudit) (ttl now : Nat) : Bool :=
  cache.schemaVersion = 1 && cache.fetchedAt ≤ min (now + 300) 0xFFFFFFFFFFFFFFFF &&
    now - cache.fetchedAt ≤ ttl

def CachedAudit.intoResult (cache : CachedAudit) (source : AuditSource) : AuditResult :=
  ⟨cache.provider, source, cache.findings⟩

/-- What is at a path, or how reading or parsing it fails. -/
abbrev CacheFile := Except AuditorError CachedAudit

abbrev CacheRead := Except AuditorError (Option CachedAudit)

def readCache (path : List String) : Option CacheFile → CacheRead
  | none => .ok none
  | some (.error error) => .error error
  | some (.ok cache) =>
    if cache.schemaVersion ≠ 1 then
      .error (.invalidCache path ("unsupported schema version " ++ toString cache.schemaVersion))
    else .ok (some cache)

-- Audits side by side
-- ---

/-- The files, what has been read by the audits that wait for their providers, and what the
providers have answered. -/
structure AuditState where
  files : List String → Option CacheFile
  asked : List (AuditQuery × CacheRead)
  answers : List (AuditQuery × CachedAudit)

inductive AuditEvent where
  | audit (provider : VulnerabilityProvider) (packages : List AuditPackage) (options : AuditOptions)
      (now : Nat)
  | reply (index : Nat) (reply : Except AuditError (List Finding)) (now : Nat)
      (written : Except AuditorError Unit)
  | damage (path : List String) (error : Option AuditorError)

abbrev AuditOutcome := Option (Except AuditorError AuditResult)

/-- What `audit` answers without the provider. -/
def answerFromCache (options : AuditOptions) (now : Nat) : CacheRead → AuditOutcome
  | .error error => if options.offline then some (.error error) else none
  | .ok none => if options.offline then some (.error .offlineMiss) else none
  | .ok (some cache) =>
    if options.offline || (!options.refresh && cache.isFresh options.ttl now) then
      some (.ok (cache.intoResult .cache))
    else none

/-- `cache_path`, below the cache directory -/
def AuditQuery.cachePath (sha256 : Bytes → String) (query : AuditQuery) : List String :=
  ["audit", cacheDirectoryName query.provider.name, sha256 query.hashed ++ ".json"]

namespace AuditState

section Steps

variable (sha256 : Bytes → String) (s : AuditState)

/-- `audit`, up to the query -/
def audit (query : AuditQuery) (options : AuditOptions) (now : Nat) : AuditState × AuditOutcome :=
  let cached := readCache (query.cachePath sha256) (s.files (query.cachePath sha256))
  match answerFromCache options now cached with
  | some outcome => (s, some outcome)
  | none => ({ s with asked := (query, cached) :: s.asked }, none)

/-- `audit`, from the query on -/
def reply (query : AuditQuery) (cached : CacheRead) (now : Nat)
    (written : Except AuditorError Unit) : Except AuditError (List Finding) → AuditState × AuditOutcome
  | .ok findings =>
    let sorted := findings.mergeSort fun left right =>
      ((left.package.cmp right.package).then (compare left.advisory.id right.advisory.id)).isLE
    let cache := ⟨1, now, query.provider.name, sorted⟩
    let answered := { s with answers := (query, cache) :: s.answers }
    match written with
    | .error error => (answered, some (.error error))
    | .ok () =>
      ({ answered with files := Function.update s.files (query.cachePath sha256) (some (.ok cache)) },
        some (.ok (cache.intoResult .network)))
  | .error error =>
    match cached with
    | .ok (some cache) => (s, some (.ok (cache.intoResult .staleCache)))
    | _ => (s, some (.error (.provider error)))

def step : AuditEvent → AuditState × AuditOutcome
  | .audit provider packages options now => s.audit sha256 (.of provider packages) options now
  | .reply index answer now written =>
    match s.asked[index]? with
    | none => (s, none)
    | some (query, cached) => reply sha256 { s with asked := s.asked.eraseIdx index } query cached now written answer
  | .damage path error => ({ s with files := Function.update s.files path (error.map .error) }, none)

def run (events : List AuditEvent) : AuditState :=
  events.foldl (fun s event => (s.step sha256 event).1) ⟨fun _ => none, [], []⟩

-- Answers
-- ---

/-- A provider has given this answer to a query with the same file. -/
def Answered (query : AuditQuery) (cache : CachedAudit) : Prop :=
  ∃ other, (other, cache) ∈ s.answers ∧ other.cachePath sha256 = query.cachePath sha256

structure Genuine : Prop where
  files : ∀ query cache, s.files (query.cachePath sha256) = some (.ok cache) → s.Answered sha256 query cache
  asked : ∀ query cache, (query, .ok (some cache)) ∈ s.asked → s.Answered sha256 query cache

/-- What a result says of itself; `s'` is the state after the event. -/
def Justified (s' : AuditState) (result : AuditResult) : AuditEvent → Prop
  | .audit provider packages options now => ∃ cache, s'.Answered sha256 (.of provider packages) cache ∧
      result = cache.intoResult .cache ∧
      (options.offline ∨ (options.refresh = false ∧ cache.isFresh options.ttl now))
  | .reply index reply now _ => ∃ query cached cache, s.asked[index]? = some (query, cached) ∧
      s'.Answered sha256 query cache ∧
      ((result = cache.intoResult .network ∧ cache.fetchedAt = now ∧
          ∃ findings, reply = .ok findings ∧ result.findings.Perm findings) ∨
        (result = cache.intoResult .staleCache ∧ ∃ error, reply = .error error))
  | .damage _ _ => False

end Steps

section Genuine

variable {sha256 : Bytes → String} {s : AuditState}

theorem readCache_eq_ok {path : List String} {file : Option CacheFile} {cache : CachedAudit}
    (h : readCache path file = .ok (some cache)) : file = some (.ok cache) := by
  unfold readCache at h
  grind

theorem answerFromCache_eq_ok {options : AuditOptions} {now : Nat} {cached : CacheRead} {result : AuditResult}
    (h : answerFromCache options now cached = some (.ok result)) :
    ∃ cache, cached = .ok (some cache) ∧ result = cache.intoResult .cache ∧
      (options.offline ∨ (options.refresh = false ∧ cache.isFresh options.ttl now)) := by
  unfold answerFromCache at h
  grind

theorem Answered.cons {query : AuditQuery} {cache : CachedAudit} (h : s.Answered sha256 query cache)
    (files : List String → Option CacheFile) (asked : List (AuditQuery × CacheRead))
    (answer : AuditQuery × CachedAudit) :
    Answered sha256 ⟨files, asked, answer :: s.answers⟩ query cache := by
  obtain ⟨other, hmem, hpath⟩ := h
  exact ⟨other, List.mem_cons_of_mem _ hmem, hpath⟩

theorem Genuine.step (h : s.Genuine sha256) (event : AuditEvent) :
    (s.step sha256 event).1.Genuine sha256 ∧ ∀ result, (s.step sha256 event).2 = some (.ok result) →
      s.Justified sha256 (s.step sha256 event).1 result event := by
  obtain ⟨hfiles, hasked⟩ := h
  cases event with
  | damage path error =>
    refine ⟨⟨fun query cache hcache => hfiles query cache ?_, hasked⟩, nofun⟩
    simp only [AuditState.step, Function.update_apply] at hcache
    cases error <;> grind
  | audit provider packages options now =>
    simp only [AuditState.step, audit, Justified]
    split
    · next outcome houtcome =>
      refine ⟨⟨hfiles, hasked⟩, fun result hresult => ?_⟩
      obtain rfl := Option.some.inj hresult
      obtain ⟨cache, hcache, hanswer⟩ := answerFromCache_eq_ok houtcome
      exact ⟨cache, hfiles _ cache (readCache_eq_ok hcache), hanswer⟩
    · refine ⟨⟨hfiles, fun query cache hmem => ?_⟩, nofun⟩
      rcases List.mem_cons.mp hmem with heq | hold
      · injection heq with hquery hcached
        subst hquery
        exact hfiles _ cache (readCache_eq_ok hcached.symm)
      · exact hasked query cache hold
  | reply index reply now written =>
    simp only [AuditState.step, Justified]
    split
    · exact ⟨⟨hfiles, hasked⟩, nofun⟩
    · next query cached hflight =>
      have hleft : ∀ query cache, (query, .ok (some cache)) ∈ s.asked.eraseIdx index →
          s.Answered sha256 query cache := fun query cache hmem => hasked query cache (List.mem_of_mem_eraseIdx hmem)
      cases reply with
      | error error =>
        rcases cached with cached | _ | cache
        · exact ⟨⟨hfiles, hleft⟩, nofun⟩
        · exact ⟨⟨hfiles, hleft⟩, nofun⟩
        · refine ⟨⟨hfiles, hleft⟩, fun result hresult => ?_⟩
          cases hresult
          exact ⟨query, _, cache, hflight, hasked query cache (List.mem_of_getElem? hflight), .inr ⟨rfl, error, rfl⟩⟩
      | ok findings =>
        cases written with
        | error error =>
          exact ⟨⟨fun _ _ hcache => (hfiles _ _ hcache).cons _ _ _, fun _ _ hmem => (hleft _ _ hmem).cons _ _ _⟩, nofun⟩
        | ok _ =>
          refine ⟨⟨fun other cache hcache => ?_, fun _ _ hmem => (hleft _ _ hmem).cons _ _ _⟩, fun result hresult => ?_⟩
          · simp only [reply, Function.update_apply] at hcache
            split at hcache
            · -- the file that was written has the answer just given
              next heq =>
              cases hcache
              exact ⟨query, List.mem_cons_self, heq.symm⟩
            · exact (hfiles other cache hcache).cons _ _ _
          · cases hresult
            exact ⟨query, cached, _, hflight, ⟨query, List.mem_cons_self, rfl⟩,
              .inl ⟨rfl, rfl, findings, rfl, List.mergeSort_perm _ _⟩⟩

theorem genuine_run (events : List AuditEvent) : (run sha256 events).Genuine sha256 := by
  induction events using List.reverseRecOn with
  | nil => exact ⟨by rintro _ _ ⟨⟩, by rintro _ _ ⟨⟩⟩
  | append_singleton events event ih =>
    rw [run, List.foldl_concat, ← run]
    exact (ih.step event).1

end Genuine

end AuditState

-- The names of the files
-- ---

/-- No text that is hashed has a byte zero in it. -/
def AuditQuery.Plain (query : AuditQuery) : Prop :=
  0 ∉ utf8 query.provider.cacheIdentity ∧ ∀ field ∈ query.packages.flatMap AuditPackage.fields, 0 ∉ utf8 field

theorem fields_injective : ∀ {left right : List AuditPackage},
    left.flatMap AuditPackage.fields = right.flatMap AuditPackage.fields → left = right
  | [], [], _ => rfl
  | [], _ :: _, h => by cases h
  | _ :: _, [], h => by cases h
  | ⟨_, _, _⟩ :: lefts, ⟨_, _, _⟩ :: rights, h => by
    simp only [List.flatMap_cons, AuditPackage.fields, List.cons_append, List.nil_append, List.cons.injEq] at h
    obtain ⟨rfl, rfl, rfl, hrest⟩ := h
    rw [fields_injective hrest]

theorem AuditQuery.Plain.eq_of_hashed {query other : AuditQuery} (h : query.Plain) (h' : other.Plain)
    (hsame : query.hashed = other.hashed) :
    query.provider.cacheIdentity = other.provider.cacheIdentity ∧ query.packages = other.packages := by
  let zero : UInt8 → Prop := fun b => b = 0
  have hfree : ∀ {bytes : Bytes}, 0 ∉ bytes → ∀ b ∈ bytes, ¬ zero b := fun hbytes b hb heq => hbytes (heq ▸ hb)
  -- a zero opens every field
  have hblocks : ∀ query : AuditQuery, query.Plain →
      ∀ block ∈ (query.packages.flatMap AuditPackage.fields).map fun field => 0 :: utf8 field,
        Blocks.IsBlock zero block := by
    intro query hplain block hblock
    obtain ⟨field, hfield, rfl⟩ := List.mem_map.mp hblock
    exact ⟨rfl, hfree (hplain.2 field hfield)⟩
  obtain ⟨hidentity, hfields⟩ := Blocks.append_inj_of_opens (hfree h.1) (hfree h'.1)
    (Blocks.opens_flatten (hblocks query h)) (Blocks.opens_flatten (hblocks other h')) hsame
  have hparts := Blocks.flatten_injective (hblocks query h) (hblocks other h') hfields
  exact ⟨utf8_injective hidentity, fields_injective
    (List.map_injective_iff.mpr (fun _ _ heq => utf8_injective (List.cons.inj heq).2) hparts)⟩

/-- **Every result is an answer to its query.** In every run of audits side by side, whatever
is damaged and whatever fails, a provider has given the findings of a result to a query with
the same file: just now, or within the time to live, or at any time if the audit is offline
or the provider fails. Queries with the same file are about the same packages. -/
theorem audits_are_genuine (sha256 : Bytes → String) (events : List AuditEvent) :
    (∀ event result, ((AuditState.run sha256 events).step sha256 event).2 = some (.ok result) →
      (AuditState.run sha256 events).Justified sha256
        ((AuditState.run sha256 events).step sha256 event).1 result event) ∧
    ∀ query other : AuditQuery, query.cachePath sha256 = other.cachePath sha256 → query.Plain → other.Plain →
      Distinguishes sha256 query.hashed other.hashed →
        query.provider.cacheIdentity = other.provider.cacheIdentity ∧ query.packages = other.packages := by
  refine ⟨fun event => ((AuditState.genuine_run events).step event).2, fun query other hpath h h' hsha => ?_⟩
  simp only [AuditQuery.cachePath, List.cons.injEq, String.append_left_inj] at hpath
  exact h.eq_of_hashed h' (hsha hpath.2.2.1)

end JMan.Cli
