import Mathlib.Data.Set.Finite.Lattice
import JMan.Build.FatArchive
import JMan.Cli.Audit

/-!
# JMan — vulnerabilities by pages

`OsvProvider::query_inner` of `jman-audit/src/osv.rs`. Each round asks for the next page
of every package that has one, in batches whose results are matched by position; then the
records of all identifiers are loaded.

The server answers a batch of queries and tells a record by its identifier. Both may fail;
the main result is about a server that answers every query of a batch at its position. What
a score means in numbers (`scored`) is a parameter.

* `query_spec` — the query returns; it has united the pages of every package, or tells a
  token that came twice or an identifier that is blank.
-/

namespace JMan.Cli

open JMan.Config
open Loop (Outcome Reaches Returns)

-- The server
-- ---

inductive AuditError where
  | provider (message : String)
  | invalidResponse (message : String)
deriving DecidableEq

structure OsvQuery where
  version : String
  name : String
  ecosystem : String
  pageToken : Option String
deriving DecidableEq

structure BatchResult where
  vulns : List String
  nextPageToken : Option String
deriving DecidableEq

def BatchResult.hasBlank (result : BatchResult) : Bool := result.vulns.any isBlank

structure OsvAffected where
  ecosystem : String
  name : String
  severity : List String
  ranges : List (List (Option String))
  databaseSeverity : Option String
  ecosystemSeverity : Option String
deriving DecidableEq

structure OsvAdvisory where
  id : String
  aliases : List String
  summary : Option String
  details : Option String
  modified : Option String
  withdrawn : Option String
  severity : List String
  affected : List OsvAffected
  references : List String
  databaseSeverity : Option String
deriving DecidableEq, Inhabited

structure OsvServer where
  queryBatch : List OsvQuery → Except AuditError (List BatchResult)
  vulnerability : String → Except AuditError OsvAdvisory

namespace AuditPackage

def name (package : AuditPackage) : String := package.group ++ ":" ++ package.artifact

def coordinate (package : AuditPackage) : String :=
  package.group ++ ":" ++ package.artifact ++ ":" ++ package.version

end AuditPackage

-- Advisories
-- ---

namespace Severity

def fromLabel (value : String) : Severity :=
  let label := (trim value).map Char.toLower
  if label = "low" then .low
  else if label = "medium" ∨ label = "moderate" then .medium
  else if label = "high" then .high
  else if label = "critical" then .critical
  else .unknown

def max (left right : Severity) : Severity := if left.rank ≤ right.rank then right else left

end Severity

def severityFromDatabase (severity : Option String) : Severity :=
  (severity.map Severity.fromLabel).getD .unknown

def severityFromScore (scored : String → Option Severity) (value : String) : Severity :=
  (scored value).getD (Severity.fromLabel value)

/-- `sort` and `dedup`. -/
def sortedDedup (values : List String) : List String := (values.insertionSort (· ≤ ·)).dedup

def summaryOf (record : OsvAdvisory) : String :=
  let line := record.details.bind fun details => (Lines.lines details.toList).head?
  trim (((record.summary.filter fun summary => !isBlank summary).or
    (line.map String.ofList)).getD "No advisory summary supplied")

def translateAdvisory (scored : String → Option Severity) (record : OsvAdvisory)
    (package : AuditPackage) : Advisory :=
  let affected := record.affected.filter fun affected =>
    affected.ecosystem.map Char.toLower = "maven" && affected.name = package.name
  let severity := record.severity.foldl (fun severity score =>
    severity.max (severityFromScore scored score)) (severityFromDatabase record.databaseSeverity)
  let severity := affected.foldl (fun severity affected =>
    affected.severity.foldl (fun severity score => severity.max (severityFromScore scored score))
      ((severity.max (severityFromDatabase affected.databaseSeverity)).max
        (severityFromDatabase affected.ecosystemSeverity))) severity
  { id := record.id
    aliases := sortedDedup record.aliases
    summary := summaryOf record
    severity
    fixedVersions :=
      sortedDedup (affected.flatMap fun affected => affected.ranges.flatMap (·.filterMap id))
    references := sortedDedup record.references
    modified := record.modified }

-- Rounds of pages
-- ---

namespace Osv

structure PendingQuery where
  index : Nat
  package : AuditPackage
  pageToken : Option String
deriving DecidableEq

def queryOf (package : AuditPackage) (pageToken : Option String) : OsvQuery :=
  ⟨package.version, package.name, "Maven", pageToken⟩

def PendingQuery.query (query : PendingQuery) : OsvQuery := queryOf query.package query.pageToken

/-- What has been collected, and the queries of the next round. -/
structure Paging where
  identifiers : List (Finset String)
  seenPageTokens : Finset (Nat × String)
  next : List PendingQuery

def blankIdentifier : AuditError :=
  .invalidResponse "OSV returned a vulnerability without an ID"

def repeatedToken (package : AuditPackage) : AuditError :=
  .invalidResponse ("OSV repeated a pagination token for " ++ package.coordinate)

def takeResult (s : Paging) (query : PendingQuery) (result : BatchResult) :
    Except AuditError Paging :=
  if result.hasBlank then .error blankIdentifier
  else
    let identifiers := s.identifiers.modify query.index (· ∪ result.vulns.toFinset)
    match result.nextPageToken with
    | none => .ok { s with identifiers }
    | some token =>
      if (query.index, token) ∈ s.seenPageTokens then .error (repeatedToken query.package)
      else .ok
        { identifiers
          seenPageTokens := insert (query.index, token) s.seenPageTokens
          next := s.next ++ [⟨query.index, query.package, some token⟩] }

def takeChunk (server : OsvServer) (s : Paging) (chunk : List PendingQuery) :
    Except AuditError Paging := do
  let results ← server.queryBatch (chunk.map PendingQuery.query)
  if results.length ≠ chunk.length then
    .error (.invalidResponse ("OSV returned " ++ toString results.length ++
      " batch results for " ++ toString chunk.length ++ " queries"))
  else (chunk.zip results).foldlM (fun s entry => takeResult s entry.1 entry.2) s

def chunks {α : Type*} (size : Nat) (items : List α) : List (List α) :=
  match items with
  | [] => []
  | item :: rest =>
    (item :: rest.take (size - 1)) :: chunks size (rest.drop (size - 1))
termination_by items.length
decreasing_by
  rw [List.length_drop, List.length_cons]
  omega

def maxBatchSize : Nat := 1000

def round (server : OsvServer) (s : Paging) : Except AuditError Paging :=
  (chunks maxBatchSize s.next).foldlM (takeChunk server) { s with next := [] }

def step (server : OsvServer) (s : Paging) :
    Outcome Paging (Except AuditError (List (Finset String))) :=
  if s.next = [] then .stop (.ok s.identifiers)
  else
    match round server s with
    | .error e => .stop (.error e)
    | .ok s' => .next s'

def start (packages : List AuditPackage) : Paging where
  identifiers := packages.map fun _ => ∅
  seenPageTokens := ∅
  next := packages.zipIdx.map fun entry => ⟨entry.2, entry.1, none⟩

-- Findings
-- ---

def isSafeIdentifier (identifier : String) : Bool :=
  identifier.toList.all fun c => c.isAlphanum || c = '-' || c = '_' || c = '.'

def loadAdvisory (server : OsvServer) (identifier : String) : Except AuditError OsvAdvisory :=
  if isSafeIdentifier identifier then server.vulnerability identifier
  else .error (.invalidResponse ("OSV returned unsafe advisory ID `" ++ identifier ++ "`"))

/-- The record of an identifier, which bears it. -/
def loadDetail (server : OsvServer) (identifier : String) :
    Except AuditError (String × OsvAdvisory) := do
  let record ← loadAdvisory server identifier
  if record.id ≠ identifier then
    .error (.invalidResponse ("OSV returned advisory `" ++ record.id ++ "` for requested ID `" ++
      identifier ++ "`"))
  else return (identifier, record)

def findingOf (scored : String → Option Severity) (details : List (String × OsvAdvisory))
    (package : AuditPackage) (identifier : String) : Except AuditError (Option Finding) :=
  match details.lookup identifier with
  | none =>
    .error (.invalidResponse ("OSV details are missing for advisory " ++ identifier))
  | some record =>
    if record.withdrawn.isSome then .ok none
    else .ok (some ⟨package, translateAdvisory scored record package⟩)

def uniqueIdentifiers (identifiers : List (Finset String)) : Finset String :=
  identifiers.foldr (· ∪ ·) ∅

/-- The records are loaded eight at a time, and collected by their identifiers. -/
def findings (scored : String → Option Severity) (server : OsvServer)
    (packages : List AuditPackage) (identifiers : List (Finset String)) :
    Except AuditError (List Finding) := do
  let details ← ((uniqueIdentifiers identifiers).sort (· ≤ ·)).mapM (loadDetail server)
  let found ← (packages.zip identifiers).mapM fun entry =>
    (entry.2.sort (· ≤ ·)).mapM (findingOf scored details entry.1)
  return found.flatMap (·.filterMap id)

-- The pages of a package
-- ---

variable {page : OsvQuery → BatchResult} {package : AuditPackage} {packages : List AuditPackage}

/-- The server answers every query of a batch at its position. -/
def Answers (server : OsvServer) (page : OsvQuery → BatchResult) : Prop :=
  ∀ queries, server.queryBatch queries = .ok (queries.map page)

/-- The token of a page, counted from zero, if there are so many pages; the first
has none. -/
def tokenAt (page : OsvQuery → BatchResult) (package : AuditPackage) : Nat → Option (Option String)
  | 0 => some none
  | k + 1 =>
    (tokenAt page package k).bind fun token =>
      ((page (queryOf package token)).nextPageToken).map some

def pageAt (page : OsvQuery → BatchResult) (package : AuditPackage) (k : Nat) :
    Option BatchResult :=
  (tokenAt page package k).map fun token => page (queryOf package token)

def LeadsOn (page : OsvQuery → BatchResult) (package : AuditPackage) (k : Nat) (token : String) :
    Prop :=
  ∃ result, pageAt page package k = some result ∧ result.nextPageToken = some token

/-- Only so many tokens: the pages end, or a token comes again. -/
def FinitePaging (page : OsvQuery → BatchResult) (package : AuditPackage) : Prop :=
  {token | ∃ k, LeadsOn page package k token}.Finite

def RepeatsToken (page : OsvQuery → BatchResult) (package : AuditPackage) : Prop :=
  ∃ j k token, j < k ∧ LeadsOn page package j token ∧ LeadsOn page package k token

/-- The identifiers of the first pages of a package. -/
def FoundBefore (page : OsvQuery → BatchResult) (package : AuditPackage) (r : Nat) (id : String) :
    Prop :=
  ∃ k < r, ∃ result, pageAt page package k = some result ∧ id ∈ result.vulns

theorem pageAt_eq_none_of_le {r k : Nat} (h : pageAt page package r = none) (hk : r ≤ k) :
    pageAt page package k = none := by
  induction k, hk using Nat.le_induction with
  | base => exact h
  | succ k _ ih =>
    rw [pageAt, Option.map_eq_none_iff] at ih ⊢
    rw [tokenAt, ih]
    rfl

theorem finitePaging_of_end {r : Nat} (h : pageAt page package r = none) :
    FinitePaging page package := by
  refine Set.Finite.subset (s := ⋃ k ∈ {k | k < r}, {token | LeadsOn page package k token}) ?_ ?_
  · refine Set.Finite.biUnion (Set.finite_lt_nat r) fun k _ => Set.Subsingleton.finite ?_
    intro token htoken other hother
    obtain ⟨result, hresult, hnext⟩ := htoken
    obtain ⟨result', hresult', hnext'⟩ := hother
    rw [hresult, Option.some.injEq] at hresult'
    rw [hresult', hnext', Option.some.injEq] at hnext
    exact hnext.symm
  · intro token htoken
    obtain ⟨k, hlead⟩ := htoken
    have hk : k < r := by
      by_contra hle
      obtain ⟨result, hresult, -⟩ := hlead
      rw [pageAt_eq_none_of_le h (Nat.le_of_not_lt hle)] at hresult
      cases hresult
    exact Set.mem_biUnion hk hlead

-- One round
-- ---

variable {server : OsvServer} {s s' : Paging} {queries : List PendingQuery}

def takePage (page : OsvQuery → BatchResult) (s : Paging) (query : PendingQuery) :
    Except AuditError Paging := takeResult s query (page query.query)

theorem flatten_chunks {α : Type*} (size : Nat) (items : List α) :
    (chunks size items).flatten = items := by
  fun_induction chunks size items with
  | case1 => rfl
  | case2 item rest ih => rw [List.flatten_cons, ih, List.cons_append, List.take_append_drop]

theorem foldlM_chunks {α β ε : Type} (size : Nat) (f : β → α → Except ε β)
    (items : List α) (b : β) :
    (chunks size items).foldlM (fun b chunk => chunk.foldlM f b) b = items.foldlM f b := by
  conv_rhs => rw [← flatten_chunks size items]
  generalize chunks size items = parts
  induction parts generalizing b with
  | nil => rfl
  | cons part parts ih =>
    rw [List.foldlM_cons, List.flatten_cons, List.foldlM_append]
    exact congrArg _ (funext fun next => ih next)

theorem foldlM_zip_map {α β γ ε : Type} (f : γ → α × β → Except ε γ) (g : α → β) (items : List α)
    (c : γ) :
    (items.zip (items.map g)).foldlM f c = items.foldlM (fun c item => f c (item, g item)) c := by
  induction items generalizing c with
  | nil => rfl
  | cons item items ih =>
    rw [List.map_cons, List.zip_cons_cons, List.foldlM_cons, List.foldlM_cons]
    exact congrArg _ (funext fun next => ih next)

theorem round_eq (hserver : Answers server page) (s : Paging) :
    round server s = s.next.foldlM (takePage page) { s with next := [] } := by
  have hchunk : takeChunk server = fun s chunk => chunk.foldlM (takePage page) s := by
    funext s chunk
    rw [takeChunk, hserver]
    show (if ((chunk.map PendingQuery.query).map page).length ≠ chunk.length then _
      else (chunk.zip ((chunk.map PendingQuery.query).map page)).foldlM _ s) = _
    rw [if_neg (by simp), List.map_map]
    exact foldlM_zip_map _ _ chunk s
  rw [round, hchunk]
  exact foldlM_chunks _ _ _ _

def nextQuery (page : OsvQuery → BatchResult) (query : PendingQuery) : Option PendingQuery :=
  (page query.query).nextPageToken.map fun token => ⟨query.index, query.package, some token⟩

def Paging.found (s : Paging) (index : Nat) : Finset String := s.identifiers.getD index ∅

structure Took (page : OsvQuery → BatchResult) (s : Paging) (queries : List PendingQuery)
    (s' : Paging) : Prop where
  length : s'.identifiers.length = s.identifiers.length
  found : ∀ i < s.identifiers.length, ∀ id, id ∈ s'.found i ↔
    id ∈ s.found i ∨ ∃ query ∈ queries, query.index = i ∧ id ∈ (page query.query).vulns
  seen : ∀ i token, (i, token) ∈ s'.seenPageTokens ↔ (i, token) ∈ s.seenPageTokens ∨
    ∃ query ∈ queries, query.index = i ∧ (page query.query).nextPageToken = some token
  next : s'.next = s.next ++ queries.filterMap (nextQuery page)
  named : ∀ query ∈ queries, (page query.query).hasBlank = false
  fresh : ∀ query ∈ queries, ∀ token, (page query.query).nextPageToken = some token →
    (query.index, token) ∉ s.seenPageTokens

theorem took_nil (s : Paging) : Took page s [] s := by
  constructor <;> simp

theorem found_modify {identifiers : List (Finset String)} {index i : Nat} {more : Finset String}
    (hi : i < identifiers.length) :
    (identifiers.modify index (· ∪ more)).getD i ∅ =
      if index = i then identifiers.getD i ∅ ∪ more else identifiers.getD i ∅ := by
  rw [List.getD_eq_getElem?_getD, List.getD_eq_getElem?_getD, List.getElem?_modify,
    List.getElem?_eq_getElem hi]
  split <;> rfl
theorem took_one {query : PendingQuery} (h : takePage page s query = .ok s') :
    Took page s [query] s' := by
  rw [takePage, takeResult] at h
  split at h
  case isTrue => cases h
  case isFalse hnamed =>
    have hnamed : (page query.query).hasBlank = false := by simpa using hnamed
    have hfound : ∀ i < s.identifiers.length, ∀ id,
        id ∈ (s.identifiers.modify query.index (· ∪ (page query.query).vulns.toFinset)).getD i ∅ ↔
          id ∈ s.found i ∨ query.index = i ∧ id ∈ (page query.query).vulns := by
      intro i hi id
      rw [found_modify hi]
      split
      case isTrue hindex => simp [Paging.found, hindex]
      case isFalse hindex => simp [Paging.found, hindex]
    split at h
    case h_1 htoken =>
      cases h
      exact
        { length := List.length_modify ..
          found := by simpa [Paging.found] using hfound
          seen := by simp [htoken]
          next := by simp [nextQuery, htoken]
          named := by simpa using hnamed
          fresh := by simp [htoken] }
    case h_2 token htoken =>
      split at h
      case isTrue => cases h
      case isFalse hfresh =>
        cases h
        exact
          { length := List.length_modify ..
            found := by simpa [Paging.found] using hfound
            seen := by
              intro i other
              simp [htoken, or_comm, eq_comm]
            next := by simp [nextQuery, htoken]
            named := by simpa using hnamed
            fresh := by simpa [htoken] using hfresh }

theorem Took.cons {query : PendingQuery} {s₁ : Paging} (h : Took page s [query] s₁)
    (h' : Took page s₁ queries s') : Took page s (query :: queries) s' where
  length := h'.length.trans h.length
  found i hi id := by
    rw [h'.found i (by rwa [h.length]), h.found i hi]
    simp [or_assoc]
  seen i token := by
    rw [h'.seen, h.seen]
    simp [or_assoc]
  next := by
    rw [h'.next, h.next]
    cases hq : nextQuery page query <;> simp [hq]
  named q hq := by
    cases List.mem_cons.mp hq with
    | inl hq => exact h.named q (by simp [hq])
    | inr hq => exact h'.named q hq
  fresh q hq token htoken hseen := by
    cases List.mem_cons.mp hq with
    | inl hq => exact h.fresh q (by simp [hq]) token htoken hseen
    | inr hq => exact h'.fresh q hq token htoken ((h.seen _ _).mpr (.inl hseen))

theorem took_of_foldlM (h : queries.foldlM (takePage page) s = .ok s') :
    Took page s queries s' := by
  induction queries generalizing s with
  | nil =>
    obtain rfl := Except.ok.inj h
    exact took_nil s
  | cons query queries ih =>
    rw [List.foldlM_cons] at h
    obtain ⟨s₁, hone, hrest⟩ := Fallible.bind_eq_ok.mp h
    exact (took_one hone).cons (ih hrest)

def Fails (page : OsvQuery → BatchResult) (s : Paging) (queries : List PendingQuery)
    (e : AuditError) : Prop :=
  ∃ query ∈ queries, (page query.query).hasBlank ∧ e = blankIdentifier ∨
    ∃ token, (page query.query).nextPageToken = some token ∧
      (query.index, token) ∈ s.seenPageTokens ∧ e = repeatedToken query.package

theorem fails_one {query : PendingQuery} {e : AuditError} (h : takePage page s query = .error e) :
    Fails page s [query] e := by
  refine ⟨query, List.mem_singleton_self _, ?_⟩
  rw [takePage, takeResult] at h
  split at h
  case isTrue hblank => exact .inl ⟨hblank, (Except.error.inj h).symm⟩
  case isFalse =>
    split at h
    case h_1 => cases h
    case h_2 token htoken =>
      split at h
      case isTrue hseen => exact .inr ⟨token, htoken, hseen, (Except.error.inj h).symm⟩
      case isFalse => cases h

/-- The queries of a round are about different places, so that a token seen in the
round has been seen before it. -/
theorem fails_of_foldlM {e : AuditError} (hdistinct : (queries.map PendingQuery.index).Nodup)
    (h : queries.foldlM (takePage page) s = .error e) : Fails page s queries e := by
  induction queries generalizing s with
  | nil => cases h
  | cons query queries ih =>
    rw [List.map_cons, List.nodup_cons] at hdistinct
    rw [List.foldlM_cons] at h
    cases hone : takePage page s query with
    | error e' =>
      rw [hone] at h
      obtain ⟨q, hq, hfails⟩ := fails_one hone
      obtain rfl : e' = e := Except.error.inj h
      exact ⟨q, by simp [List.mem_singleton.mp hq], hfails⟩
    | ok s₁ =>
      rw [hone] at h
      obtain ⟨q, hq, hfails⟩ := ih hdistinct.2 h
      refine ⟨q, List.mem_cons_of_mem _ hq, hfails.imp_right fun hfails => ?_⟩
      obtain ⟨token, htoken, hseen, he⟩ := hfails
      refine ⟨token, htoken, ?_, he⟩
      cases ((took_one hone).seen _ _).mp hseen with
      | inl hseen => exact hseen
      | inr hseen =>
        obtain ⟨q', hq', hindex, -⟩ := hseen
        rw [List.mem_singleton.mp hq'] at hindex
        exact absurd (hindex ▸ List.mem_map_of_mem hq) hdistinct.1

-- Round after round
-- ---

/-- The queries of a round: every package whose pages go on so far. -/
def pendingAt (page : OsvQuery → BatchResult) (packages : List AuditPackage) (r : Nat) :
    List PendingQuery :=
  packages.zipIdx.filterMap fun entry =>
    (tokenAt page entry.1 r).map fun token => ⟨entry.2, entry.1, token⟩

theorem mem_pendingAt {r : Nat} {query : PendingQuery} :
    query ∈ pendingAt page packages r ↔ packages[query.index]? = some query.package ∧
      tokenAt page query.package r = some query.pageToken := by
  rw [pendingAt, List.mem_filterMap]
  constructor
  · intro h
    obtain ⟨⟨package, index⟩, hentry, hquery⟩ := h
    obtain ⟨token, htoken, rfl⟩ := Option.map_eq_some_iff.mp hquery
    exact ⟨List.mk_mem_zipIdx_iff_getElem?.mp hentry, htoken⟩
  · intro h
    exact ⟨(query.package, query.index), List.mk_mem_zipIdx_iff_getElem?.mpr h.1, by simp [h.2]⟩

theorem nodup_pendingAt (r : Nat) : ((pendingAt page packages r).map PendingQuery.index).Nodup := by
  have hsublist (entries : List (AuditPackage × Nat)) : ((entries.filterMap fun entry =>
      (tokenAt page entry.1 r).map fun token =>
        (⟨entry.2, entry.1, token⟩ : PendingQuery)).map PendingQuery.index).Sublist
      (entries.map Prod.snd) := by
    induction entries with
    | nil => exact List.Sublist.slnil
    | cons entry entries ih =>
      cases htoken : tokenAt page entry.1 r with
      | none => simpa [htoken] using ih.cons entry.2
      | some token => simpa [htoken] using ih.cons_cons entry.2
  refine (hsublist packages.zipIdx).nodup ?_
  rw [List.zipIdx_map_snd]
  exact List.nodup_range'

theorem pendingAt_zero : pendingAt page packages 0 = (start packages).next := by
  simp [pendingAt, start, tokenAt]

theorem pendingAt_succ (r : Nat) :
    (pendingAt page packages r).filterMap (nextQuery page) = pendingAt page packages (r + 1) := by
  rw [pendingAt, pendingAt, List.filterMap_filterMap]
  congr 1
  funext entry
  rw [tokenAt]
  cases tokenAt page entry.1 r with
  | none => rfl
  | some token =>
    show (page (queryOf entry.1 token)).nextPageToken.map _ =
      ((page (queryOf entry.1 token)).nextPageToken.map some).map _
    rw [Option.map_map]
    rfl
theorem pageAt_of_mem {r : Nat} {query : PendingQuery} (h : query ∈ pendingAt page packages r) :
    pageAt page query.package r = some (page query.query) := by
  rw [pageAt, (mem_pendingAt.mp h).2]
  rfl

theorem exists_query {r i : Nat} {result : BatchResult} (hpackage : packages[i]? = some package)
    (hresult : pageAt page package r = some result) :
    ∃ query ∈ pendingAt page packages r, query.index = i ∧ query.package = package ∧
      page query.query = result := by
  obtain ⟨token, htoken, rfl⟩ := Option.map_eq_some_iff.mp hresult
  exact ⟨⟨i, package, token⟩, mem_pendingAt.mpr ⟨hpackage, htoken⟩, rfl, rfl, rfl⟩

/-- What holds after so many rounds: of every package just these many pages have
been collected, each token once. -/
structure Progress (page : OsvQuery → BatchResult) (packages : List AuditPackage) (r : Nat)
    (s : Paging) : Prop where
  length : s.identifiers.length = packages.length
  found : ∀ i package, packages[i]? = some package → ∀ id,
    id ∈ s.found i ↔ FoundBefore page package r id
  seen : ∀ i token, (i, token) ∈ s.seenPageTokens ↔
    ∃ package k, packages[i]? = some package ∧ k < r ∧ LeadsOn page package k token
  next : s.next = pendingAt page packages r
  named : ∀ package ∈ packages, ∀ k < r, ∀ result, pageAt page package k = some result →
    result.hasBlank = false
  distinct : ∀ package ∈ packages, ∀ j k token, j < k → k < r → LeadsOn page package j token →
    ¬ LeadsOn page package k token

theorem progress_start : Progress page packages 0 (start packages) where
  length := List.length_map _
  found i package _ id := by
    have hempty : (start packages).found i = ∅ := by
      rw [Paging.found, start, List.getD_eq_getElem?_getD, List.getElem?_map]
      cases packages[i]? <;> rfl
    simp [hempty, FoundBefore]
  seen := by simp [start]
  next := pendingAt_zero.symm
  named _ _ k hk := absurd hk (Nat.not_lt_zero k)
  distinct _ _ _ k _ _ hk := absurd hk (Nat.not_lt_zero k)

theorem Progress.round {r : Nat} (h : Progress page packages r s)
    (htook : Took page { s with next := [] } (pendingAt page packages r) s') :
    Progress page packages (r + 1) s' where
  length := htook.length.trans h.length
  found i package hpackage id := by
    have hi : i < s.identifiers.length := by
      rw [h.length]
      exact (List.getElem?_eq_some_iff.mp hpackage).1
    rw [htook.found i hi id]
    show id ∈ s.found i ∨ _ ↔ _
    rw [h.found i package hpackage id]
    constructor
    · intro hid
      rcases hid with ⟨k, hk, hid⟩ | ⟨query, hquery, hindex, hid⟩
      · exact ⟨k, by omega, hid⟩
      · have hsame := (mem_pendingAt.mp hquery).1
        rw [hindex, hpackage, Option.some.injEq] at hsame
        exact ⟨r, by omega, _, hsame ▸ pageAt_of_mem hquery, hid⟩
    · intro hid
      obtain ⟨k, hk, result, hresult, hid⟩ := hid
      by_cases hkr : k = r
      · obtain ⟨query, hquery, hindex, -, rfl⟩ := exists_query hpackage (hkr ▸ hresult)
        exact .inr ⟨query, hquery, hindex, hid⟩
      · exact .inl ⟨k, by omega, result, hresult, hid⟩
  seen i token := by
    rw [htook.seen]
    show (i, token) ∈ s.seenPageTokens ∨ _ ↔ _
    rw [h.seen]
    constructor
    · intro hseen
      rcases hseen with ⟨package, k, hpackage, hk, hlead⟩ | ⟨query, hquery, hindex, htoken⟩
      · exact ⟨package, k, hpackage, by omega, hlead⟩
      · exact ⟨query.package, r, hindex ▸ (mem_pendingAt.mp hquery).1, by omega, _,
          pageAt_of_mem hquery, htoken⟩
    · intro hseen
      obtain ⟨package, k, hpackage, hk, hlead⟩ := hseen
      by_cases hkr : k = r
      · obtain ⟨result, hresult, htoken⟩ := hkr ▸ hlead
        obtain ⟨query, hquery, hindex, -, rfl⟩ := exists_query hpackage hresult
        exact .inr ⟨query, hquery, hindex, htoken⟩
      · exact .inl ⟨package, k, hpackage, by omega, hlead⟩
  next := by
    rw [htook.next]
    exact pendingAt_succ r
  named package hmem k hk result hresult := by
    by_cases hkr : k = r
    · obtain ⟨i, hpackage⟩ := List.mem_iff_getElem?.mp hmem
      obtain ⟨query, hquery, -, -, rfl⟩ := exists_query hpackage (hkr ▸ hresult)
      exact htook.named query hquery
    · exact h.named package hmem k (by omega) result hresult
  distinct package hmem j k token hjk hk hj hlead := by
    by_cases hkr : k = r
    · obtain ⟨i, hpackage⟩ := List.mem_iff_getElem?.mp hmem
      obtain ⟨result, hresult, htoken⟩ := hkr ▸ hlead
      obtain ⟨query, hquery, rfl, -, rfl⟩ := exists_query hpackage hresult
      exact htook.fresh query hquery token htoken
        ((h.seen _ _).mpr ⟨package, j, hpackage, by omega, hj⟩)
    · exact h.distinct package hmem j k token hjk (by omega) hj hlead

theorem took_of_step (hserver : Answers server page) (hstep : step server s = .next s') :
    s.next ≠ [] ∧ Took page { s with next := [] } s.next s' := by
  rw [step] at hstep
  split at hstep
  case isTrue => cases hstep
  case isFalse hnext =>
    split at hstep
    case h_1 => cases hstep
    case h_2 hround =>
      cases hstep
      rw [round_eq hserver] at hround
      exact ⟨hnext, took_of_foldlM hround⟩

def Between (page : OsvQuery → BatchResult) (packages : List AuditPackage) (s : Paging) : Prop :=
  ∃ r, Progress page packages r s

theorem Between.step (hserver : Answers server page) (h : Between page packages s)
    (hstep : step server s = .next s') : Between page packages s' := by
  obtain ⟨r, hr⟩ := h
  have htook := (took_of_step hserver hstep).2
  rw [hr.next] at htook
  exact ⟨r + 1, hr.round htook⟩

theorem between_start : Between page packages (start packages) := ⟨0, progress_start⟩

theorem between_of_reaches (hserver : Answers server page)
    (h : Reaches (step server) (start packages) s) : Between page packages s :=
  h.invariant (fun _ _ ha hstep => Between.step hserver ha hstep) between_start

-- The end of the paging
-- ---

/-- Every package has just the identifiers of its own pages. -/
def Unites (page : OsvQuery → BatchResult) (packages : List AuditPackage)
    (identifiers : List (Finset String)) : Prop :=
  List.Forall₂ (fun package found => ∀ id, id ∈ found ↔
    ∃ k result, pageAt page package k = some result ∧ id ∈ result.vulns) packages identifiers

def HasBlankPage (page : OsvQuery → BatchResult) (package : AuditPackage) : Prop :=
  ∃ k result, pageAt page package k = some result ∧ result.hasBlank

/-- What the paging ends with: the union of the pages, where no token repeats and no
identifier is blank, else a token that repeats or a blank identifier. -/
def Ends (page : OsvQuery → BatchResult) (packages : List AuditPackage) :
    Except AuditError (List (Finset String)) → Prop
  | .ok identifiers => Unites page packages identifiers ∧
    ∀ package ∈ packages, ¬ RepeatsToken page package ∧ ¬ HasBlankPage page package
  | .error e => ∃ package ∈ packages,
    RepeatsToken page package ∧ e = repeatedToken package ∨
      HasBlankPage page package ∧ e = blankIdentifier

theorem Progress.ends_ok {r : Nat} (h : Progress page packages r s) (hnext : s.next = []) :
    Ends page packages (.ok s.identifiers) := by
  have hend : ∀ package ∈ packages, ∀ k result, pageAt page package k = some result → k < r := by
    intro package hmem k result hresult
    obtain ⟨i, hpackage⟩ := List.mem_iff_getElem?.mp hmem
    have hnone : pageAt page package r = none := by
      by_contra hsome
      obtain ⟨last, hlast⟩ := Option.ne_none_iff_exists'.mp hsome
      obtain ⟨query, hquery, -⟩ := exists_query hpackage hlast
      rw [← h.next, hnext] at hquery
      cases hquery
    by_contra hle
    rw [pageAt_eq_none_of_le hnone (Nat.le_of_not_lt hle)] at hresult
    cases hresult
  refine ⟨?_, fun package hmem => ⟨fun hrepeats => ?_, fun hblank => ?_⟩⟩
  · refine List.forall₂_iff_get.mpr ⟨h.length.symm, fun i hi hi' id => ?_⟩
    have hpackage : packages[i]? = some packages[i] := List.getElem?_eq_getElem hi
    have hfound := h.found i _ hpackage id
    rw [Paging.found, List.getD_eq_getElem?_getD, List.getElem?_eq_getElem hi'] at hfound
    show id ∈ s.identifiers[i] ↔ _
    refine hfound.trans ⟨fun hid => ?_, fun hid => ?_⟩
    · obtain ⟨k, -, hid⟩ := hid
      exact ⟨k, hid⟩
    · obtain ⟨k, result, hresult, hid⟩ := hid
      exact ⟨k, hend _ (List.getElem_mem hi) k result hresult, result, hresult, hid⟩
  · obtain ⟨j, k, token, hjk, hj, hk⟩ := hrepeats
    obtain ⟨result, hresult, htoken⟩ := hk
    exact h.distinct package hmem j k token hjk (hend package hmem k result hresult) hj
      ⟨result, hresult, htoken⟩
  · obtain ⟨k, result, hresult, hblank⟩ := hblank
    rw [h.named package hmem k (hend package hmem k result hresult) result hresult] at hblank
    cases hblank

theorem Progress.ends_error {r : Nat} (h : Progress page packages r s) {e : AuditError}
    (hfails : Fails page s (pendingAt page packages r) e) : Ends page packages (.error e) := by
  obtain ⟨query, hquery, hfails⟩ := hfails
  have hresult := pageAt_of_mem hquery
  have hpackage := (mem_pendingAt.mp hquery).1
  refine ⟨query.package, List.mem_of_getElem? hpackage, hfails.symm.imp ?_ ?_⟩
  · intro hrepeats
    obtain ⟨token, htoken, hseen, he⟩ := hrepeats
    obtain ⟨package, k, hsame, hk, hlead⟩ := (h.seen _ _).mp hseen
    rw [hpackage, Option.some.injEq] at hsame
    exact ⟨⟨k, r, token, hk, hsame ▸ hlead, _, hresult, htoken⟩, he⟩
  · intro hblank
    exact ⟨⟨r, _, hresult, hblank.1⟩, hblank.2⟩

theorem ends_of_returns (hserver : Answers server page)
    {outcome : Except AuditError (List (Finset String))}
    (h : Returns (step server) (start packages) outcome) : Ends page packages outcome := by
  obtain ⟨s, hreaches, hstop⟩ := h
  obtain ⟨r, hprogress⟩ := between_of_reaches hserver hreaches
  rw [step] at hstop
  split at hstop
  case isTrue hnext =>
    cases hstop
    exact hprogress.ends_ok hnext
  case isFalse =>
    split at hstop
    case h_1 e hround =>
      cases hstop
      rw [round_eq hserver, hprogress.next] at hround
      have hfails := fails_of_foldlM (nodup_pendingAt r) hround
      exact hprogress.ends_error hfails
    case h_2 => cases hstop
/-- Every token that can come, at the places of the packages. -/
def tokens (page : OsvQuery → BatchResult) (packages : List AuditPackage) : Set (Nat × String) :=
  ⋃ i ∈ {i | i < packages.length}, Prod.mk i '' {token | ∃ package k,
    packages[i]? = some package ∧ LeadsOn page package k token}

theorem finite_tokens (hfinite : ∀ package ∈ packages, FinitePaging page package) :
    (tokens page packages).Finite := by
  refine Set.Finite.biUnion (Set.finite_lt_nat _) fun i hi => Set.Finite.image _ ?_
  refine (hfinite _ (List.getElem_mem hi)).subset fun token htoken => ?_
  obtain ⟨package, k, hpackage, hlead⟩ := htoken
  rw [List.getElem?_eq_getElem hi, Option.some.injEq] at hpackage
  exact ⟨k, hpackage ▸ hlead⟩

theorem exists_returns (hserver : Answers server page)
    (hfinite : ∀ package ∈ packages, FinitePaging page package) :
    ∃ outcome, Returns (step server) (start packages) outcome := by
  obtain ⟨all, hall⟩ := (finite_tokens hfinite).exists_finset_coe
  have hseen : ∀ s r, Progress page packages r s → s.seenPageTokens ⊆ all := by
    intro s r h entry hentry
    obtain ⟨package, k, hpackage, -, hlead⟩ := (h.seen entry.1 entry.2).mp hentry
    have hmem : entry ∈ tokens page packages := by
      refine Set.mem_biUnion (List.getElem?_eq_some_iff.mp hpackage).1 ?_
      exact ⟨entry.2, ⟨package, k, hpackage, hlead⟩, rfl⟩
    rwa [← hall] at hmem
  refine Loop.exists_returns_of_measure Nat.lt_wfRel.wf
    (fun s => if s.next = [] then 0 else all.card - s.seenPageTokens.card + 1)
    (fun _ _ ha hstep => Between.step hserver ha hstep) (fun a b ha hstep => ?_) between_start
  obtain ⟨r, hr⟩ := Between.step hserver ha hstep
  obtain ⟨hnext, htook⟩ := took_of_step hserver hstep
  have hcard : b.next ≠ [] → a.seenPageTokens.card < b.seenPageTokens.card := by
    intro hmore
    rw [htook.next] at hmore
    obtain ⟨query, hquery⟩ := List.exists_mem_of_ne_nil _ hmore
    obtain ⟨before, hbefore, hquery⟩ := List.mem_filterMap.mp hquery
    obtain ⟨token, htoken, -⟩ := Option.map_eq_some_iff.mp hquery
    refine Finset.card_lt_card (Finset.ssubset_iff_subset_ne.mpr ⟨fun entry hentry => ?_, ?_⟩)
    · exact (htook.seen _ _).mpr (.inl hentry)
    · intro hsame
      have hnew := (htook.seen before.index token).mpr (.inr ⟨before, hbefore, rfl, htoken⟩)
      rw [← hsame] at hnew
      exact htook.fresh before hbefore token htoken hnew
  have hbound := Finset.card_le_card (hseen b r hr)
  show (if b.next = [] then 0 else all.card - b.seenPageTokens.card + 1) <
    if a.next = [] then 0 else all.card - a.seenPageTokens.card + 1
  rw [if_neg hnext]
  split
  case isTrue => omega
  case isFalse hmore =>
    have hless := hcard hmore
    omega

-- Findings
-- ---

variable {scored : String → Option Severity} {identifiers : List (Finset String)}

def Loads (server : OsvServer) (record : String → OsvAdvisory) (identifier : String) : Prop :=
  loadAdvisory server identifier = .ok (record identifier) ∧ (record identifier).id = identifier

/-- Of every package the identifiers whose records are not withdrawn, in order. -/
def notWithdrawn (scored : String → Option Severity) (record : String → OsvAdvisory)
    (packages : List AuditPackage) (identifiers : List (Finset String)) : List Finding :=
  (packages.zip identifiers).flatMap fun entry =>
    ((entry.2.sort (· ≤ ·)).filter fun id => (record id).withdrawn.isNone).map fun id =>
      ⟨entry.1, translateAdvisory scored (record id) entry.1⟩

theorem mem_uniqueIdentifiers {id : String} :
    id ∈ uniqueIdentifiers identifiers ↔ ∃ found ∈ identifiers, id ∈ found := by
  rw [uniqueIdentifiers]
  induction identifiers with
  | nil => simp
  | cons found identifiers ih => simp [ih]
theorem loadDetail_eq_ok {id : String} {detail : String × OsvAdvisory} :
    loadDetail server id = .ok detail ↔
      loadAdvisory server id = .ok detail.2 ∧ detail.2.id = id ∧ detail.1 = id := by
  rw [loadDetail, Fallible.bind_eq_ok]
  constructor
  · intro h
    obtain ⟨record, hload, h⟩ := h
    split at h
    case isTrue => cases h
    case isFalse hid =>
      cases h
      exact ⟨hload, not_not.mp hid, rfl⟩
  · intro h
    refine ⟨detail.2, h.1, ?_⟩
    rw [if_neg (not_not.mpr h.2.1)]
    exact congrArg Except.ok (Prod.ext h.2.2.symm rfl)

theorem lookup_map_mk {record : String → OsvAdvisory} {ids : List String} {id : String}
    (hid : id ∈ ids) : (ids.map fun id => (id, record id)).lookup id = some (record id) := by
  induction ids with
  | nil => cases hid
  | cons other ids ih =>
    rw [List.map_cons, List.lookup_cons]
    by_cases hsame : id = other
    · simp [hsame]
    · simpa [beq_false_of_ne hsame] using ih ((List.mem_cons.mp hid).resolve_left hsame)

theorem mapM_eq_map {α β ε : Type} {f : α → Except ε β} {g : α → β} {xs : List α}
    (h : ∀ x ∈ xs, f x = .ok (g x)) : xs.mapM f = .ok (xs.map g) := by
  rw [Fallible.mapM_eq_ok, List.forall₂_map_right_iff, List.forall₂_same]
  exact h

theorem findings_of_loads {record : String → OsvAdvisory}
    (h : ∀ found ∈ identifiers, ∀ id ∈ found, Loads server record id) :
    findings scored server packages identifiers =
      .ok (notWithdrawn scored record packages identifiers) := by
  have hunique : ∀ id ∈ (uniqueIdentifiers identifiers).sort (· ≤ ·), Loads server record id := by
    intro id hid
    obtain ⟨found, hfound, hid⟩ := mem_uniqueIdentifiers.mp ((Finset.mem_sort _).mp hid)
    exact h found hfound id hid
  have hdetails : ((uniqueIdentifiers identifiers).sort (· ≤ ·)).mapM (loadDetail server) =
      .ok (((uniqueIdentifiers identifiers).sort (· ≤ ·)).map fun id => (id, record id)) :=
    mapM_eq_map fun id hid => loadDetail_eq_ok.mpr ⟨(hunique id hid).1, (hunique id hid).2, rfl⟩
  have hfinding : ∀ entry ∈ packages.zip identifiers, ∀ id ∈ entry.2.sort (· ≤ ·),
      findingOf scored (((uniqueIdentifiers identifiers).sort (· ≤ ·)).map fun id =>
        (id, record id)) entry.1 id = .ok (if (record id).withdrawn.isSome then none
          else some ⟨entry.1, translateAdvisory scored (record id) entry.1⟩) := by
    intro entry hentry id hid
    have hmem : id ∈ (uniqueIdentifiers identifiers).sort (· ≤ ·) := by
      rw [Finset.mem_sort] at hid ⊢
      exact mem_uniqueIdentifiers.mpr ⟨entry.2, (List.of_mem_zip hentry).2, hid⟩
    rw [findingOf, lookup_map_mk hmem]
    show (if (record id).withdrawn.isSome then _ else _) = _
    split <;> rfl
  have hfound := mapM_eq_map fun entry hentry => mapM_eq_map (hfinding entry hentry)
  refine Fallible.bind_eq_ok.mpr ⟨_, hdetails, Fallible.bind_eq_ok.mpr ⟨_, hfound, ?_⟩⟩
  rw [notWithdrawn, List.flatMap_map]
  refine congrArg (fun f => Except.ok ((packages.zip identifiers).flatMap f)) (funext fun entry => ?_)
  induction entry.2.sort (· ≤ ·) with
  | nil => rfl
  | cons id ids ih =>
    cases hwithdrawn : (record id).withdrawn <;> simpa [hwithdrawn] using ih

theorem findings_eq_ok {found : List Finding} :
    findings scored server packages identifiers = .ok found ↔
      ∃ record, (∀ ids ∈ identifiers, ∀ id ∈ ids, Loads server record id) ∧
        found = notWithdrawn scored record packages identifiers := by
  constructor
  · intro h
    obtain ⟨details, hdetails, -⟩ := Fallible.bind_eq_ok.mp h
    have hrecord : ∀ id, ∃ record, id ∈ uniqueIdentifiers identifiers →
        loadAdvisory server id = .ok record ∧ record.id = id := by
      intro id
      by_cases hid : id ∈ uniqueIdentifiers identifiers
      · obtain ⟨detail, -, hdetail⟩ :=
          Fallible.exists_of_mem_of_mapM hdetails ((Finset.mem_sort (· ≤ ·)).mpr hid)
        obtain ⟨hload, hsame, -⟩ := loadDetail_eq_ok.mp hdetail
        exact ⟨detail.2, fun _ => ⟨hload, hsame⟩⟩
      · exact ⟨default, fun h => absurd h hid⟩
    choose record hload using hrecord
    have hloads : ∀ ids ∈ identifiers, ∀ id ∈ ids, Loads server record id :=
      fun ids hids id hid => hload id (mem_uniqueIdentifiers.mpr ⟨ids, hids, hid⟩)
    rw [findings_of_loads hloads] at h
    exact ⟨record, hloads, (Except.ok.inj h).symm⟩
  · intro h
    obtain ⟨record, hloads, rfl⟩ := h
    exact findings_of_loads hloads

-- The whole query
-- ---

/-- `query_inner` -/
def QueryReturns (scored : String → Option Severity) (server : OsvServer)
    (packages : List AuditPackage) (result : Except AuditError (List Finding)) : Prop :=
  ∃ outcome, Returns (step server) (start packages) outcome ∧
    result = outcome >>= findings scored server packages

/-- What a query comes to, whose paging ends with this outcome. -/
structure Queried (page : OsvQuery → BatchResult) (scored : String → Option Severity)
    (server : OsvServer) (packages : List AuditPackage)
    (outcome : Except AuditError (List (Finset String))) : Prop where
  returns : ∀ result, QueryReturns scored server packages result ↔
    result = outcome >>= findings scored server packages
  paged : Ends page packages outcome
  found : ∀ identifiers, outcome = .ok identifiers → ∀ found,
    findings scored server packages identifiers = .ok found ↔
      ∃ record, (∀ ids ∈ identifiers, ∀ id ∈ ids, Loads server record id) ∧
        found = notWithdrawn scored record packages identifiers

/--
**Paging**: the query of a server with finitely many tokens returns, and only in
one way. Every package has the union of its own pages, unless a token repeats or
an identifier is blank, which is told; the findings are those not withdrawn.
-/
theorem query_spec (hserver : Answers server page)
    (hfinite : ∀ package ∈ packages, FinitePaging page package) :
    ∃ outcome, Queried page scored server packages outcome := by
  obtain ⟨outcome, houtcome⟩ := exists_returns hserver hfinite
  refine ⟨outcome, fun result => ⟨fun hresult => ?_, fun hresult => ?_⟩,
    ends_of_returns hserver houtcome, fun _ _ _ => findings_eq_ok⟩
  · obtain ⟨other, hother, rfl⟩ := hresult
    rw [hother.unique houtcome]
  · exact ⟨outcome, houtcome, hresult⟩

def pageOfExample (query : OsvQuery) : BatchResult :=
  if query.version = "3" then ⟨["GHSA-3"], none⟩
  else if query.pageToken = none then ⟨["GHSA-1"], some "next"⟩
  else ⟨["GHSA-2"], none⟩

theorem query_two : ∃ outcome, Queried pageOfExample (fun _ => none)
    ⟨fun queries => .ok (queries.map pageOfExample), fun id => .ok { (default : OsvAdvisory) with id }⟩
    [⟨"org.example", "library", "1"⟩, ⟨"org.example", "library", "3"⟩] outcome := by
  refine query_spec (fun _ => rfl) fun package hpackage => ?_
  have hend : pageAt pageOfExample package 2 = none := by
    rcases List.mem_pair.mp hpackage with rfl | rfl <;> decide
  exact finitePaging_of_end hend

end Osv

end JMan.Cli
