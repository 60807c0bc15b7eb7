import Mathlib.Data.List.Sort
import JMan.Lib.Encoding
import JMan.Lsp.Server

/-!
# JMan — pulled diagnostics

`document_diagnostic` and `workspace_diagnostic` of `server.rs`. An editor that holds a
report is told that nothing has changed when it names the result id of the present,
which is made of the revision of the index and the version of the document.

A revision and a version do not say what is reported: a document that is opened again
may have an old version, and analyses are replaced without either being changed
(`reopened_is_not_unchanged`). As long as what is replaced has not been reported under
its result id, nothing that is called unchanged has changed (`unchanged_is_truthful`).
-/

namespace JMan.Lsp

open JMan.Config

-- Reports
-- ---

structure LspDiagnostic where
  start : LspPosition
  stop : LspPosition
  severity : Nat
  code : String
  message : String
deriving DecidableEq

def diagnosticSeverity (kind : String) : Nat :=
  if kind = "error" then 1
  else if kind = "warning" ∨ kind = "mandatory_warning" then 2
  else if kind = "note" then 3
  else 4

def lspDiagnostics (diagnostics : List SemanticDiagnostic) (source : Text) : List LspDiagnostic :=
  diagnostics.map fun diagnostic =>
    { start := offsetToPosition source diagnostic.start
      stop := offsetToPosition source diagnostic.stop
      severity := diagnosticSeverity diagnostic.kind
      code := diagnostic.code
      message := diagnostic.message }

/-- The text of a revision and a version; a document that is not open has none. -/
def resultIdOf (revision : Nat) (version : Option Int) : String :=
  toString revision ++ ":" ++ (version.map toString).getD "closed"

theorem closed_ne_signed_numeral (i : Int) : "closed" ≠ toString i := by
  intro h
  have hletter : 'c' ∈ (toString i).toList := by
    rw [← h]
    decide
  cases i with
  | ofNat n => exact absurd (Encoding.isDigit_of_mem_numeral hletter) (by decide)
  | negSucc n =>
    have hsplit : toString (Int.negSucc n) = "-" ++ toString (n + 1) := rfl
    rw [hsplit, String.toList_append, List.mem_append] at hletter
    rcases hletter with hminus | hdigit
    · exact absurd hminus (by decide)
    · exact absurd (Encoding.isDigit_of_mem_numeral hdigit) (by decide)

theorem colon_notMem_numeral (n : Nat) : ':' ∉ (toString n).toList :=
  fun h => absurd (Encoding.isDigit_of_mem_numeral h) (by decide)

/-- **A result id says which revision and which version it is of.** -/
theorem resultIdOf_injective {revision revision' : Nat} {version version' : Option Int}
    (h : resultIdOf revision version = resultIdOf revision' version') :
    (revision, version) = (revision', version') := by
  have hsplit := congrArg String.toList h
  rw [resultIdOf, resultIdOf] at hsplit
  simp only [String.toList_append, List.append_assoc] at hsplit
  obtain ⟨hrevision, htext⟩ := Encoding.separated_injective (colon_notMem_numeral revision)
    (colon_notMem_numeral revision') hsplit
  have hversion := String.toList_injective htext
  refine Prod.ext (Encoding.numeral_injective (String.toList_injective hrevision)) ?_
  cases version with
  | none =>
    cases version' with
    | none => rfl
    | some i => exact absurd hversion (closed_ne_signed_numeral i)
  | some i =>
    cases version' with
    | none => exact absurd hversion.symm (closed_ne_signed_numeral i)
    | some j => exact congrArg some (Encoding.signed_numeral_injective hversion)

namespace Server

variable (server : Server)

def version? (uri : String) : Option Int := (server.documents[uri]?).map Document.version

def diagnosticResultId (uri : String) : String :=
  resultIdOf server.structuralRevision (server.version? uri)

def diagnosticsFor (uri : String) : List LspDiagnostic :=
  let source := (server.sourceText uri).getD []
  ((server.analyses[uri]?).map fun analysis => lspDiagnostics analysis.diagnostics source).getD []

end Server

inductive Report where
  | unchanged (resultId : String)
  | full (resultId : String) (items : List LspDiagnostic)
deriving DecidableEq

namespace Server

variable (server : Server)

/-- The report on a document, for an editor that holds a result of this id. -/
def reportFor (uri : String) (previous : Option String) : Report :=
  if previous = some (server.diagnosticResultId uri) then .unchanged (server.diagnosticResultId uri)
  else .full (server.diagnosticResultId uri) (server.diagnosticsFor uri)

def documentDiagnostic (uri : String) (previousResultId : Option String) : List (String × Report) :=
  [(uri, server.reportFor uri previousResultId)]

/-- `workspace_diagnostic`; of two results for a document the last one counts. -/
def workspaceDiagnostic (previousResultIds : List (String × String)) : List (String × Report) :=
  let uris := (server.indexedSources.keys ++ server.analyses.keys).insertionSort (· ≤ ·) |>.dedup
  uris.map fun uri => (uri, server.reportFor uri (previousResultIds.reverse.lookup uri))

end Server

-- Sessions
-- ---

/-- What reaches the server, as far as it bears on diagnostics. -/
inductive Message where
  | didOpen (uri : String) (version : Int) (text : Text) (origin : Option String)
  | didChange (uri : String) (version : Int) (changes : List Json)
  | didClose (uri : String)
  /-- An event after which the backend has reloaded: the workspace is indexed again. -/
  | reindex (publication : Publication) (indexing : Answers)
  | rebuildIndex (publication : Publication)
  /-- A rename, or a change of a signature, of a symbol of this name. -/
  | symbolSemantics (name : Text)
  /-- A definition outside the workspace was shown. -/
  | externalLocation (uri origin : String)
  | documentDiagnostic (uri : String) (previousResultId : Option String)
  | workspaceDiagnostic (previousResultIds : List (String × String))

/-- A message, what the backend publishes when it comes, and what it answers. -/
structure Event where
  publication : Publication
  indexing : Answers
  answers : Answers
  message : Message

/-- A full report that was sent, with the revision and the version of its result id. -/
structure SentReport where
  uri : String
  revision : Nat
  version : Option Int
  items : List LspDiagnostic
deriving DecidableEq

def SentReport.resultId (report : SentReport) : String := resultIdOf report.revision report.version

section Handling

variable (isExternal : String → Bool) (isAlphanumeric : Char → Bool)

def Server.handle (server : Server) (answers : Answers) : Message → Server
  | .didOpen uri version text origin => server.didOpen answers isExternal uri version text origin
  | .didChange uri version changes => server.didChange answers isExternal uri version changes
  | .didClose uri => server.didClose answers uri
  | .reindex publication indexing => server.reindexOpenDocuments answers publication indexing
  | .rebuildIndex publication => server.rebuildIndex answers publication
  | .symbolSemantics name => server.ensureWorkspaceSymbolSemantics answers isAlphanumeric name
  | .externalLocation uri origin =>
    { server with externalOrigins := server.externalOrigins.insert uri origin }
  | .documentDiagnostic _ _ => server
  | .workspaceDiagnostic _ => server

def Server.reports (server : Server) : Message → List (String × Report)
  | .documentDiagnostic uri previousResultId => server.documentDiagnostic uri previousResultId
  | .workspaceDiagnostic previousResultIds => server.workspaceDiagnostic previousResultIds
  | _ => []

def Message.rebuilds : Message → Bool
  | .reindex _ _ => true
  | .rebuildIndex _ => true
  | _ => false

/-- A server and what it has sent; `rebuilt` says whether the last message had the index
rebuilt. -/
structure Session where
  server : Server
  sent : List SentReport
  rebuilt : Bool

def Session.new : Session := ⟨.new, [], false⟩

/-- The server when the message of an event is handled. -/
def Session.refreshed (session : Session) (event : Event) : Server :=
  session.server.refresh event.indexing event.publication

def sentReports (server : Server) (reports : List (String × Report)) : List SentReport :=
  reports.filterMap fun report =>
    match report.2 with
    | .unchanged _ => none
    | .full _ items => some ⟨report.1, server.structuralRevision, server.version? report.1, items⟩

def Session.step (session : Session) (event : Event) : Session :=
  let server := session.refreshed event
  { server := server.handle isExternal isAlphanumeric event.answers event.message
    sent := sentReports server (server.reports event.message) ++ session.sent
    rebuilt := event.message.rebuilds }

def Session.run (events : List Event) : Session :=
  events.foldl (Session.step isExternal isAlphanumeric) .new

def Session.Truthful (session : Session) (event : Event) : Prop :=
  ∀ uri resultId, (uri, Report.unchanged resultId) ∈ (session.refreshed event).reports event.message →
    ∀ report ∈ session.sent, report.uri = uri → report.resultId = resultId →
      report.items = (session.refreshed event).diagnosticsFor uri

-- What is replaced
-- ---

/-- The documents whose text or analysis a message replaces, less those of a rebuilt
index. -/
def Server.Replaces (server : Server) (answers : Answers) (message : Message) (uri : String) : Prop :=
  match message with
  | .didOpen opened _ _ _ => uri = opened
  | .didChange changed version changes =>
    uri = changed ∧
      ¬ ∃ e, server.documents.change changed version changes = (.error e, server.documents)
  | .didClose closed => uri = closed ∧ ∃ source, server.indexedSources[closed]? = some source ∧
      ((server.documents[closed]?).isSome ∨ (answers closed source).isSome)
  | .symbolSemantics name => ∃ source, server.indexedSources[uri]? = some source ∧
      containsJavaIdentifier isAlphanumeric source name ∧ ¬ server.project.containsDocument uri ∧
      (answers uri source).isSome
  | _ => False

/-- No report was sent under the result id a document has. -/
def Unreported (sent : List SentReport) (server : Server) (uri : String) : Prop :=
  ∀ report ∈ sent, report.uri = uri →
    (report.revision, report.version) ≠ (server.structuralRevision, server.version? uri)

/-- What an event replaces has not been reported under the result id it gets; for an
index that is rebuilt, under the revision of the next message. -/
structure Session.Careful (session : Session) (event : Event) : Prop where
  revision : session.rebuilt = true ∨ event.publication.revision ≠ session.server.structuralRevision →
    ∀ report ∈ session.sent, report.revision ≠ event.publication.revision
  replaced : ∀ uri, (session.refreshed event).Replaces isAlphanumeric event.answers event.message uri →
    Unreported session.sent
      ((session.refreshed event).handle isExternal isAlphanumeric event.answers event.message) uri

def CarefulRun (session : Session) : List Event → Prop
  | [] => True
  | event :: rest => session.Careful isExternal isAlphanumeric event ∧
      CarefulRun (session.step isExternal isAlphanumeric event) rest

end Handling

-- What an event does to the reports
-- ---

namespace Server

variable {server server' : Server} {uri : String}

theorem SameFor.version? (h : SameFor server server' uri) : server'.version? uri = server.version? uri := by
  rw [Server.version?, Server.version?, h.documents]

theorem SameFor.diagnosticsFor (h : SameFor server server' uri) :
    server'.diagnosticsFor uri = server.diagnosticsFor uri := by
  rw [Server.diagnosticsFor, Server.diagnosticsFor, sourceText, sourceText, h.documents,
    h.indexedSources, h.analyses]

structure Vacant (server : Server) (uri : String) : Prop where
  documents : server.documents[uri]? = none
  indexedSources : server.indexedSources[uri]? = none
  analyses : server.analyses[uri]? = none

theorem Vacant.version? (h : Vacant server uri) : server.version? uri = none := by
  rw [Server.version?, h.documents, Option.map_none]

theorem diagnosticsFor_of_analyses (h : server.analyses[uri]? = none) : server.diagnosticsFor uri = [] := by
  rw [diagnosticsFor, h, Option.map_none, Option.getD_none]

/-- What is known of a document after a message that does not rebuild the index: it was
replaced, it is as it was, or it is gone. -/
inductive Handled (isAlphanumeric : Char → Bool) (server server' : Server) (answers : Answers)
    (message : Message) (uri : String) : Prop where
  | replaced (replaces : server.Replaces isAlphanumeric answers message uri)
      (kept : (server'.documents[uri]?).isSome ∨ (server'.indexedSources[uri]?).isSome)
  | same (same : SameFor server server' uri)
  | vacant (vacant : Vacant server' uri)

section Messages

variable (isExternal : String → Bool) (isAlphanumeric : Char → Bool) (answers : Answers)

theorem exists_opened (server : Server) (opened : String) (version : Int) (text : Text)
    (origin : Option String) : ∃ restored : Server,
      restored.documents = server.documents.insert opened ⟨version, text⟩ ∧
        restored.indexedSources = server.indexedSources ∧ restored.analyses = server.analyses ∧
        restored.structuralRevision = server.structuralRevision ∧
        server.didOpen answers isExternal opened version text origin =
          restored.analyzeOpened answers isExternal opened := by
  unfold didOpen
  dsimp only
  split
  · refine ⟨_, ?_, ?_, ?_, ?_, rfl⟩ <;> rfl
  · refine ⟨_, ?_, ?_, ?_, ?_, rfl⟩ <;> rfl

theorem handled_didOpen (server : Server) (opened : String) (version : Int) (text : Text)
    (origin : Option String) (uri : String) :
    Handled isAlphanumeric server (server.didOpen answers isExternal opened version text origin) answers
      (.didOpen opened version text origin) uri := by
  obtain ⟨restored, hdocuments, hindexed, hanalyses, hrevision, hopened⟩ :=
    exists_opened isExternal answers server opened version text origin
  have honly := analyzesOnly_analyzeOpened answers restored isExternal opened
  rw [hopened]
  by_cases huri : uri = opened
  · refine .replaced huri (.inl ?_)
    rw [honly.documents, hdocuments, huri, Std.ExtTreeMap.getElem?_insert_self]
    rfl
  · refine .same (SameFor.trans ⟨?_, by rw [hindexed], by rw [hanalyses], hrevision⟩
      (honly.sameFor huri))
    rw [hdocuments, getElem?_insert_of_ne _ _ huri]

theorem handled_didChange (server : Server) (changed : String) (version : Int) (changes : List Json)
    (uri : String) :
    Handled isAlphanumeric server (server.didChange answers isExternal changed version changes) answers
      (.didChange changed version changes) uri := by
  obtain ⟨hothers, hopen⟩ := getElem?_change server.documents changed version changes
  have hanalyzes : ∃ after : Server, after = { server with
        documents := (server.documents.change changed version changes).2 } ∧
      AnalyzesOnly after (server.didChange answers isExternal changed version changes) changed ∧
      ((server.didChange answers isExternal changed version changes) = after ∨
        ¬ ∃ e, server.documents.change changed version changes = (.error e, server.documents)) := by
    refine ⟨_, rfl, ?_⟩
    unfold didChange
    split
    · next e documents hchange =>
      rw [hchange]
      exact ⟨.refl _ _, .inl rfl⟩
    · next document documents hchange =>
      rw [hchange]
      refine ⟨analyzesOnly_analyzeOpened _ _ _ _, .inr ?_⟩
      rintro ⟨e, he⟩
      cases he
  obtain ⟨after, rfl, honly, hfailed⟩ := hanalyzes
  by_cases huri : uri = changed
  · subst huri
    by_cases hsame : ∃ e, server.documents.change uri version changes = (.error e, server.documents)
    · obtain ⟨e, he⟩ := hsame
      have hafter := hfailed.resolve_right fun hnot => hnot ⟨e, he⟩
      rw [hafter, he]
      exact .same (.refl _ _)
    · by_cases hdocument : (server.documents[uri]?).isSome
      · refine .replaced ⟨rfl, hsame⟩ (.inl ?_)
        rw [honly.documents, hopen, hdocument]
      · refine absurd ⟨"document is not open", ?_⟩ hsame
        rw [Documents.change, Option.not_isSome_iff_eq_none.mp hdocument]
  · have hchanged : SameFor server { server with
        documents := (server.documents.change changed version changes).2 } uri :=
      ⟨hothers uri huri, rfl, rfl, rfl⟩
    exact .same (hchanged.trans (honly.sameFor huri))

theorem handled_didClose (server : Server) (closed : String) (uri : String) :
    Handled isAlphanumeric server (server.didClose answers closed) answers (.didClose closed) uri := by
  by_cases huri : uri = closed
  · subst huri
    unfold didClose
    dsimp only
    split
    · next source hsource =>
      have honly := analyzesOnly_updateIndex answers
        { server with documents := server.documents.erase uri } uri source
      by_cases hreplaces : (server.documents[uri]?).isSome ∨ (answers uri source).isSome
      · refine .replaced ⟨rfl, source, hsource, hreplaces⟩ (.inr ?_)
        rw [honly.indexedSources, hsource]
        rfl
      · rw [not_or, Option.not_isSome_iff_eq_none, Option.not_isSome_iff_eq_none] at hreplaces
        rw [updateIndex_of_none hreplaces.2]
        refine .same ⟨?_, rfl, rfl, rfl⟩
        rw [Std.ExtTreeMap.getElem?_erase_self, hreplaces.1]
    · next hsource =>
      exact .vacant ⟨Std.ExtTreeMap.getElem?_erase_self, hsource, Std.ExtTreeMap.getElem?_erase_self⟩
  · have hdocument : SameFor server { server with documents := server.documents.erase closed } uri :=
      ⟨getElem?_erase_of_ne _ huri, rfl, rfl, rfl⟩
    unfold didClose
    dsimp only
    split
    · exact .same (hdocument.trans ((analyzesOnly_updateIndex _ _ _ _).sameFor huri))
    · exact .same (hdocument.trans ⟨rfl, rfl, getElem?_erase_of_ne _ huri, rfl⟩)

theorem handled_symbolSemantics (server : Server) (name : Text) (uri : String) :
    Handled isAlphanumeric server (server.ensureWorkspaceSymbolSemantics answers isAlphanumeric name)
      answers (.symbolSemantics name) uri := by
  by_cases hreplaces : server.Replaces isAlphanumeric answers (.symbolSemantics name) uri
  · obtain ⟨-, hindexed, -⟩ := texts_foldl (analyzesOnly_ensureSemantics answers)
      ((server.indexedSources.toList.filter fun entry =>
        containsJavaIdentifier isAlphanumeric entry.2 name).map Prod.fst) server
    refine .replaced hreplaces (.inr ?_)
    obtain ⟨source, hsource, -⟩ := hreplaces
    rw [ensureWorkspaceSymbolSemantics, hindexed, hsource]
    rfl
  · refine .same (sameFor_foldl_ensureSemantics _ _ fun hmem => ?_)
    obtain ⟨⟨document, source⟩, hentry, rfl⟩ := List.mem_map.mp hmem
    obtain ⟨hsource, hname⟩ := List.mem_filter.mp hentry
    have hindexed := Std.ExtTreeMap.mem_toList_iff_getElem?_eq_some.mp hsource
    by_cases hcontains : server.project.containsDocument document = true
    · exact .inl hcontains
    · refine .inr fun other hother => Option.not_isSome_iff_eq_none.mp fun hanswer => hreplaces ?_
      exact ⟨other, hother, Option.some.inj (hindexed.symm.trans hother) ▸ hname, hcontains, hanswer⟩

/-- **A message that does not rebuild the index changes what it replaces,** and closes. -/
theorem handled_handle (server : Server) {message : Message} (hrebuilds : message.rebuilds = false)
    (uri : String) :
    Handled isAlphanumeric server (server.handle isExternal isAlphanumeric answers message) answers
      message uri := by
  cases message with
  | didOpen opened version text origin => exact handled_didOpen _ _ _ _ _ _ _ _ _
  | didChange changed version changes => exact handled_didChange _ _ _ _ _ _ _ _
  | didClose closed => exact handled_didClose _ _ _ _ _
  | reindex publication indexing => cases hrebuilds
  | rebuildIndex publication => cases hrebuilds
  | symbolSemantics name => exact handled_symbolSemantics _ _ _ _ _
  | externalLocation external origin => exact .same ⟨rfl, rfl, rfl, rfl⟩
  | documentDiagnostic document previousResultId => exact .same (.refl _ _)
  | workspaceDiagnostic previousResultIds => exact .same (.refl _ _)

theorem index_handle (server : Server) {message : Message} (hrebuilds : message.rebuilds = false) :
    (server.handle isExternal isAlphanumeric answers message).indexedSources = server.indexedSources ∧
      (server.handle isExternal isAlphanumeric answers message).structuralRevision =
        server.structuralRevision := by
  cases message with
  | didOpen opened version text origin =>
    obtain ⟨restored, -, hindexed, -, hrevision, hopened⟩ :=
      exists_opened isExternal answers server opened version text origin
    have honly := analyzesOnly_analyzeOpened answers restored isExternal opened
    rw [handle, hopened, honly.indexedSources, honly.structuralRevision]
    exact ⟨hindexed, hrevision⟩
  | didChange changed version changes =>
    rw [handle, didChange]
    split
    · exact ⟨rfl, rfl⟩
    · next documents _ =>
      have honly := analyzesOnly_analyzeOpened answers { server with documents := documents }
        isExternal changed
      exact ⟨honly.indexedSources, honly.structuralRevision⟩
  | didClose closed =>
    rw [handle, didClose]
    split
    · next source _ =>
      have honly := analyzesOnly_updateIndex answers
        { server with documents := server.documents.erase closed } closed source
      exact ⟨honly.indexedSources, honly.structuralRevision⟩
    · exact ⟨rfl, rfl⟩
  | reindex publication indexing => cases hrebuilds
  | rebuildIndex publication => cases hrebuilds
  | symbolSemantics name =>
    exact (texts_foldl (analyzesOnly_ensureSemantics answers) _ server).2
  | externalLocation external origin => exact ⟨rfl, rfl⟩
  | documentDiagnostic document previousResultId => exact ⟨rfl, rfl⟩
  | workspaceDiagnostic previousResultIds => exact ⟨rfl, rfl⟩

end Messages

-- Analyses of documents that are known
-- ---

/-- Every analysis is of a document that is open or indexed. -/
def Settled (server : Server) : Prop :=
  ∀ uri : String, server.documents[uri]? = none → server.indexedSources[uri]? = none →
    server.analyses[uri]? = none

theorem Settled.of_analyzesOnly (h : Settled server) (honly : AnalyzesOnly server server' uri)
    (hknown : (server.documents[uri]?).isSome ∨ (server.indexedSources[uri]?).isSome) :
    Settled server' := by
  intro other hdocument hindexed
  rw [honly.documents] at hdocument
  rw [honly.indexedSources] at hindexed
  by_cases hother : other = uri
  · subst hother
    rw [hdocument, hindexed] at hknown
    exact absurd hknown (by decide)
  · rw [honly.analyses other hother]
    exact h other hdocument hindexed

theorem Settled.analyzeDocument (h : Settled server) (answers : Answers) (uri : String) :
    Settled (server.analyzeDocument answers uri) := by
  by_cases hopen : (server.documents[uri]?).isSome
  · exact h.of_analyzesOnly (analyzesOnly_analyzeDocument _ _ _) (.inl hopen)
  · rw [Server.analyzeDocument, Option.not_isSome_iff_eq_none.mp hopen]
    exact h

theorem settled_forget (server : Server) : Settled server.forget :=
  fun _ _ _ => Std.ExtTreeMap.getElem?_empty

theorem settled_indexStructural (server : Server) (structural : List (String × Text × SemanticResult)) :
    Settled (server.indexStructural structural) := by
  intro uri hdocument hindexed
  unfold indexStructural at hdocument hindexed ⊢
  dsimp only at hdocument hindexed ⊢
  rw [Std.ExtTreeMap.getElem?_filter', hdocument, hindexed]
  exact Option.filter_eq_none_iff.mpr fun _ _ => Bool.false_ne_true

theorem Settled.indexWorkspace (h : Settled server) (answers : Answers) (publication : Publication) :
    Settled (server.indexWorkspace answers publication) := by
  unfold Server.indexWorkspace
  split
  · exact settled_indexStructural _ _
  · split
    · exact h
    · refine List.foldlRecOn _ _ h fun server hserver source _ => ?_
      have hindexed : Settled { server with
          indexedSources := server.indexedSources.insert source.1 source.2 } := by
        intro uri hdocument hnone
        refine hserver uri hdocument ?_
        by_cases huri : uri = source.1
        · dsimp only at hnone
          rw [huri, Std.ExtTreeMap.getElem?_insert_self] at hnone
          cases hnone
        · exact (getElem?_insert_of_ne _ _ huri).symm.trans hnone
      refine hindexed.of_analyzesOnly (analyzesOnly_updateIndex _ _ _ _) (.inr ?_)
      exact Option.isSome_of_eq_some Std.ExtTreeMap.getElem?_insert_self

theorem Settled.refresh (h : Settled server) (answers : Answers) (publication : Publication) :
    Settled (server.refresh answers publication) := by
  unfold Server.refresh
  split
  · exact h.indexWorkspace answers publication
  · exact h

theorem Settled.handle (h : Settled server) (isExternal : String → Bool) (isAlphanumeric : Char → Bool)
    (answers : Answers) (message : Message) :
    Settled (server.handle isExternal isAlphanumeric answers message) := by
  by_cases hrebuilds : message.rebuilds = false
  · intro uri hdocument hindexed
    cases handled_handle isExternal isAlphanumeric answers server hrebuilds uri with
    | replaced _ kept =>
      rw [hdocument, hindexed] at kept
      exact absurd kept (by decide)
    | same same =>
      rw [same.analyses]
      exact h uri (same.documents ▸ hdocument) (same.indexedSources ▸ hindexed)
    | vacant vacant => exact vacant.analyses
  · have hrebuilt (publication : Publication) (indexing : Answers) :
        Settled (server.rebuildIndex indexing publication) :=
      (settled_forget server).indexWorkspace indexing publication
    cases message with
    | reindex publication indexing =>
      exact List.foldlRecOn _ _ (hrebuilt publication indexing) fun _ hserver document _ =>
        hserver.analyzeDocument answers document
    | rebuildIndex publication => exact hrebuilt publication answers
    | _ => exact absurd rfl hrebuilds

end Server

-- Reports that are still true
-- ---

/-- The reports that were sent under the present result id of their document say what
would be said now, and so they will when the document is closed. -/
structure Sound (server : Server) (sent : List SentReport) : Prop where
  current : ∀ report ∈ sent, (report.revision, report.version) =
    (server.structuralRevision, server.version? report.uri) →
      report.items = server.diagnosticsFor report.uri
  vacant : ∀ report ∈ sent, report.revision = server.structuralRevision → report.version = none →
    server.indexedSources[report.uri]? = none → report.items = []

section Soundness

variable {isExternal : String → Bool} {isAlphanumeric : Char → Bool} {server : Server}
  {sent : List SentReport} {session : Session} {event : Event}

theorem Sound.handle (h : Sound server sent) {answers : Answers} {message : Message}
    (hrebuilds : message.rebuilds = false)
    (hreplaced : ∀ uri, server.Replaces isAlphanumeric answers message uri →
      Unreported sent (server.handle isExternal isAlphanumeric answers message) uri) :
    Sound (server.handle isExternal isAlphanumeric answers message) sent := by
  obtain ⟨hindexed, hrevision⟩ := server.index_handle isExternal isAlphanumeric answers hrebuilds
  constructor
  · intro report hreport hkey
    cases server.handled_handle isExternal isAlphanumeric answers hrebuilds report.uri with
    | replaced replaces _ => exact absurd hkey (hreplaced report.uri replaces report hreport rfl)
    | same same =>
      rw [same.structuralRevision, same.version?] at hkey
      rw [h.current report hreport hkey, same.diagnosticsFor]
    | vacant vacant =>
      rw [hrevision, vacant.version?, Prod.mk.injEq] at hkey
      rw [Server.diagnosticsFor_of_analyses vacant.analyses]
      exact h.vacant report hreport hkey.1 hkey.2 (hindexed ▸ vacant.indexedSources)
  · intro report hreport hthen hversion hnone
    exact h.vacant report hreport (hthen.trans hrevision) hversion (hindexed ▸ hnone)

theorem Sound.of_revision (h : ∀ report ∈ sent, report.revision ≠ server.structuralRevision) :
    Sound server sent :=
  ⟨fun report hreport hkey => absurd (congrArg Prod.fst hkey) (h report hreport),
    fun report hreport hrevision => absurd hrevision (h report hreport)⟩

theorem Sound.append {others : List SentReport} (h : Sound server others) (h' : Sound server sent) :
    Sound server (others ++ sent) := by
  constructor
  · intro report hreport
    rcases List.mem_append.mp hreport with hother | hsent
    · exact h.current report hother
    · exact h'.current report hsent
  · intro report hreport
    rcases List.mem_append.mp hreport with hother | hsent
    · exact h.vacant report hother
    · exact h'.vacant report hsent

theorem mem_reports {message : Message} {report : String × Report}
    (h : report ∈ server.reports message) :
    ∃ previous, report.2 = server.reportFor report.1 previous := by
  cases message with
  | documentDiagnostic uri previousResultId =>
    rw [List.mem_singleton.mp h]
    exact ⟨previousResultId, rfl⟩
  | workspaceDiagnostic previousResultIds =>
    obtain ⟨uri, -, rfl⟩ := List.mem_map.mp h
    exact ⟨previousResultIds.reverse.lookup uri, rfl⟩
  | _ => cases h

theorem reports_eq_nil_or (isExternal : String → Bool) (isAlphanumeric : Char → Bool) (server : Server)
    (answers : Answers) (message : Message) : server.reports message = [] ∨
      (server.handle isExternal isAlphanumeric answers message = server ∧ message.rebuilds = false) := by
  cases message with
  | documentDiagnostic uri previousResultId => exact .inr ⟨rfl, rfl⟩
  | workspaceDiagnostic previousResultIds => exact .inr ⟨rfl, rfl⟩
  | _ => exact .inl rfl

theorem sound_sentReports (h : server.Settled) (message : Message) :
    Sound server (sentReports server (server.reports message)) := by
  have hfull : ∀ report ∈ sentReports server (server.reports message),
      report.items = server.diagnosticsFor report.uri ∧ report.version = server.version? report.uri := by
    intro report hreport
    obtain ⟨answer, hanswer, hsent⟩ := List.mem_filterMap.mp hreport
    obtain ⟨previous, hfor⟩ := mem_reports hanswer
    rw [hfor, Server.reportFor] at hsent
    split at hsent
    · next hunchanged =>
      split at hunchanged
      · cases hsent
      · cases hunchanged
    · next hfull =>
      split at hfull
      · cases hfull
      · cases hfull
        cases hsent
        exact ⟨rfl, rfl⟩
  constructor
  · exact fun report hreport _ => (hfull report hreport).1
  · intro report hreport _ hversion hindexed
    rw [(hfull report hreport).2, Server.version?, Option.map_eq_none_iff] at hversion
    rw [(hfull report hreport).1]
    exact Server.diagnosticsFor_of_analyses (h report.uri hversion hindexed)

structure Session.Valid (session : Session) : Prop where
  settled : session.server.Settled
  sound : session.rebuilt = false → Sound session.server session.sent

theorem structuralRevision_refresh (server : Server) (answers : Answers) (publication : Publication) :
    (server.refresh answers publication).structuralRevision = publication.revision := by
  unfold Server.refresh
  split
  · rfl
  · next hsame => exact (not_not.mp hsame).symm

theorem Session.Valid.refreshed (h : session.Valid)
    (hcareful : session.Careful isExternal isAlphanumeric event) :
    Sound (session.refreshed event) session.sent := by
  by_cases hnew : session.rebuilt = true ∨ event.publication.revision ≠ session.server.structuralRevision
  · refine .of_revision fun report hreport => ?_
    rw [Session.refreshed, structuralRevision_refresh]
    exact hcareful.revision hnew report hreport
  · rw [not_or, Bool.not_eq_true] at hnew
    rw [Session.refreshed, Server.refresh, if_neg hnew.2]
    exact h.sound hnew.1

theorem Session.Valid.step (h : session.Valid)
    (hcareful : session.Careful isExternal isAlphanumeric event) :
    (session.step isExternal isAlphanumeric event).Valid := by
  have hsettled : (session.refreshed event).Settled := h.settled.refresh event.indexing event.publication
  have hsound := h.refreshed hcareful
  refine ⟨hsettled.handle isExternal isAlphanumeric event.answers event.message, fun hrebuilds => ?_⟩
  have hreports := sound_sentReports hsettled event.message
  show Sound ((session.refreshed event).handle isExternal isAlphanumeric event.answers event.message)
    (sentReports (session.refreshed event) ((session.refreshed event).reports event.message) ++
      session.sent)
  rcases reports_eq_nil_or isExternal isAlphanumeric (session.refreshed event) event.answers
    event.message with hnone | ⟨hsame, -⟩
  · rw [hnone]
    exact hsound.handle hrebuilds hcareful.replaced
  · rw [hsame]
    exact hreports.append hsound

theorem Session.Valid.run {events : List Event} (h : session.Valid)
    (hcareful : CarefulRun isExternal isAlphanumeric session events) :
    (events.foldl (Session.step isExternal isAlphanumeric) session).Valid := by
  induction events generalizing session with
  | nil => exact h
  | cons event rest ih => exact ih (h.step hcareful.1) hcareful.2

theorem valid_new : Session.new.Valid :=
  ⟨fun _ _ _ => Std.ExtTreeMap.getElem?_empty,
    fun _ => ⟨fun _ hreport => absurd hreport List.not_mem_nil,
      fun _ hreport => absurd hreport List.not_mem_nil⟩⟩

end Soundness

/-- **In a careful run what is called unchanged has not changed.** -/
theorem unchanged_is_truthful (isExternal : String → Bool) (isAlphanumeric : Char → Bool)
    (events : List Event) (event : Event) (hrun : CarefulRun isExternal isAlphanumeric .new events)
    (hevent : (Session.run isExternal isAlphanumeric events).Careful isExternal isAlphanumeric event) :
    (Session.run isExternal isAlphanumeric events).Truthful event := by
  intro uri resultId hunchanged report hreport huri hresult
  have hsound := (valid_new.run hrun).refreshed hevent
  obtain ⟨previous, hfor⟩ := mem_reports hunchanged
  rw [Server.reportFor] at hfor
  split at hfor
  · subst huri
    have hid := Report.unchanged.inj hfor
    exact hsound.current report hreport (resultIdOf_injective (hresult.trans hid))
  · cases hfor

def unpublished : Publication := ⟨0, [], true, []⟩

def oneError : Answers := fun _ source =>
  some ⟨[], if source = "class A \x7b\x7d".toList then []
    else [⟨"error", "compiler.err.premature.eof", "reached end of file while parsing", 0, 0⟩]⟩

def eventOf (message : Message) : Event := ⟨unpublished, oneError, oneError, message⟩

def reopened : List Event :=
  [eventOf (.didOpen "file:///A.java" 1 "class A".toList none),
    eventOf (.documentDiagnostic "file:///A.java" none),
    eventOf (.didClose "file:///A.java"),
    eventOf (.didOpen "file:///A.java" 1 "class A \x7b\x7d".toList none)]

def pulledAgain : Event := eventOf (.documentDiagnostic "file:///A.java" (some "0:1"))

def corrected : List Event :=
  [eventOf (.didOpen "file:///A.java" 1 "class A".toList none),
    eventOf (.documentDiagnostic "file:///A.java" none),
    eventOf (.didChange "file:///A.java" 2 [.object [("text", .string "class A \x7b\x7d")]]),
    eventOf (.documentDiagnostic "file:///A.java" (some "0:1"))]

def pulledTwice : Event := eventOf (.documentDiagnostic "file:///A.java" (some "0:2"))

theorem corrected_is_unchanged :
    ("file:///A.java", Report.unchanged "0:2") ∈
        ((Session.run (fun _ => false) Char.isAlphanum corrected).refreshed pulledTwice).reports
          pulledTwice.message ∧
      (Session.run (fun _ => false) Char.isAlphanum corrected).Truthful pulledTwice :=
  ⟨by decide +kernel, unchanged_is_truthful (fun _ => false) Char.isAlphanum corrected pulledTwice
    ⟨⟨fun h => absurd h (by decide +kernel), fun _ _ _ hreport => absurd hreport List.not_mem_nil⟩,
      ⟨fun h => absurd h (by decide +kernel), fun _ hreplaces => absurd hreplaces False.elim⟩,
      ⟨fun h => absurd h (by decide +kernel), fun uri hreplaces => by
        rw [show uri = "file:///A.java" from hreplaces.1, Unreported]
        decide +kernel⟩,
      ⟨fun h => absurd h (by decide +kernel), fun _ hreplaces => absurd hreplaces False.elim⟩, trivial⟩
    ⟨fun h => absurd h (by decide +kernel), fun _ hreplaces => absurd hreplaces False.elim⟩⟩

theorem reopened_is_not_unchanged : ¬ ∀ (isExternal : String → Bool) (isAlphanumeric : Char → Bool)
    (events : List Event) (event : Event),
    (Session.run isExternal isAlphanumeric events).Truthful event := by
  intro h
  have hsame := h (fun _ => false) Char.isAlphanum reopened pulledAgain "file:///A.java" "0:1"
    (by decide +kernel)
  have hnone := hsame ⟨"file:///A.java", 0, some 1, lspDiagnostics [⟨"error",
    "compiler.err.premature.eof", "reached end of file while parsing", 0, 0⟩] "class A".toList⟩
    (by decide +kernel) rfl (by decide +kernel)
  revert hnone
  decide +kernel

end JMan.Lsp
