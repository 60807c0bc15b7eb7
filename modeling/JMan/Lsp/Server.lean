import JMan.Lsp.SymbolIndex

/-!
# JMan — the language server

`Server` of `server.rs`, as far as it keeps texts, analyses and symbols: the documents
that are open, the sources that are indexed, and what javac said of them. What the
backend answers is an input of every message (`Answers`, `Publication`).
-/

namespace JMan.Lsp

open JMan.Config

abbrev Text := List Char

-- Positions
-- ---

structure LspPosition where
  line : Nat
  character : Nat
deriving DecidableEq

/-- The loop of `offset_to_position`, with what is left of the offset. -/
def positionFrom (position : LspPosition) (offset : Nat) : Text → LspPosition
  | [] => position
  | c :: rest =>
    if offset = 0 ∨ offset < lenUtf16 c then position
    else positionFrom (if c = '\n' then ⟨position.line + 1, 0⟩
      else ⟨position.line, position.character + lenUtf16 c⟩) (offset - lenUtf16 c) rest

def offsetToPosition (text : Text) (offset : Nat) : LspPosition := positionFrom ⟨0, 0⟩ offset text

-- Identifiers in texts
-- ---

section Identifiers

variable (isAlphanumeric : Char → Bool)

def javaIdentifierPart (c : Char) : Bool := c = '_' || (c = '$' || isAlphanumeric c)

/-- The loop over `match_indices`: `skip` characters belong to the last match. -/
def containsIdentifierFrom (identifier : Text) : (skip : Nat) → (previous : Option Char) → Text → Bool
  | _, _, [] => false
  | skip + 1, _, c :: rest => containsIdentifierFrom identifier skip (some c) rest
  | 0, previous, c :: rest =>
    if identifier.isPrefixOf (c :: rest) then
      let next := ((c :: rest).drop identifier.length).head?
      if previous.all (fun c => !javaIdentifierPart isAlphanumeric c) ∧
          next.all (fun c => !javaIdentifierPart isAlphanumeric c) then true
      else containsIdentifierFrom identifier (identifier.length - 1) (some c) rest
    else containsIdentifierFrom identifier 0 (some c) rest

/-- `contains_java_identifier`, of an identifier that is not empty -/
def containsJavaIdentifier (source identifier : Text) : Bool :=
  containsIdentifierFrom isAlphanumeric identifier 0 none source

end Identifiers

-- The server
-- ---

structure Server where
  documents : Documents
  indexedSources : BTreeMap Text
  externalOrigins : BTreeMap String
  analyses : BTreeMap SemanticResult
  project : SymbolIndex
  structuralProject : SymbolIndex
  structuralRevision : Nat

def Server.new : Server := ⟨∅, ∅, ∅, ∅, .empty, .empty, 0⟩

/-- What the backend says of the workspace: the revision of its index, the documents of
it, whether it is still being made, and the source files that can be read. -/
structure Publication where
  revision : Nat
  structural : List (String × Text × SemanticResult)
  pending : Bool
  sources : List (String × Text)

/-- `backend.analyze`, which may fail. -/
abbrev Answers := String → Text → Option SemanticResult

namespace Server

section Queries

variable (server : Server)

def sourceText (uri : String) : Option Text :=
  ((server.documents[uri]?).map Document.text).or server.indexedSources[uri]?

end Queries

section Updates

variable (answers : Answers) (server : Server)

def updateIndex (uri : String) (source : Text) : Server :=
  match answers uri source with
  | none => server
  | some result => { server with
      project := server.project.updateDocument uri result.symbols
      analyses := server.analyses.insert uri result }

def analyzeDocument (uri : String) : Server :=
  match server.documents[uri]? with
  | none => server
  | some document => server.updateIndex answers uri document.text

/-- `analyze_external_document`: the analysis is kept, but not its symbols. -/
def analyzeExternalDocument (uri : String) : Server :=
  match server.externalOrigins[uri]?, server.sourceText uri with
  | some origin, some source =>
    match answers origin source with
    | none => server
    | some result => { server with analyses := server.analyses.insert uri result }
  | _, _ => server

def indexStructural (structural : List (String × Text × SemanticResult)) : Server :=
  let sources : BTreeMap Text := structural.foldl (fun sources entry => sources.insert entry.1 entry.2.1) ∅
  let analyses := structural.foldl (fun analyses entry =>
    if (server.documents[entry.1]?).isNone then analyses.insert entry.1 entry.2.2 else analyses)
    server.analyses
  { server with
    structuralProject := structural.foldl (fun project entry =>
      project.updateDocument entry.1 entry.2.2.symbols) .empty
    indexedSources := sources
    analyses := analyses.filter fun uri _ =>
      (server.documents[uri]?).isSome || sources[uri]?.isSome }

def indexWorkspace (publication : Publication) : Server :=
  if publication.structural ≠ [] then server.indexStructural publication.structural
  else if publication.pending then server
  else publication.sources.foldl (fun server source =>
    { server with indexedSources := server.indexedSources.insert source.1 source.2 }.updateIndex
      answers source.1 source.2) server

/-- `refresh_structural_workspace` -/
def refresh (publication : Publication) : Server :=
  if publication.revision ≠ server.structuralRevision then
    { server.indexWorkspace answers publication with structuralRevision := publication.revision }
  else server

def forget : Server :=
  { server with project := .empty, structuralProject := .empty, analyses := ∅, indexedSources := ∅ }

/-- What `jman.java.rebuildIndex` does to what is known. -/
def rebuildIndex (publication : Publication) : Server :=
  server.forget.indexWorkspace answers publication

def reindexOpenDocuments (publication : Publication) (indexing : Answers) : Server :=
  server.documents.keys.foldl (analyzeDocument answers) (server.rebuildIndex indexing publication)

/-- One turn of `ensure_workspace_symbol_semantics`. -/
def ensureSemantics (document : String) : Server :=
  if server.project.containsDocument document then server
  else
    match server.indexedSources[document]? with
    | none => server
    | some source => server.updateIndex answers document source

def ensureWorkspaceSymbolSemantics (isAlphanumeric : Char → Bool) (name : Text) : Server :=
  let documents := (server.indexedSources.toList.filter fun entry =>
    containsJavaIdentifier isAlphanumeric entry.2 name).map Prod.fst
  documents.foldl (ensureSemantics answers) server

end Updates

-- Documents
-- ---

section Documents

variable (answers : Answers) (server : Server)

/-- The document is analyzed, an external one for its origin. -/
def analyzeOpened (isExternal : String → Bool) (uri : String) : Server :=
  if isExternal uri then server.analyzeExternalDocument answers uri
  else server.analyzeDocument answers uri

/-- `textDocument/didOpen`; `origin` is what is kept of the origin of an external
document. -/
def didOpen (isExternal : String → Bool) (uri : String) (version : Int) (text : Text)
    (origin : Option String) : Server :=
  let opened := { server with documents := server.documents.insert uri ⟨version, text⟩ }
  let restored := match isExternal uri, server.externalOrigins[uri]?, origin with
    | true, none, some origin =>
      { opened with externalOrigins := opened.externalOrigins.insert uri origin }
    | _, _, _ => opened
  restored.analyzeOpened answers isExternal uri

/-- `textDocument/didChange` -/
def didChange (isExternal : String → Bool) (uri : String) (version : Int) (changes : List Json) :
    Server :=
  match server.documents.change uri version changes with
  | (.error _, documents) => { server with documents := documents }
  | (.ok _, documents) => { server with documents := documents }.analyzeOpened answers isExternal uri

/-- `textDocument/didClose` -/
def didClose (uri : String) : Server :=
  let closed := { server with documents := server.documents.erase uri }
  match server.indexedSources[uri]? with
  | some source => closed.updateIndex answers uri source
  | none => { closed with
      analyses := closed.analyses.erase uri
      project := closed.project.removeDocument uri }

end Documents

-- What an update leaves alone
-- ---

section Frames

theorem getElem?_insert_of_ne {β : Type} (map : BTreeMap β) {key other : String} (value : β)
    (h : other ≠ key) : (map.insert key value)[other]? = map[other]? := by
  rw [Std.ExtTreeMap.getElem?_insert, if_neg]
  exact fun hcompare => h (compare_eq_iff_eq.mp hcompare).symm

theorem getElem?_erase_of_ne {β : Type} (map : BTreeMap β) {key other : String} (h : other ≠ key) :
    (map.erase key)[other]? = map[other]? := by
  rw [Std.ExtTreeMap.getElem?_erase, if_neg]
  exact fun hcompare => h (compare_eq_iff_eq.mp hcompare).symm

theorem getElem?_change (documents : Documents) (uri : String) (version : Int) (changes : List Json) :
    (∀ other ≠ uri, (documents.change uri version changes).2[other]? = documents[other]?) ∧
      ((documents.change uri version changes).2[uri]?).isSome = (documents[uri]?).isSome := by
  unfold Documents.change
  split
  · exact ⟨fun _ _ => rfl, rfl⟩
  · next document hdocument =>
    split
    · exact ⟨fun _ _ => rfl, rfl⟩
    · split
      · refine ⟨fun other hother => getElem?_insert_of_ne _ _ hother, ?_⟩
        rw [Std.ExtTreeMap.getElem?_insert_self, hdocument]
        rfl
      · refine ⟨fun other hother => getElem?_insert_of_ne _ _ hother, ?_⟩
        rw [Std.ExtTreeMap.getElem?_insert_self, hdocument]
        rfl

variable {answers : Answers} {server server' : Server} {uri other : String}

/-- All that is known of a document is the same. -/
structure SameFor (server server' : Server) (uri : String) : Prop where
  documents : server'.documents[uri]? = server.documents[uri]?
  indexedSources : server'.indexedSources[uri]? = server.indexedSources[uri]?
  analyses : server'.analyses[uri]? = server.analyses[uri]?
  structuralRevision : server'.structuralRevision = server.structuralRevision

theorem SameFor.refl (server : Server) (uri : String) : SameFor server server uri :=
  ⟨rfl, rfl, rfl, rfl⟩

theorem SameFor.trans {server'' : Server} (h : SameFor server server' uri)
    (h' : SameFor server' server'' uri) : SameFor server server'' uri :=
  ⟨h'.documents.trans h.documents, h'.indexedSources.trans h.indexedSources,
    h'.analyses.trans h.analyses, h'.structuralRevision.trans h.structuralRevision⟩

/-- Nothing but analyses and symbols differs, and analyses of one document only. -/
structure AnalyzesOnly (server server' : Server) (uri : String) : Prop where
  documents : server'.documents = server.documents
  indexedSources : server'.indexedSources = server.indexedSources
  structuralRevision : server'.structuralRevision = server.structuralRevision
  analyses : ∀ other ≠ uri, server'.analyses[other]? = server.analyses[other]?

theorem AnalyzesOnly.refl (server : Server) (uri : String) : AnalyzesOnly server server uri :=
  ⟨rfl, rfl, rfl, fun _ _ => rfl⟩

theorem AnalyzesOnly.sameFor (h : AnalyzesOnly server server' uri) (hother : other ≠ uri) :
    SameFor server server' other :=
  ⟨by rw [h.documents], by rw [h.indexedSources], h.analyses other hother, h.structuralRevision⟩

theorem analyzesOnly_updateIndex (answers : Answers) (server : Server) (uri : String) (source : Text) :
    AnalyzesOnly server (server.updateIndex answers uri source) uri := by
  unfold updateIndex
  split
  · exact .refl server uri
  · exact ⟨rfl, rfl, rfl, fun other hother => getElem?_insert_of_ne _ _ hother⟩

theorem analyzesOnly_analyzeDocument (answers : Answers) (server : Server) (uri : String) :
    AnalyzesOnly server (server.analyzeDocument answers uri) uri := by
  unfold analyzeDocument
  split
  · exact .refl server uri
  · exact analyzesOnly_updateIndex _ _ _ _

theorem analyzesOnly_analyzeOpened (answers : Answers) (server : Server) (isExternal : String → Bool)
    (uri : String) : AnalyzesOnly server (server.analyzeOpened answers isExternal uri) uri := by
  unfold analyzeOpened
  split
  · unfold analyzeExternalDocument
    split
    · split
      · exact .refl server uri
      · exact ⟨rfl, rfl, rfl, fun other hother => getElem?_insert_of_ne _ _ hother⟩
    · exact .refl server uri
  · exact analyzesOnly_analyzeDocument _ _ _

theorem analyzesOnly_ensureSemantics (answers : Answers) (server : Server) (document : String) :
    AnalyzesOnly server (server.ensureSemantics answers document) document := by
  unfold ensureSemantics
  split
  · exact .refl server document
  · split
    · exact .refl server document
    · exact analyzesOnly_updateIndex _ _ _ _

theorem texts_foldl {f : Server → String → Server}
    (hf : ∀ server document, AnalyzesOnly server (f server document) document)
    (documents : List String) (server : Server) :
    (documents.foldl f server).documents = server.documents ∧
      (documents.foldl f server).indexedSources = server.indexedSources ∧
      (documents.foldl f server).structuralRevision = server.structuralRevision := by
  induction documents generalizing server with
  | nil => exact ⟨rfl, rfl, rfl⟩
  | cons document rest ih =>
    obtain ⟨hdocuments, hindexed, hrevision⟩ := ih (f server document)
    exact ⟨hdocuments.trans (hf server document).documents,
      hindexed.trans (hf server document).indexedSources,
      hrevision.trans (hf server document).structuralRevision⟩

theorem updateIndex_of_none {source : Text} (h : answers uri source = none) :
    server.updateIndex answers uri source = server := by
  rw [updateIndex, h]

theorem containsDocument_updateIndex {source : Text} (h : server.project.containsDocument other) :
    (server.updateIndex answers uri source).project.containsDocument other := by
  unfold updateIndex
  split
  · exact h
  · next result hresult =>
    obtain ⟨locations, hlocations⟩ := SymbolIndex.containsDocument_iff.mp h
    by_cases hother : other = uri
    · exact SymbolIndex.containsDocument_iff.mpr ⟨_,
        SymbolIndex.mem_documents_updateDocument.mpr (.inr (Prod.ext hother rfl))⟩
    · exact SymbolIndex.containsDocument_iff.mpr ⟨locations,
        SymbolIndex.mem_documents_updateDocument.mpr (.inl ⟨hother, hlocations⟩)⟩

theorem containsDocument_ensureSemantics (h : server.project.containsDocument other) :
    (server.ensureSemantics answers uri).project.containsDocument other := by
  unfold ensureSemantics
  split
  · exact h
  · split
    · exact h
    · exact containsDocument_updateIndex h

theorem sameFor_foldl_ensureSemantics (documents : List String) (server : Server)
    (h : uri ∈ documents → server.project.containsDocument uri = true ∨
      ∀ source, server.indexedSources[uri]? = some source → answers uri source = none) :
    SameFor server (documents.foldl (ensureSemantics answers) server) uri := by
  induction documents generalizing server with
  | nil => exact .refl server uri
  | cons document rest ih =>
    have honly := analyzesOnly_ensureSemantics answers server document
    have hfirst : SameFor server (server.ensureSemantics answers document) uri := by
      by_cases hdocument : uri = document
      · subst hdocument
        rcases h List.mem_cons_self with hcontains | hfails
        · rw [ensureSemantics, if_pos hcontains]
          exact .refl server uri
        · unfold ensureSemantics
          split
          · exact .refl server uri
          · split
            · exact .refl server uri
            · next source hsource =>
              rw [updateIndex_of_none (hfails source hsource)]
              exact .refl server uri
      · exact honly.sameFor hdocument
    refine hfirst.trans (ih _ fun hmem => ?_)
    rcases h (List.mem_cons_of_mem _ hmem) with hcontains | hfails
    · exact .inl (containsDocument_ensureSemantics hcontains)
    · refine .inr fun source hsource => hfails source ?_
      rw [← honly.indexedSources, hsource]

end Frames

end Server

end JMan.Lsp
