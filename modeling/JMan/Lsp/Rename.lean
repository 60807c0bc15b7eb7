import Mathlib.Data.List.Destutter
import Mathlib.Data.List.Infix
import Mathlib.Data.Prod.Lex
import JMan.Lib.Loop
import JMan.Lsp.Analysis
import JMan.Lsp.Diagnostics

/-!
# JMan — renaming

`rename` of `server.rs`: the places of a symbol are looked up in the index of the open
documents and in that of the workspace, and every one becomes an edit of the text its
document has now.

The indexes are of the texts that were analyzed. A location of the workspace is used for
a document that is open with another text (`edited_document_is_broken`), one of the open
documents stays when the new text cannot be analyzed, the range of a symbol without a
name in the text is its whole tree, and a subtype is listed under the identifier of its
supertype. Where none of these is the case, an edit replaces a name
(`rename_replaces_names`).
-/

namespace JMan.Lsp

open JMan.Config

-- Positions
-- ---

def LspPosition.advance (position : LspPosition) (c : Char) : LspPosition :=
  if c = '\n' then ⟨position.line + 1, 0⟩ else ⟨position.line, position.character + lenUtf16 c⟩

def positionAfter (text : Text) : LspPosition := text.foldl LspPosition.advance ⟨0, 0⟩

instance : LE LspPosition :=
  ⟨fun left right => left.line < right.line ∨ (left.line = right.line ∧ left.character ≤ right.character)⟩

theorem LspPosition.le_trans {a b c : LspPosition} (h : a ≤ b) (h' : b ≤ c) : a ≤ c := by
  have hab : a.line < b.line ∨ (a.line = b.line ∧ a.character ≤ b.character) := h
  have hbc : b.line < c.line ∨ (b.line = c.line ∧ b.character ≤ c.character) := h'
  show a.line < c.line ∨ (a.line = c.line ∧ a.character ≤ c.character)
  omega

theorem LspPosition.le_foldl_advance (position : LspPosition) (text : Text) :
    position ≤ text.foldl LspPosition.advance position := by
  induction text generalizing position with
  | nil => exact .inr ⟨rfl, Nat.le_refl _⟩
  | cons c rest ih =>
    refine LspPosition.le_trans ?_ (ih (position.advance c))
    unfold LspPosition.advance
    split
    · exact .inl (Nat.lt_succ_self _)
    · exact .inr ⟨rfl, Nat.le_add_right _ _⟩

theorem positionAfter_le (before after : Text) : positionAfter before ≤ positionAfter (before ++ after) := by
  rw [positionAfter, positionAfter, List.foldl_append]
  exact LspPosition.le_foldl_advance _ after

theorem positionFrom_append (position : LspPosition) (before after : Text) :
    positionFrom position (utf16Length before) (before ++ after) =
      before.foldl LspPosition.advance position := by
  induction before generalizing position with
  | nil =>
    cases after with
    | nil => rfl
    | cons c rest => exact if_pos (.inl rfl)
  | cons c rest ih =>
    have hpos := lenUtf16_pos c
    rw [List.cons_append, positionFrom, utf16Length, if_neg (by omega), Nat.add_sub_cancel_left, ih]
    rfl

/-- **An offset between two characters is the position behind the first.** -/
theorem offsetToPosition_append (before after : Text) :
    offsetToPosition (before ++ after) (utf16Length before) = positionAfter before :=
  positionFrom_append _ before after

-- Locations
-- ---

namespace SymbolLocation

def place (location : SymbolLocation) : String ×ₗ (Nat ×ₗ Nat) :=
  toLex (location.document, toLex (location.start, location.stop))

/-- `sort_by` and `dedup_by` -/
def sortedUnique (locations : List SymbolLocation) : List SymbolLocation :=
  (locations.insertionSort fun left right => left.place ≤ right.place).destutter
    fun left right => left.place ≠ right.place

/-- `location_symbol_id` -/
def identity (location : SymbolLocation) : String :=
  if location.symbolId = "" then location.qualifiedName else location.symbolId

theorem mem_of_mem_sortedUnique {locations : List SymbolLocation} {location : SymbolLocation}
    (h : location ∈ sortedUnique locations) : location ∈ locations :=
  (List.mem_insertionSort _).mp ((List.destutter_sublist _ _).subset h)

theorem pairwise_lt_of_isChain {locations : List SymbolLocation}
    (hsorted : locations.Pairwise fun left right => left.place ≤ right.place)
    (hchain : locations.IsChain fun left right => left.place ≠ right.place) :
    locations.Pairwise fun left right => left.place < right.place := by
  induction locations with
  | nil => exact .nil
  | cons first rest ih =>
    obtain ⟨hfirst, hrest⟩ := List.pairwise_cons.mp hsorted
    refine List.pairwise_cons.mpr ⟨?_, ih hrest hchain.tail⟩
    cases rest with
    | nil => exact fun _ h => absurd h List.not_mem_nil
    | cons second more =>
      have hsecond : first.place < second.place :=
        lt_of_le_of_ne (hfirst second List.mem_cons_self) (List.isChain_cons_cons.mp hchain).1
      intro location hlocation
      rcases List.mem_cons.mp hlocation with rfl | hmore
      · exact hsecond
      · exact hsecond.trans_le ((List.pairwise_cons.mp hrest).1 location hmore)

/-- **The places come in order, and none comes twice.** -/
theorem pairwise_sortedUnique (locations : List SymbolLocation) :
    (sortedUnique locations).Pairwise fun left right => left.place < right.place := by
  have : Std.Total fun left right : SymbolLocation => left.place ≤ right.place :=
    ⟨fun left right => le_total left.place right.place⟩
  have : IsTrans SymbolLocation fun left right => left.place ≤ right.place :=
    ⟨fun _ _ _ h h' => le_trans h h'⟩
  refine pairwise_lt_of_isChain ?_ (List.isChain_destutter _ _)
  exact (List.pairwise_insertionSort _ locations).sublist (List.destutter_sublist _ _)

end SymbolLocation

-- Renaming
-- ---

structure TextEdit where
  start : LspPosition
  stop : LspPosition
  newText : String
deriving DecidableEq

/-- `changes`, the edits of each document -/
abbrev Changes := BTreeMap (List TextEdit)

def javaKeywords : List String :=
  ["_", "abstract", "assert", "boolean", "break", "byte", "case", "catch", "char", "class", "const",
    "continue", "default", "do", "double", "else", "enum", "extends", "false", "final", "finally",
    "float", "for", "goto", "if", "implements", "import", "instanceof", "int", "interface", "long",
    "native", "new", "null", "package", "private", "protected", "public", "record", "return", "sealed",
    "short", "static", "strictfp", "super", "switch", "synchronized", "this", "throw", "throws",
    "transient", "true", "try", "var", "void", "volatile", "while", "yield"]

def isJavaIdentifier (isAlphabetic isAlphanumeric : Char → Bool) (value : String) : Bool :=
  if javaKeywords.contains value then false
  else
    match value.toList with
    | [] => false
    | first :: rest => (first = '_' || (first = '$' || isAlphabetic first)) &&
        rest.all (javaIdentifierPart isAlphanumeric)

def structuralMethodIdentity (symbolId : String) : Option String :=
  match symbolId.toList.dropWhile (· ≠ '|') with
  | [] => none
  | _ :: member =>
    let method := member.takeWhile (· ≠ '(')
    if member.contains '(' ∧ method.contains '#' then
      some (String.ofList (method.map fun c => if c = '/' ∨ c = '$' then '.' else c))
    else none

/-- What follows the last `#`. -/
def methodName (symbolId : String) : String :=
  String.ofList (symbolId.toList.reverse.takeWhile (· ≠ '#')).reverse

namespace Server

variable (server : Server)

/-- `request_position`, in UTF-16 -/
def requestPosition (uri : String) (position : Json) : Option Nat :=
  (server.documents[uri]?).bind fun document =>
    match positionToByte document.text position with
    | .error _ => none
    | .ok byte => some (utf16Length (splitAtByte byte document.text).1)

def allDefinitions (symbolId : String) : List SymbolLocation :=
  SymbolLocation.sortedUnique
    (server.project.definitions symbolId ++ server.structuralProject.definitions symbolId)

def allReferences (symbolId : String) : List SymbolLocation :=
  SymbolLocation.sortedUnique
    (server.project.references symbolId ++ server.structuralProject.references symbolId)

/-- What a method of a class file adds to the related ones of a method of a text. -/
def relatedMethods (symbolId : String) : List String :=
  if symbolId.toList.contains '#' ∧ ¬ symbolId.toList.contains '|' then
    (server.project.declarationsNamed (methodName symbolId)).flatMap fun candidate =>
      match server.project.overrideFamily candidate.identity with
      | none => []
      | some family =>
        if structuralMethodIdentity family = some symbolId then
          server.project.relatedSymbolIds candidate.identity ++ [family]
        else []
  else []

def relatedSymbolIds (symbolId : String) : List String :=
  let related := ((server.project.relatedSymbolIds symbolId ++
    server.structuralProject.relatedSymbolIds symbolId ++
      server.relatedMethods symbolId).insertionSort (· ≤ ·)).dedup
  if related = [] then [symbolId] else related

/-- The edits of a rename, before they are edits of texts. -/
def renameLocations (related : List String) : List SymbolLocation :=
  SymbolLocation.sortedUnique (related.flatMap server.allDefinitions ++ related.flatMap server.allReferences)

def textEdit (source : Text) (newName : String) (location : SymbolLocation) : TextEdit :=
  ⟨offsetToPosition source location.start, offsetToPosition source location.stop, newName⟩

def pushEdit (newName : String) (changes : Changes) (location : SymbolLocation) : Changes :=
  match server.sourceText location.document with
  | none => changes
  | some source => changes.insert location.document
      ((changes[location.document]?).getD [] ++ [textEdit source newName location])

section Requests

variable (isAlphabetic isAlphanumeric : Char → Bool)

/-- The answer of `rename`, once the symbol is known. -/
def renameSymbol (symbol : SymbolLocation) (newName : String) : Except String Changes :=
  if isJavaIdentifier isAlphabetic isAlphanumeric newName = false then .error "Invalid Java identifier"
  else
    let related := server.relatedSymbolIds symbol.identity
    match related.flatMap server.allDefinitions with
    | [] => .error "Symbol definition is not indexed"
    | definition :: _ =>
      let named := server.project.declarationsNamed newName ++
        server.structuralProject.declarationsNamed newName
      if named.any fun candidate => candidate.document = definition.document &&
          (candidate.symbolId ≠ symbol.identity && candidate.kind = symbol.kind) then
        .error "Rename would conflict with an existing declaration"
      else .ok ((server.renameLocations related).foldl (server.pushEdit newName) ∅)

/-- What is indexed before a symbol is renamed. -/
def ensured (answers : Answers) (uri : String) (offset : Nat) : Server :=
  match server.project.symbolAt uri offset with
  | none => server
  | some symbol => server.ensureWorkspaceSymbolSemantics answers isAlphanumeric symbol.name.toList

def rename (answers : Answers) (uri : String) (position : Json) (newName : Option String) :
    Except String Changes × Server :=
  match server.requestPosition uri position with
  | none => (.error "Invalid rename params", server)
  | some offset =>
    match newName with
    | none => (.error "Rename has no newName", server)
    | some newName =>
      let ensured := server.ensured isAlphanumeric answers uri offset
      if (server.project.symbolAt uri offset).isNone then (.error "No symbol at rename position", server)
      else
        match ensured.project.symbolAt uri offset with
        | none => (.error "No symbol at rename position", ensured)
        | some symbol => (ensured.renameSymbol isAlphabetic isAlphanumeric symbol newName, ensured)

end Requests

end Server

-- What javac has said
-- ---

section Javac

variable (isJavaIdentifierPart : Char → Bool) (P : Text → NamedTree → Prop)

/-- What is answered for a text is reported for trees of it that satisfy a condition. -/
def Answers.OfJavac (answers : Answers) : Prop :=
  ∀ uri source result, answers uri source = some result →
    AreReported isJavaIdentifierPart source (P source) result.symbols

def Publication.OfJavac (publication : Publication) : Prop :=
  ∀ entry ∈ publication.structural,
    AreReported isJavaIdentifierPart entry.2.1 (P entry.2.1) entry.2.2.symbols

def Message.OfJavac : Message → Prop
  | .reindex publication indexing =>
    publication.OfJavac isJavaIdentifierPart P ∧ Answers.OfJavac isJavaIdentifierPart P indexing
  | .rebuildIndex publication => publication.OfJavac isJavaIdentifierPart P
  | _ => True

structure Event.OfJavac (event : Event) : Prop where
  publication : event.publication.OfJavac isJavaIdentifierPart P
  indexing : Answers.OfJavac isJavaIdentifierPart P event.indexing
  answers : Answers.OfJavac isJavaIdentifierPart P event.answers
  message : event.message.OfJavac isJavaIdentifierPart P

/-- A location is reported for a tree of the text. -/
def SymbolLocation.IsOf (source : Text) (location : SymbolLocation) : Prop :=
  OfTree isJavaIdentifierPart source (P source) location.role location.name (location.start, location.stop)

/-- The locations of a document in the index of the open documents are of the text it
has. -/
def Server.LinkedAt (server : Server) (uri : String) : Prop :=
  ∀ locations, (uri, locations) ∈ server.project.documents → ∀ location ∈ locations,
    location.document = uri ∧ ∀ source, server.sourceText uri = some source →
      location.IsOf isJavaIdentifierPart P source

/-- The locations in the index of the workspace are of the texts that are indexed. -/
def Server.StructuralLinked (server : Server) : Prop :=
  ∀ uri locations, (uri, locations) ∈ server.structuralProject.documents →
    ∃ source, server.indexedSources[uri]? = some source ∧ ∀ location ∈ locations,
      location.document = uri ∧ location.IsOf isJavaIdentifierPart P source

structure Server.Linked (server : Server) : Prop where
  project : ∀ uri, server.LinkedAt isJavaIdentifierPart P uri
  structural : server.StructuralLinked isJavaIdentifierPart P

end Javac

-- Texts the index follows
-- ---

section Following

variable (isExternal : String → Bool) (isAlphanumeric : Char → Bool) (answers : Answers) (server : Server)

/-- What the index says of a document is of this text, or it says nothing. -/
def Server.Known (uri : String) (text : Text) : Prop :=
  server.sourceText uri = some text ∨ server.project.containsDocument uri = false

/-- A file that is indexed is open with its own text, or its symbols become those of its
text; an exempt document is analyzed later. -/
structure Server.SourceFollows (exempt : String → Prop) (source : String × Text) : Prop where
  analyzed : ¬ exempt source.1 → (answers source.1 source.2).isSome →
    ∀ document, server.documents[source.1]? = some document → document.text = source.2
  failed : ¬ exempt source.1 → answers source.1 source.2 = none →
    (server.documents[source.1]?).isSome ∨ server.Known source.1 source.2
  structural : server.structuralProject.containsDocument source.1 →
    server.indexedSources[source.1]? = some source.2

/-- One turn of the loop of `index_workspace`. -/
def Server.indexSource (server : Server) (source : String × Text) : Server :=
  { server with indexedSources := server.indexedSources.insert source.1 source.2 }.updateIndex
    answers source.1 source.2

/-- A publication leaves the text of the documents that are in the index and not open. -/
def Server.IndexFollows (exempt : String → Prop) (publication : Publication) : Prop :=
  if publication.structural ≠ [] then
    ∀ entry ∈ publication.structural, (server.documents[entry.1]?).isNone →
      server.Known entry.1 entry.2.1
  else
    publication.pending = false → Loop.Guarded (Server.SourceFollows answers · exempt)
      (Server.indexSource answers) server publication.sources

/-- The documents in which a name is looked for are not open with another text. -/
def Server.SemanticsFollow (name : Text) : Prop :=
  ∀ uri source, server.indexedSources[uri]? = some source →
    containsJavaIdentifier isAlphanumeric source name → server.project.containsDocument uri = false →
      (answers uri source).isSome → server.sourceText uri = some source

/-- A document that gets another text while it is in the index is analyzed. -/
def Server.MessageFollows : Message → Prop
  | .didOpen uri _ text _ => server.Known uri text ∨ (isExternal uri = false ∧ (answers uri text).isSome)
  | .didChange uri version changes => ∀ document,
    (server.documents.change uri version changes).2[uri]? = some document →
      server.Known uri document.text ∨ (isExternal uri = false ∧
        (server.documents.change uri version changes).1.toOption.isSome ∧
          (answers uri document.text).isSome)
  | .didClose uri => ∀ source, server.indexedSources[uri]? = some source →
    server.Known uri source ∨ (answers uri source).isSome
  | .reindex publication indexing => server.forget.IndexFollows indexing
    (fun uri => ∃ document, server.documents[uri]? = some document ∧ (answers uri document.text).isSome)
    publication
  | .rebuildIndex publication => server.forget.IndexFollows answers (fun _ => False) publication
  | .symbolSemantics name => server.SemanticsFollow isAlphanumeric answers name
  | _ => True

/-- An event leaves the index of the open documents with the texts they have. -/
structure Session.Follows (session : Session) (event : Event) : Prop where
  indexed : event.publication.revision ≠ session.server.structuralRevision →
    session.server.IndexFollows event.indexing (fun _ => False) event.publication
  handled : (session.refreshed event).MessageFollows isExternal isAlphanumeric event.answers event.message

end Following

-- Updates
-- ---

namespace Server

section Linking

variable {isJavaIdentifierPart : Char → Bool} {P : Text → NamedTree → Prop}
  {isExternal : String → Bool} {isAlphanumeric : Char → Bool} {answers indexing : Answers}
  {server server' : Server} {uri document : String} {source text : Text} {publication : Publication}

theorem isOf_of_mem_locations {symbols : List SemanticSymbol} {location : SymbolLocation}
    (h : AreReported isJavaIdentifierPart source (P source) symbols)
    (hmem : location ∈ SymbolIndex.locations document symbols) :
    location.document = document ∧ location.IsOf isJavaIdentifierPart P source := by
  obtain ⟨symbol, hsymbol, rfl⟩ := List.mem_map.mp hmem
  exact ⟨rfl, h.ofTree (List.mem_filter.mp hsymbol).1⟩

theorem sourceText_congr (server server' : Server) (hdocuments : server'.documents[uri]? = server.documents[uri]?)
    (hindexed : server'.indexedSources[uri]? = server.indexedSources[uri]?) :
    server'.sourceText uri = server.sourceText uri := by
  rw [sourceText, sourceText, hdocuments, hindexed]

theorem sourceText_of_open (server : Server) {document : Document} (h : server.documents[uri]? = some document) :
    server.sourceText uri = some document.text := by
  rw [sourceText, h]
  rfl

theorem sourceText_of_closed (server : Server) (h : server.documents[uri]? = none) :
    server.sourceText uri = server.indexedSources[uri]? := by
  rw [sourceText, h]
  rfl

theorem AnalyzesOnly.sourceText (h : AnalyzesOnly server server' document) (uri : String) :
    server'.sourceText uri = server.sourceText uri :=
  sourceText_congr _ _ (by rw [h.documents]) (by rw [h.indexedSources])

theorem LinkedAt.of_project (h : server.LinkedAt isJavaIdentifierPart P uri)
    (hproject : ∀ locations, (uri, locations) ∈ server'.project.documents →
      (uri, locations) ∈ server.project.documents)
    (htext : ∀ source, server'.sourceText uri = some source → server.sourceText uri = some source) :
    server'.LinkedAt isJavaIdentifierPart P uri := by
  intro locations hlocations location hlocation
  obtain ⟨hdocument, hof⟩ := h locations (hproject locations hlocations) location hlocation
  exact ⟨hdocument, fun source hsource => hof source (htext source hsource)⟩

theorem LinkedAt.of_known (h : server.LinkedAt isJavaIdentifierPart P uri) (hknown : server.Known uri text)
    (hproject : server'.project = server.project) (htext : server'.sourceText uri = some text) :
    server'.LinkedAt isJavaIdentifierPart P uri := by
  rcases hknown with hsame | habsent
  · refine h.of_project (fun _ hlocations => hproject ▸ hlocations) fun source hsource => ?_
    rw [hsame, ← htext, hsource]
  · intro locations hlocations
    rw [hproject] at hlocations
    have hcontains := SymbolIndex.containsDocument_iff.mpr ⟨locations, hlocations⟩
    exact absurd (habsent.symm.trans hcontains) Bool.false_ne_true

theorem linkedAt_of_not_contains (h : server.project.containsDocument uri = false) :
    server.LinkedAt isJavaIdentifierPart P uri := by
  intro locations hlocations
  have hcontains := SymbolIndex.containsDocument_iff.mpr ⟨locations, hlocations⟩
  exact absurd (h.symm.trans hcontains) Bool.false_ne_true

/-- **An update leaves a document with the symbols of its text,** if it is its text that
was analyzed. -/
theorem linkedAt_updateIndex (hanswers : Answers.OfJavac isJavaIdentifierPart P answers)
    (hother : uri ≠ document → server.LinkedAt isJavaIdentifierPart P uri)
    (hsome : uri = document → (answers document source).isSome →
      ∀ text, server.sourceText document = some text → text = source)
    (hnone : uri = document → answers document source = none →
      server.LinkedAt isJavaIdentifierPart P uri) :
    (server.updateIndex answers document source).LinkedAt isJavaIdentifierPart P uri := by
  have htext := AnalyzesOnly.sourceText (analyzesOnly_updateIndex answers server document source) uri
  cases hresult : answers document source with
  | none =>
    rw [updateIndex_of_none hresult]
    by_cases huri : uri = document
    · exact hnone huri hresult
    · exact hother huri
  | some result =>
    have hproject : (server.updateIndex answers document source).project =
        server.project.updateDocument document result.symbols := by
      rw [updateIndex, hresult]
    by_cases huri : uri = document
    · subst huri
      intro locations hlocations location hlocation
      rw [hproject] at hlocations
      rcases SymbolIndex.mem_documents_updateDocument.mp hlocations with ⟨hne, -⟩ | hnew
      · exact absurd rfl hne
      · rw [(Prod.mk.inj hnew).2] at hlocation
        obtain ⟨hdocument, hof⟩ := isOf_of_mem_locations (hanswers uri source result hresult) hlocation
        refine ⟨hdocument, fun text htext' => ?_⟩
        rw [htext] at htext'
        rw [hsome rfl (hresult ▸ rfl) text htext']
        exact hof
    · refine (hother huri).of_project (fun locations hlocations => ?_) fun source' hsource => ?_
      · rw [hproject] at hlocations
        rcases SymbolIndex.mem_documents_updateDocument.mp hlocations with ⟨-, hmem⟩ | hnew
        · exact hmem
        · exact absurd (Prod.mk.inj hnew).1 huri
      · rw [← htext, hsource]

theorem LinkedAt.analyzeDocument (hanswers : Answers.OfJavac isJavaIdentifierPart P answers)
    (h : server.LinkedAt isJavaIdentifierPart P uri ∨ (uri = document ∧ ∃ opened : Document,
      server.documents[uri]? = some opened ∧ (answers uri opened.text).isSome)) :
    (server.analyzeDocument answers document).LinkedAt isJavaIdentifierPart P uri := by
  unfold Server.analyzeDocument
  split
  · next hclosed =>
    rcases h with hlinked | ⟨rfl, opened, hopened, -⟩
    · exact hlinked
    · exact absurd (hclosed.symm.trans hopened) (Option.some_ne_none opened).symm
  · next opened hopened =>
    refine linkedAt_updateIndex hanswers (fun hne => ?_) (fun _ _ text htext => ?_) fun heq hnone => ?_
    · exact h.resolve_right fun hself => hne hself.1
    · rw [sourceText_of_open _ hopened] at htext
      exact (Option.some.inj htext).symm
    · refine h.resolve_right ?_
      rintro ⟨-, opened', hopened', hisSome⟩
      subst heq
      rw [hopened] at hopened'
      rw [← Option.some.inj hopened', hnone] at hisSome
      exact absurd hisSome Bool.false_ne_true

theorem LinkedAt.analyzeOpened (hanswers : Answers.OfJavac isJavaIdentifierPart P answers)
    {opened : Document} (hopened : server.documents[document]? = some opened)
    (h : server.LinkedAt isJavaIdentifierPart P uri ∨
      (uri = document ∧ isExternal uri = false ∧ (answers uri opened.text).isSome)) :
    (server.analyzeOpened answers isExternal document).LinkedAt isJavaIdentifierPart P uri := by
  unfold Server.analyzeOpened
  split
  · next hexternal =>
    have hlinked := h.resolve_right fun hself => by
      rw [hself.1, hexternal] at hself
      exact Bool.noConfusion hself.2.1
    unfold Server.analyzeExternalDocument
    split
    · split
      · exact hlinked
      · exact hlinked
    · exact hlinked
  · refine LinkedAt.analyzeDocument hanswers (h.imp_right fun hself => ⟨hself.1, opened, ?_, hself.2.2⟩)
    rw [hself.1, hopened]

theorem linkedAt_foldl_analyzeDocument (hanswers : Answers.OfJavac isJavaIdentifierPart P answers)
    (documents : List String) (server : Server)
    (h : server.LinkedAt isJavaIdentifierPart P uri ∨ (uri ∈ documents ∧ ∃ opened : Document,
      server.documents[uri]? = some opened ∧ (answers uri opened.text).isSome)) :
    (documents.foldl (Server.analyzeDocument answers) server).LinkedAt isJavaIdentifierPart P uri := by
  induction documents generalizing server with
  | nil => exact h.resolve_right fun hself => absurd hself.1 List.not_mem_nil
  | cons document rest ih =>
    refine ih _ ?_
    rcases h with hlinked | ⟨hmem, opened, hopened, hisSome⟩
    · exact .inl (LinkedAt.analyzeDocument hanswers (.inl hlinked))
    · rcases List.mem_cons.mp hmem with rfl | hrest
      · exact .inl (LinkedAt.analyzeDocument hanswers (.inr ⟨rfl, opened, hopened, hisSome⟩))
      · refine .inr ⟨hrest, opened, ?_, hisSome⟩
        rw [(analyzesOnly_analyzeDocument answers server document).documents, hopened]

theorem linkedAt_didOpen (hanswers : Answers.OfJavac isJavaIdentifierPart P answers)
    (h : ∀ uri, server.LinkedAt isJavaIdentifierPart P uri) (opened : String) (version : Int) (text : Text)
    (origin : Option String)
    (hfollows : server.Known opened text ∨ (isExternal opened = false ∧ (answers opened text).isSome)) :
    (server.didOpen answers isExternal opened version text origin).LinkedAt isJavaIdentifierPart P uri := by
  obtain ⟨restored, hdocuments, hindexed, hproject, hopened⟩ : ∃ restored : Server,
      restored.documents = server.documents.insert opened ⟨version, text⟩ ∧
        restored.indexedSources = server.indexedSources ∧ restored.project = server.project ∧
        server.didOpen answers isExternal opened version text origin =
          restored.analyzeOpened answers isExternal opened := by
    unfold didOpen
    dsimp only
    split
    · refine ⟨_, ?_, ?_, ?_, rfl⟩ <;> rfl
    · refine ⟨_, ?_, ?_, ?_, rfl⟩ <;> rfl
  have hdocument : restored.documents[opened]? = some ⟨version, text⟩ := by
    rw [hdocuments, Std.ExtTreeMap.getElem?_insert_self]
  rw [hopened]
  refine LinkedAt.analyzeOpened hanswers hdocument ?_
  by_cases huri : uri = opened
  · subst huri
    exact hfollows.imp (fun hknown => (h uri).of_known hknown hproject (sourceText_of_open _ hdocument))
      fun hanalyzed => ⟨rfl, hanalyzed⟩
  · refine .inl ((h uri).of_project (fun _ hlocations => hproject ▸ hlocations) fun source hsource => ?_)
    rw [← hsource]
    refine (sourceText_congr _ _ ?_ (by rw [hindexed])).symm
    rw [hdocuments, getElem?_insert_of_ne _ _ huri]

/-- A change of texts alone: the symbols of the other documents stay linked, and those of
the changed one where they are known for its text. -/
theorem linkedAt_change (h : ∀ uri, server.LinkedAt isJavaIdentifierPart P uri) (changed : String) (version : Int)
    (changes : List Json)
    (hknown : ∀ document, (server.documents.change changed version changes).2[changed]? = some document →
      uri = changed → server.Known uri document.text) :
    ({ server with documents := (server.documents.change changed version changes).2 } :
      Server).LinkedAt isJavaIdentifierPart P uri := by
  obtain ⟨hothers, hopen⟩ := getElem?_change server.documents changed version changes
  by_cases huri : uri = changed
  · subst huri
    cases hafter : (server.documents.change uri version changes).2[uri]? with
    | some document =>
      exact (h uri).of_known (hknown document hafter rfl) rfl (sourceText_of_open _ hafter)
    | none =>
      rw [hafter] at hopen
      refine (h uri).of_project (fun _ hlocations => hlocations) fun source hsource => ?_
      rw [sourceText_of_closed _ hafter] at hsource
      rw [sourceText_of_closed _ (Option.not_isSome_iff_eq_none.mp fun hsome =>
        Bool.false_ne_true (hopen.trans hsome)), ← hsource]
  · refine (h uri).of_project (fun _ hlocations => hlocations) fun source hsource => ?_
    have hsame := sourceText_congr server ({ server with
      documents := (server.documents.change changed version changes).2 }) (hothers uri huri) rfl
    rw [← hsame, hsource]

theorem linkedAt_didChange (hanswers : Answers.OfJavac isJavaIdentifierPart P answers)
    (h : ∀ uri, server.LinkedAt isJavaIdentifierPart P uri) (changed : String) (version : Int)
    (changes : List Json)
    (hfollows : server.MessageFollows isExternal isAlphanumeric answers (.didChange changed version changes)) :
    (server.didChange answers isExternal changed version changes).LinkedAt isJavaIdentifierPart P uri := by
  have hfollows : ∀ document,
      (server.documents.change changed version changes).2[changed]? = some document →
        server.Known changed document.text ∨ (isExternal changed = false ∧
          (server.documents.change changed version changes).1.toOption.isSome ∧
            (answers changed document.text).isSome) := hfollows
  have hkept (uri : String) (hknown : ∀ document,
      (server.documents.change changed version changes).2[changed]? = some document → uri = changed →
        server.Known uri document.text) := linkedAt_change h changed version changes hknown
  unfold didChange
  split
  · next e documents hchange =>
    rw [hchange] at hkept hfollows
    refine hkept uri fun document hdocument huri => ?_
    subst huri
    exact (hfollows document hdocument).resolve_right fun hanalyzed =>
      Bool.false_ne_true hanalyzed.2.1
  · next document documents hchange =>
    rw [hchange] at hkept hfollows
    cases hafter : documents[changed]? with
    | none =>
      refine LinkedAt.of_project (hkept uri fun _ hsome => ?_) ?_ ?_
      · exact absurd (hafter.symm.trans hsome) (Option.some_ne_none _).symm
      · unfold Server.analyzeOpened Server.analyzeExternalDocument Server.analyzeDocument
        dsimp only
        rw [hafter]
        split
        · split
          · split <;> exact fun _ hlocations => hlocations
          · exact fun _ hlocations => hlocations
        · exact fun _ hlocations => hlocations
      · intro source hsource
        rw [← hsource]
        exact (AnalyzesOnly.sourceText (analyzesOnly_analyzeOpened _ _ _ _) _).symm
    | some opened =>
      refine LinkedAt.analyzeOpened hanswers hafter ?_
      by_cases huri : uri = changed
      · subst huri
        refine (hfollows opened hafter).imp (fun hknown => hkept uri fun other hother _ => ?_)
          fun hanalyzed => ⟨rfl, hanalyzed.1, hanalyzed.2.2⟩
        rw [hafter] at hother
        exact Option.some.inj hother ▸ hknown
      · exact .inl (hkept uri fun _ _ heq => absurd heq huri)

theorem linkedAt_didClose (hanswers : Answers.OfJavac isJavaIdentifierPart P answers)
    (h : ∀ uri, server.LinkedAt isJavaIdentifierPart P uri) (closed : String)
    (hfollows : ∀ source, server.indexedSources[closed]? = some source →
      server.Known closed source ∨ (answers closed source).isSome) :
    (server.didClose answers closed).LinkedAt isJavaIdentifierPart P uri := by
  have hothers : uri ≠ closed → ({ server with documents := server.documents.erase closed } :
      Server).LinkedAt isJavaIdentifierPart P uri := by
    intro huri
    refine (h uri).of_project (fun _ hlocations => hlocations) fun source hsource => ?_
    have hsame := sourceText_congr server
      ({ server with documents := server.documents.erase closed })
      (getElem?_erase_of_ne _ huri) rfl
    rw [← hsame, hsource]
  have herased : ({ server with documents := server.documents.erase closed } : Server).sourceText closed =
      server.indexedSources[closed]? := sourceText_of_closed _ Std.ExtTreeMap.getElem?_erase_self
  unfold didClose
  dsimp only
  split
  · next source hsource =>
    rw [hsource] at herased
    refine linkedAt_updateIndex hanswers hothers (fun _ _ text htext => ?_) fun huri hnone => ?_
    · rw [herased] at htext
      exact (Option.some.inj htext).symm
    · subst huri
      refine (h uri).of_known ((hfollows source hsource).resolve_right fun hsome => ?_) rfl herased
      rw [hnone] at hsome
      exact absurd hsome Bool.false_ne_true
  · by_cases huri : uri = closed
    · intro locations hlocations
      have hlocations : (uri, locations) ∈ (server.project.removeDocument closed).documents := hlocations
      rw [SymbolIndex.documents_removeDocument, List.mem_filter, decide_eq_true_eq] at hlocations
      exact absurd huri hlocations.2
    · refine (hothers huri).of_project (fun locations hlocations => ?_) fun _ hsource => hsource
      have hlocations : (uri, locations) ∈ (server.project.removeDocument closed).documents := hlocations
      rw [SymbolIndex.documents_removeDocument] at hlocations
      exact (List.mem_filter.mp hlocations).1

/-- What an analysis of documents that are not in the index leaves, and what it keeps. -/
structure Ensuring (isJavaIdentifierPart : Char → Bool) (P : Text → NamedTree → Prop)
    (server server' : Server) : Prop where
  linked : ∀ uri, server'.LinkedAt isJavaIdentifierPart P uri
  documents : server'.documents = server.documents
  indexedSources : server'.indexedSources = server.indexedSources
  contains : ∀ uri, server.project.containsDocument uri → server'.project.containsDocument uri

theorem linkedAt_ensure (hanswers : Answers.OfJavac isJavaIdentifierPart P answers)
    (h : ∀ uri, server.LinkedAt isJavaIdentifierPart P uri) (name : Text)
    (hfollows : server.SemanticsFollow isAlphanumeric answers name) :
    (server.ensureWorkspaceSymbolSemantics answers isAlphanumeric name).LinkedAt isJavaIdentifierPart P
      uri := by
  suffices hensuring : Ensuring isJavaIdentifierPart P server
      (server.ensureWorkspaceSymbolSemantics answers isAlphanumeric name) from hensuring.linked uri
  refine List.foldlRecOn _ _ ⟨h, rfl, rfl, fun _ hcontains => hcontains⟩ fun later hlater document hmem => ?_
  have honly := analyzesOnly_ensureSemantics answers later document
  refine ⟨fun uri => ?_, honly.documents.trans hlater.documents,
    honly.indexedSources.trans hlater.indexedSources,
    fun uri hcontains => containsDocument_ensureSemantics (hlater.contains uri hcontains)⟩
  unfold ensureSemantics
  split
  · exact hlater.linked uri
  · next habsent =>
    split
    · exact hlater.linked uri
    · next source hsource =>
      refine linkedAt_updateIndex hanswers (fun _ => hlater.linked uri) (fun _ hsome text htext => ?_)
        fun _ _ => hlater.linked uri
      obtain ⟨⟨entry, source'⟩, hentry, heq⟩ := List.mem_map.mp hmem
      obtain rfl : entry = document := heq
      obtain ⟨hindexed, hname⟩ := List.mem_filter.mp hentry
      have hindexed := Std.ExtTreeMap.mem_toList_iff_getElem?_eq_some.mp hindexed
      rw [hlater.indexedSources] at hsource
      obtain rfl : source' = source := Option.some.inj (hindexed.symm.trans hsource)
      have hnot : server.project.containsDocument entry = false :=
        Bool.eq_false_iff.mpr fun hcontains => habsent (hlater.contains _ hcontains)
      have hsame : later.sourceText entry = server.sourceText entry :=
        sourceText_congr _ _ (by rw [hlater.documents]) (by rw [hlater.indexedSources])
      rw [hsame, hfollows entry source' hindexed hname hnot hsome] at htext
      exact (Option.some.inj htext).symm

theorem exists_of_getElem?_sources {structural : List (String × Text × SemanticResult)}
    (h : (structural.foldl (fun (sources : BTreeMap Text) entry => sources.insert entry.1 entry.2.1)
      ∅)[uri]? = some text) : ∃ entry ∈ structural, entry.1 = uri ∧ entry.2.1 = text := by
  refine List.foldlRecOn (motive := fun sources : BTreeMap Text => sources[uri]? = some text →
    ∃ entry ∈ structural, entry.1 = uri ∧ entry.2.1 = text) _ _ ?_ ?_ h
  · intro hempty
    rw [Std.ExtTreeMap.getElem?_empty] at hempty
    cases hempty
  · intro sources ih entry hentry hsome
    by_cases huri : uri = entry.1
    · subst huri
      rw [Std.ExtTreeMap.getElem?_insert_self] at hsome
      exact ⟨entry, hentry, rfl, Option.some.inj hsome⟩
    · rw [getElem?_insert_of_ne _ _ huri] at hsome
      exact ih hsome

theorem structuralLinked_foldl {structural : List (String × Text × SemanticResult)}
    (hpublished : ∀ entry ∈ structural,
      AreReported isJavaIdentifierPart entry.2.1 (P entry.2.1) entry.2.2.symbols)
    {project : SymbolIndex} {sources : BTreeMap Text}
    (h : ∀ uri locations, (uri, locations) ∈ project.documents → ∃ source, sources[uri]? = some source ∧
      ∀ location ∈ locations, location.document = uri ∧ location.IsOf isJavaIdentifierPart P source) :
    ∀ uri locations, (uri, locations) ∈ (structural.foldl (fun project entry =>
        project.updateDocument entry.1 entry.2.2.symbols) project).documents →
      ∃ source, (structural.foldl (fun (sources : BTreeMap Text) entry =>
          sources.insert entry.1 entry.2.1) sources)[uri]? = some source ∧
        ∀ location ∈ locations, location.document = uri ∧ location.IsOf isJavaIdentifierPart P source := by
  induction structural generalizing project sources with
  | nil => exact h
  | cons entry rest ih =>
    refine ih (fun other hother => hpublished other (List.mem_cons_of_mem _ hother)) ?_
    intro uri locations hlocations
    rcases SymbolIndex.mem_documents_updateDocument.mp hlocations with ⟨hne, hmem⟩ | hnew
    · obtain ⟨source, hsource, hof⟩ := h uri locations hmem
      exact ⟨source, by rw [getElem?_insert_of_ne _ _ hne, hsource], hof⟩
    · obtain ⟨rfl, rfl⟩ := Prod.mk.inj hnew
      exact ⟨entry.2.1, Std.ExtTreeMap.getElem?_insert_self, fun location hlocation =>
        isOf_of_mem_locations (hpublished entry List.mem_cons_self) hlocation⟩

/-- What a turn of the loop over the files leaves. -/
structure Indexing (isJavaIdentifierPart : Char → Bool) (P : Text → NamedTree → Prop)
    (exempt : String → Prop) (server server' : Server) : Prop where
  linked : ∀ uri, ¬ exempt uri → server'.LinkedAt isJavaIdentifierPart P uri
  structural : server'.StructuralLinked isJavaIdentifierPart P
  documents : server'.documents = server.documents

theorem StructuralLinked.updateIndex (h : server.StructuralLinked isJavaIdentifierPart P)
    (answers : Answers) (uri : String) (source : Text) :
    (server.updateIndex answers uri source).StructuralLinked isJavaIdentifierPart P := by
  unfold Server.updateIndex
  split
  · exact h
  · exact h

theorem Indexing.indexSource {exempt : String → Prop} {later : Server} {file : String × Text}
    (hindexing : Answers.OfJavac isJavaIdentifierPart P indexing)
    (h : Indexing isJavaIdentifierPart P exempt server later)
    (hfollows : later.SourceFollows indexing exempt file) :
    Indexing isJavaIdentifierPart P exempt server (later.indexSource indexing file) := by
  obtain ⟨name, source⟩ := file
  have hinserted : ∀ uri ≠ name,
      (later.indexedSources.insert name source)[uri]? = later.indexedSources[uri]? :=
    fun uri huri => getElem?_insert_of_ne _ _ huri
  have honly := analyzesOnly_updateIndex indexing
    { later with indexedSources := later.indexedSources.insert name source } name source
  refine ⟨fun uri hexempt => ?_, ?_, honly.documents.trans h.documents⟩
  · refine linkedAt_updateIndex hindexing (fun huri => ?_) (fun huri hsome text htext => ?_)
      fun huri hnone => ?_
    · refine (h.linked uri hexempt).of_project (fun _ hlocations => hlocations) fun source' hsource => ?_
      have hsame := sourceText_congr later
        ({ later with indexedSources := later.indexedSources.insert name source })
        rfl (hinserted uri huri)
      rw [← hsame, hsource]
    · subst huri
      cases hopen : later.documents[uri]? with
      | some document =>
        rw [sourceText_of_open ({ later with
          indexedSources := later.indexedSources.insert uri source }) hopen] at htext
        rw [← Option.some.inj htext]
        exact hfollows.analyzed hexempt hsome document hopen
      | none =>
        rw [sourceText_of_closed ({ later with
          indexedSources := later.indexedSources.insert uri source }) hopen] at htext
        have htext : (later.indexedSources.insert uri source)[uri]? = some text := htext
        rw [Std.ExtTreeMap.getElem?_insert_self] at htext
        exact (Option.some.inj htext).symm
    · subst huri
      cases hopen : later.documents[uri]? with
      | some document =>
        refine (h.linked uri hexempt).of_project (fun _ hlocations => hlocations) fun source' hsource => ?_
        rw [sourceText_of_open ({ later with
          indexedSources := later.indexedSources.insert uri source }) hopen] at hsource
        rw [sourceText_of_open _ hopen, hsource]
      | none =>
        have hknown : later.Known uri source := by
          refine (hfollows.failed hexempt hnone).resolve_left fun hsome => ?_
          have hopen' : later.documents[(uri, source).1]? = none := hopen
          rw [hopen'] at hsome
          exact absurd hsome Bool.false_ne_true
        refine (h.linked uri hexempt).of_known hknown rfl ?_
        rw [sourceText_of_closed ({ later with
          indexedSources := later.indexedSources.insert uri source }) hopen]
        exact Std.ExtTreeMap.getElem?_insert_self
  · refine StructuralLinked.updateIndex (fun uri locations hlocations => ?_) _ _ _
    obtain ⟨source', hsource, hof⟩ := h.structural uri locations hlocations
    by_cases huri : uri = name
    · subst huri
      have hsame := hfollows.structural (SymbolIndex.containsDocument_iff.mpr ⟨locations, hlocations⟩)
      obtain rfl : source = source' := Option.some.inj (hsame.symm.trans hsource)
      exact ⟨source, Std.ExtTreeMap.getElem?_insert_self, hof⟩
    · exact ⟨source', (hinserted uri huri).trans hsource, hof⟩

/-- **A publication leaves the index with the texts it is of.** -/
theorem indexing_indexWorkspace {exempt : String → Prop}
    (hindexing : Answers.OfJavac isJavaIdentifierPart P indexing)
    (hpublication : publication.OfJavac isJavaIdentifierPart P)
    (hlinked : ∀ uri, ¬ exempt uri → server.LinkedAt isJavaIdentifierPart P uri)
    (hstructural : server.StructuralLinked isJavaIdentifierPart P)
    (hfollows : server.IndexFollows indexing exempt publication) :
    Indexing isJavaIdentifierPart P exempt server (server.indexWorkspace indexing publication) := by
  unfold IndexFollows at hfollows
  unfold Server.indexWorkspace
  split
  · next hnonempty =>
    rw [if_pos hnonempty] at hfollows
    refine ⟨fun uri hexempt => ?_, structuralLinked_foldl hpublication fun _ _ hnone =>
      absurd hnone List.not_mem_nil, rfl⟩
    have hsame := hlinked uri hexempt
    cases hopen : server.documents[uri]? with
    | some document =>
      refine hsame.of_project (fun _ hlocations => hlocations) fun source hsource => ?_
      rw [sourceText_of_open (server.indexStructural publication.structural) hopen] at hsource
      rw [sourceText_of_open _ hopen, hsource]
    | none =>
      by_cases hcontains : server.project.containsDocument uri = true
      · refine hsame.of_project (fun _ hlocations => hlocations) fun source hsource => ?_
        rw [sourceText_of_closed (server.indexStructural publication.structural) hopen] at hsource
        obtain ⟨entry, hentry, rfl, rfl⟩ := exists_of_getElem?_sources hsource
        refine (hfollows entry hentry ?_).resolve_right fun habsent => ?_
        · rw [hopen]
          rfl
        · rw [habsent] at hcontains
          exact absurd hcontains Bool.false_ne_true
      · exact linkedAt_of_not_contains (Bool.not_eq_true _ ▸ hcontains)
  · next hempty =>
    rw [if_neg hempty] at hfollows
    split
    · exact ⟨hlinked, hstructural, rfl⟩
    · next hready =>
      exact (hfollows (Bool.not_eq_true _ ▸ hready)).invariant
        (Indexing isJavaIdentifierPart P exempt server)
        (fun later file _ hlater hfile => hlater.indexSource hindexing hfile)
        ⟨hlinked, hstructural, rfl⟩

theorem linked_forget (server : Server) : server.forget.Linked isJavaIdentifierPart P :=
  ⟨fun _ _ hlocations => absurd hlocations List.not_mem_nil,
    fun _ _ hlocations => absurd hlocations List.not_mem_nil⟩

structure SameStructure (server server' : Server) : Prop where
  project : server'.structuralProject = server.structuralProject
  sources : server'.indexedSources = server.indexedSources

theorem StructuralLinked.of_same (h : server.StructuralLinked isJavaIdentifierPart P)
    (hsame : SameStructure server server') : server'.StructuralLinked isJavaIdentifierPart P := by
  intro uri locations hlocations
  rw [hsame.project] at hlocations
  rw [hsame.sources]
  exact h uri locations hlocations

theorem SameStructure.trans {server'' : Server} (h : SameStructure server server')
    (h' : SameStructure server' server'') : SameStructure server server'' :=
  ⟨h'.project.trans h.project, h'.sources.trans h.sources⟩

theorem sameStructure_updateIndex (answers : Answers) (server : Server) (uri : String) (source : Text) :
    SameStructure server (server.updateIndex answers uri source) := by
  unfold updateIndex
  split
  · exact ⟨rfl, rfl⟩
  · exact ⟨rfl, rfl⟩

theorem sameStructure_analyzeDocument (answers : Answers) (server : Server) (uri : String) :
    SameStructure server (server.analyzeDocument answers uri) := by
  unfold analyzeDocument
  split
  · exact ⟨rfl, rfl⟩
  · exact sameStructure_updateIndex _ _ _ _

theorem sameStructure_analyzeOpened (answers : Answers) (server : Server) (isExternal : String → Bool)
    (uri : String) : SameStructure server (server.analyzeOpened answers isExternal uri) := by
  unfold analyzeOpened
  split
  · unfold analyzeExternalDocument
    split
    · split
      · exact ⟨rfl, rfl⟩
      · exact ⟨rfl, rfl⟩
    · exact ⟨rfl, rfl⟩
  · exact sameStructure_analyzeDocument _ _ _

theorem sameStructure_foldl {f : Server → String → Server}
    (hf : ∀ server document, SameStructure server (f server document)) (documents : List String)
    (server : Server) : SameStructure server (documents.foldl f server) :=
  List.foldlRecOn documents f ⟨rfl, rfl⟩ fun _ h document _ => h.trans (hf _ document)

theorem sameStructure_ensureSemantics (answers : Answers) (server : Server) (document : String) :
    SameStructure server (server.ensureSemantics answers document) := by
  unfold ensureSemantics
  split
  · exact ⟨rfl, rfl⟩
  · split
    · exact ⟨rfl, rfl⟩
    · exact sameStructure_updateIndex _ _ _ _

theorem sameStructure_handle (isExternal : String → Bool) (isAlphanumeric : Char → Bool)
    (answers : Answers) (server : Server) {message : Message} (hrebuilds : message.rebuilds = false) :
    SameStructure server (server.handle isExternal isAlphanumeric answers message) := by
  cases message with
  | didOpen uri version text origin =>
    show SameStructure server (server.didOpen answers isExternal uri version text origin)
    unfold didOpen
    dsimp only
    split
    · refine SameStructure.trans ?_ (sameStructure_analyzeOpened _ _ _ _)
      exact ⟨rfl, rfl⟩
    · refine SameStructure.trans ?_ (sameStructure_analyzeOpened _ _ _ _)
      exact ⟨rfl, rfl⟩
  | didChange uri version changes =>
    show SameStructure server (server.didChange answers isExternal uri version changes)
    unfold didChange
    split
    · exact ⟨rfl, rfl⟩
    · refine SameStructure.trans ?_ (sameStructure_analyzeOpened _ _ _ _)
      exact ⟨rfl, rfl⟩
  | didClose uri =>
    show SameStructure server (server.didClose answers uri)
    unfold didClose
    dsimp only
    split
    · refine SameStructure.trans ?_ (sameStructure_updateIndex _ _ _ _)
      exact ⟨rfl, rfl⟩
    · exact ⟨rfl, rfl⟩
  | symbolSemantics name => exact sameStructure_foldl (sameStructure_ensureSemantics answers) _ _
  | reindex publication indexing => cases hrebuilds
  | rebuildIndex publication => cases hrebuilds
  | _ => exact ⟨rfl, rfl⟩

theorem Linked.refresh (h : server.Linked isJavaIdentifierPart P)
    (hindexing : Answers.OfJavac isJavaIdentifierPart P indexing)
    (hpublication : publication.OfJavac isJavaIdentifierPart P)
    (hfollows : publication.revision ≠ server.structuralRevision →
      server.IndexFollows indexing (fun _ => False) publication) :
    (server.refresh indexing publication).Linked isJavaIdentifierPart P := by
  unfold Server.refresh
  split
  · next hrevision =>
    have hindexed := indexing_indexWorkspace hindexing hpublication (fun uri _ => h.project uri)
      h.structural (hfollows hrevision)
    exact ⟨fun uri => hindexed.linked uri id, hindexed.structural⟩
  · exact h

theorem linked_reindex (hanswers : Answers.OfJavac isJavaIdentifierPart P answers)
    (hindexing : Answers.OfJavac isJavaIdentifierPart P indexing)
    (hpublication : publication.OfJavac isJavaIdentifierPart P)
    (hfollows : server.MessageFollows isExternal isAlphanumeric answers (.reindex publication indexing)) :
    (server.reindexOpenDocuments answers publication indexing).Linked isJavaIdentifierPart P := by
  have hforgotten : server.forget.Linked isJavaIdentifierPart P := linked_forget server
  have hindexed := indexing_indexWorkspace hindexing hpublication (fun uri _ => hforgotten.project uri)
    hforgotten.structural hfollows
  refine ⟨fun uri => linkedAt_foldl_analyzeDocument hanswers _ _ ?_,
    hindexed.structural.of_same (sameStructure_foldl (sameStructure_analyzeDocument answers) _ _)⟩
  by_cases hopen : ∃ document, server.documents[uri]? = some document ∧ (answers uri document.text).isSome
  · obtain ⟨document, hdocument, hisSome⟩ := hopen
    refine .inr ⟨?_, document, ?_, hisSome⟩
    · rw [Std.ExtTreeMap.mem_keys]
      exact Std.ExtTreeMap.mem_iff_isSome_getElem?.mpr (hdocument ▸ rfl)
    · show (server.forget.indexWorkspace indexing publication).documents[uri]? = some document
      rw [hindexed.documents]
      exact hdocument
  · exact .inl (hindexed.linked uri hopen)

/-- **A message leaves the index with the texts there are,** if the index follows it. -/
theorem Linked.handle (h : server.Linked isJavaIdentifierPart P)
    (hanswers : Answers.OfJavac isJavaIdentifierPart P answers) {message : Message}
    (hmessage : message.OfJavac isJavaIdentifierPart P)
    (hfollows : server.MessageFollows isExternal isAlphanumeric answers message) :
    (server.handle isExternal isAlphanumeric answers message).Linked isJavaIdentifierPart P := by
  by_cases hrebuilds : message.rebuilds = false
  · refine ⟨fun uri => ?_, h.structural.of_same
      (sameStructure_handle isExternal isAlphanumeric answers server hrebuilds)⟩
    cases message with
    | didOpen uri version text origin => exact linkedAt_didOpen hanswers h.project _ _ _ _ hfollows
    | didChange uri version changes => exact linkedAt_didChange hanswers h.project _ _ _ hfollows
    | didClose uri => exact linkedAt_didClose hanswers h.project _ hfollows
    | symbolSemantics name => exact linkedAt_ensure hanswers h.project _ hfollows
    | reindex publication indexing => cases hrebuilds
    | rebuildIndex publication => cases hrebuilds
    | externalLocation uri origin => exact (h.project _).of_project (fun _ hmem => hmem) fun _ hsource => hsource
    | documentDiagnostic uri previous => exact h.project _
    | workspaceDiagnostic previous => exact h.project _
  · cases message with
    | reindex publication indexing => exact linked_reindex hanswers hmessage.2 hmessage.1 hfollows
    | rebuildIndex publication =>
      have hforgotten : server.forget.Linked isJavaIdentifierPart P := linked_forget server
      have hindexed := indexing_indexWorkspace hanswers hmessage (fun uri _ => hforgotten.project uri)
        hforgotten.structural hfollows
      exact ⟨fun uri => hindexed.linked uri id, hindexed.structural⟩
    | _ => exact absurd rfl hrebuilds

end Linking

end Server

section Runs

variable {isJavaIdentifierPart : Char → Bool} {P : Text → NamedTree → Prop}
  {isExternal : String → Bool} {isAlphanumeric : Char → Bool}

/-- **In a run that is followed the index is of the texts there are.** -/
theorem linked_run {events : List Event} (hjavac : ∀ event ∈ events, event.OfJavac isJavaIdentifierPart P)
    (hfollowed : Loop.Guarded (Session.Follows isExternal isAlphanumeric)
      (Session.step isExternal isAlphanumeric) .new events) :
    (Session.run isExternal isAlphanumeric events).server.Linked isJavaIdentifierPart P := by
  refine hfollowed.invariant (fun session : Session => session.server.Linked isJavaIdentifierPart P)
    (fun session event hevent hlinked hfollows => ?_)
    ⟨fun _ _ hlocations => absurd hlocations List.not_mem_nil,
      fun _ _ hlocations => absurd hlocations List.not_mem_nil⟩
  have hsaid := hjavac event hevent
  have hrefreshed := hlinked.refresh hsaid.indexing hsaid.publication hfollows.indexed
  exact hrefreshed.handle hsaid.answers hsaid.message hfollows.handled

end Runs

-- Edits
-- ---

def Server.clientText (server : Server) (disk : String → Option Text) (uri : String) : Option Text :=
  ((server.documents[uri]?).map Document.text).or (disk uri)

def TextEdit.Replaces (edit : TextEdit) (text word : Text) : Prop :=
  ∃ before after, text = before ++ word ++ after ∧ edit.start = positionAfter before ∧
    edit.stop = positionAfter (before ++ word)

/-- The edits of a document replace a word of its text, each another place. -/
def ReplacesNames (client : String → Option Text) (word : Text) (changes : Changes) : Prop :=
  ∀ uri edits, changes[uri]? = some edits → ∃ text, client uri = some text ∧
    (∀ edit ∈ edits, edit.Replaces text word) ∧ edits.Pairwise fun edit later => edit.stop ≤ later.start

section Edits

variable (isJavaIdentifierPart : Char → Bool)

def WrittenOut (name : String) (source : Text) (tree : NamedTree) : Prop :=
  tree.name = name → tree.isSpelled isJavaIdentifierPart source = true

instance (name : String) (source : Text) (tree : NamedTree) :
    Decidable (WrittenOut isJavaIdentifierPart name source tree) :=
  inferInstanceAs (Decidable (tree.name = name → tree.isSpelled isJavaIdentifierPart source = true))

/-- What is known of a symbol is of the texts a client has: its locations have its name,
none is that of a subtype, and those of the workspace are of documents that are not open
with another text than the one that is indexed. -/
structure Server.Renamable (server : Server) (disk : String → Option Text) (symbol : SymbolLocation) :
    Prop where
  named : ∀ location ∈ server.project.entries ++ server.structuralProject.entries,
    location.symbolId ∈ server.relatedSymbolIds symbol.identity →
      location.name = symbol.name ∧ location.role ≠ "type_edge"
  indexed : ∀ location ∈ server.structuralProject.entries,
    location.symbolId ∈ server.relatedSymbolIds symbol.identity →
      server.sourceText location.document = server.indexedSources[location.document]?
  closed : ∀ location ∈ server.project.entries ++ server.structuralProject.entries,
    location.symbolId ∈ server.relatedSymbolIds symbol.identity →
      server.documents[location.document]? = none →
        disk location.document = server.indexedSources[location.document]?
  solid : Solid isJavaIdentifierPart symbol.name.toList

variable {isJavaIdentifierPart} {server : Server} {disk : String → Option Text} {symbol location : SymbolLocation}
  {source name : Text} {uri newName : String} {locations : List SymbolLocation} {changes : Changes}

theorem Server.mem_renameLocations {related : List String} (h : location ∈ server.renameLocations related) :
    location.symbolId ∈ related ∧
      (location ∈ server.project.entries ∨ location ∈ server.structuralProject.entries) := by
  -- both indexes are filtered for the symbol
  have hfiltered : ∀ {symbolId : String} {primary secondary : List SymbolLocation} {p : SymbolLocation → Bool},
      location ∈ SymbolLocation.sortedUnique (primary.filter (fun location =>
          p location && decide (location.symbolId = symbolId)) ++
        secondary.filter (fun location => p location && decide (location.symbolId = symbolId))) →
      location.symbolId = symbolId ∧ (location ∈ primary ∨ location ∈ secondary) := by
    intro symbolId primary secondary p hmem
    rcases List.mem_append.mp (SymbolLocation.mem_of_mem_sortedUnique hmem) with hmem | hmem
    · obtain ⟨hprimary, hsymbol⟩ := List.mem_filter.mp hmem
      exact ⟨of_decide_eq_true (Bool.and_eq_true _ _ ▸ hsymbol).2, .inl hprimary⟩
    · obtain ⟨hsecondary, hsymbol⟩ := List.mem_filter.mp hmem
      exact ⟨of_decide_eq_true (Bool.and_eq_true _ _ ▸ hsymbol).2, .inr hsecondary⟩
  rcases List.mem_append.mp (SymbolLocation.mem_of_mem_sortedUnique h) with hmem | hmem
  · obtain ⟨symbolId, hrelated, hdefinition⟩ := List.mem_flatMap.mp hmem
    simp only [allDefinitions, SymbolIndex.definitions, Bool.decide_and] at hdefinition
    obtain ⟨rfl, hindex⟩ := hfiltered hdefinition
    exact ⟨hrelated, hindex⟩
  · obtain ⟨symbolId, hrelated, hreference⟩ := List.mem_flatMap.mp hmem
    simp only [allReferences, SymbolIndex.references, Bool.decide_and] at hreference
    obtain ⟨rfl, hindex⟩ := hfiltered hreference
    exact ⟨hrelated, hindex⟩

theorem standsAt_of_isOf {name : String}
    (h : location.IsOf isJavaIdentifierPart (WrittenOut isJavaIdentifierPart name) source)
    (hname : location.name = name) (hrole : location.role ≠ "type_edge") :
    StandsAt isJavaIdentifierPart source name.toList location.start ∧
      location.stop = location.start + utf16Length name.toList ∧ name.toList ≠ [] := by
  obtain ⟨tree, hwritten, hrange, htree⟩ := h
  obtain rfl : name = tree.name := hname.symm.trans (htree hrole)
  rcases tree.range_cases isJavaIdentifierPart source with ⟨-, hne, offset, hstands, hspelled⟩ | ⟨hnot, -⟩
  · rw [hspelled] at hrange
    obtain ⟨hstart, hstop⟩ := Prod.mk.inj hrange
    exact ⟨hstart ▸ hstands, by rw [hstop, hstart], hne⟩
  · exact absurd (hnot.symm.trans (hwritten rfl)) Bool.false_ne_true

/-- **Every place of a symbol is its name in the text of its document.** -/
theorem Server.Renamable.standsAt (h : server.Renamable isJavaIdentifierPart disk symbol)
    (hlinked : server.Linked isJavaIdentifierPart (WrittenOut isJavaIdentifierPart symbol.name))
    (hlocation : location ∈ server.renameLocations (server.relatedSymbolIds symbol.identity))
    (hsource : server.sourceText location.document = some source) :
    StandsAt isJavaIdentifierPart source symbol.name.toList location.start ∧
      location.stop = location.start + utf16Length symbol.name.toList ∧ symbol.name.toList ≠ [] := by
  obtain ⟨hrelated, hindex⟩ := Server.mem_renameLocations hlocation
  obtain ⟨hname, hrole⟩ := h.named location (List.mem_append.mpr hindex) hrelated
  refine standsAt_of_isOf ?_ hname hrole
  rcases hindex with hproject | hstructural
  · obtain ⟨⟨document, locations⟩, hdocuments, hmem⟩ := List.mem_flatMap.mp hproject
    obtain ⟨rfl, hof⟩ := hlinked.project document locations hdocuments location hmem
    exact hof source hsource
  · obtain ⟨⟨document, locations⟩, hdocuments, hmem⟩ := List.mem_flatMap.mp hstructural
    obtain ⟨indexed, hindexed, hlocations⟩ := hlinked.structural document locations hdocuments
    obtain ⟨rfl, hof⟩ := hlocations location hmem
    rw [h.indexed location hstructural hrelated, hindexed] at hsource
    exact Option.some.inj hsource ▸ hof

theorem replaces_textEdit (h : StandsAt isJavaIdentifierPart source name location.start)
    (hstop : location.stop = location.start + utf16Length name) (newName : String) :
    (Server.textEdit source newName location).Replaces source name := by
  obtain ⟨before, after, rfl, hstart, -, -⟩ := h
  refine ⟨before, after, rfl, ?_, ?_⟩
  · show offsetToPosition (before ++ name ++ after) location.start = positionAfter before
    rw [← hstart, List.append_assoc, offsetToPosition_append]
  · show offsetToPosition (before ++ name ++ after) location.stop = positionAfter (before ++ name)
    rw [hstop, ← hstart, ← utf16Length_append, offsetToPosition_append]

theorem stop_le_start {later : SymbolLocation}
    (h : StandsAt isJavaIdentifierPart source name location.start)
    (hstop : location.stop = location.start + utf16Length name)
    (hlater : StandsAt isJavaIdentifierPart source name later.start)
    (hsolid : Solid isJavaIdentifierPart name) (hlt : location.start < later.start) (newName : String) :
    (Server.textEdit source newName location).stop ≤ (Server.textEdit source newName later).start := by
  have hle := h.add_le hlater hsolid hlt
  obtain ⟨before, after, hsource, hstart, -, -⟩ := h
  obtain ⟨before', after', hsource', hstart', -, -⟩ := hlater
  -- what is before the later place begins with what is before the end of this one
  have hprefix : before ++ name <+: before' := by
    have hleft : before ++ name <+: source := ⟨after, hsource.symm⟩
    have hright : before' <+: source := ⟨name ++ after', by rw [hsource', List.append_assoc]⟩
    rcases List.prefix_or_prefix_of_prefix hleft hright with hprefix | ⟨rest, hrest⟩
    · exact hprefix
    · have hlength : utf16Length (before ++ name) ≤ utf16Length before' := by
        rw [utf16Length_append, hstart, hstart']
        exact hle
      rw [← hrest, utf16Length_append] at hlength
      have hnil : rest = [] := by
        by_contra hne
        have hpos := utf16Length_pos hne
        omega
      rw [hnil, List.append_nil] at hrest
      exact hrest ▸ List.prefix_refl _
  obtain ⟨between, hbetween⟩ := hprefix
  show offsetToPosition source location.stop ≤ offsetToPosition source later.start
  rw [hstop, ← hstart, ← hstart', ← utf16Length_append]
  have hend : offsetToPosition source (utf16Length (before ++ name)) = positionAfter (before ++ name) := by
    rw [hsource, offsetToPosition_append]
  have hbegin : offsetToPosition source (utf16Length before') = positionAfter before' := by
    rw [hsource', List.append_assoc, offsetToPosition_append]
  rw [hend, hbegin, ← hbetween]
  exact positionAfter_le _ _

theorem getElem?_pushEdits_of_none
    (h : ∀ location ∈ locations, location.document = uri → server.sourceText uri = none) :
    (locations.foldl (server.pushEdit newName) changes)[uri]? = changes[uri]? := by
  induction locations generalizing changes with
  | nil => rfl
  | cons location rest ih =>
    rw [List.foldl_cons, ih fun other hother => h other (List.mem_cons_of_mem _ hother), Server.pushEdit]
    split
    · rfl
    · next source hsource =>
      refine Server.getElem?_insert_of_ne _ _ ?_
      rintro rfl
      have hnone := h location List.mem_cons_self rfl
      exact absurd (hnone.symm.trans hsource) (Option.some_ne_none source).symm

theorem getElem?_pushEdits (hsource : server.sourceText uri = some source) {edits : List TextEdit}
    (h : (locations.foldl (server.pushEdit newName) changes)[uri]? = some edits) :
    edits = (changes[uri]?).getD [] ++ (locations.filter fun location => location.document = uri).map
      (Server.textEdit source newName) := by
  induction locations generalizing changes with
  | nil =>
    rw [List.foldl_nil] at h
    rw [h, List.filter_nil, List.map_nil, List.append_nil]
    rfl
  | cons location rest ih =>
    rw [ih h, List.filter_cons]
    by_cases hdocument : location.document = uri
    · subst hdocument
      rw [if_pos (decide_eq_true rfl), List.map_cons, Server.pushEdit, hsource]
      dsimp only
      rw [Std.ExtTreeMap.getElem?_insert_self, Option.getD_some, List.append_assoc]
      rfl
    · rw [if_neg (by simpa using hdocument), Server.pushEdit]
      split
      · rfl
      · rw [Server.getElem?_insert_of_ne _ _ (Ne.symm hdocument)]

theorem start_lt_of_place_lt {later : SymbolLocation} {length : Nat} (h : location.place < later.place)
    (hdocument : location.document = later.document) (hstop : location.stop = location.start + length)
    (hlater : later.stop = later.start + length) : location.start < later.start := by
  rcases Prod.Lex.toLex_lt_toLex.mp h with hlt | ⟨-, hrest⟩
  · exact absurd hdocument (ne_of_lt hlt)
  · rcases Prod.Lex.toLex_lt_toLex.mp hrest with hlt | ⟨hstart, hlt⟩
    · exact hlt
    · have hstart : location.start = later.start := hstart
      have hlt : location.stop < later.stop := hlt
      omega

/-- **The edits replace the name wherever the symbol is.** -/
theorem Server.Renamable.replacesNames (h : server.Renamable isJavaIdentifierPart disk symbol)
    (hlinked : server.Linked isJavaIdentifierPart (WrittenOut isJavaIdentifierPart symbol.name)) :
    ReplacesNames (server.clientText disk) symbol.name.toList
      ((server.renameLocations (server.relatedSymbolIds symbol.identity)).foldl
        (server.pushEdit newName) ∅) := by
  intro uri edits hedits
  obtain ⟨first, hfirst, rfl, hsome⟩ : ∃ location ∈
      server.renameLocations (server.relatedSymbolIds symbol.identity),
        location.document = uri ∧ server.sourceText uri ≠ none := by
    by_contra hnone
    rw [getElem?_pushEdits_of_none fun location hlocation hdocument =>
        not_not.mp fun hsome => hnone ⟨location, hlocation, hdocument, hsome⟩,
      Std.ExtTreeMap.getElem?_empty] at hedits
    cases hedits
  obtain ⟨source, hsource⟩ := Option.ne_none_iff_exists'.mp hsome
  have hlist := getElem?_pushEdits hsource hedits
  rw [Std.ExtTreeMap.getElem?_empty, Option.getD_none, List.nil_append] at hlist
  have hstands : ∀ location ∈ server.renameLocations (server.relatedSymbolIds symbol.identity),
      location.document = first.document →
        StandsAt isJavaIdentifierPart source symbol.name.toList location.start ∧
          location.stop = location.start + utf16Length symbol.name.toList := by
    intro location hlocation hdocument
    rw [← hdocument] at hsource
    obtain ⟨hstands, hstop, -⟩ := h.standsAt hlinked hlocation hsource
    exact ⟨hstands, hstop⟩
  refine ⟨source, ?_, ?_, ?_⟩
  · cases hopen : server.documents[first.document]? with
    | some document =>
      rw [Server.sourceText_of_open _ hopen] at hsource
      rw [Server.clientText, hopen]
      exact hsource
    | none =>
      obtain ⟨hrelated, hindex⟩ := Server.mem_renameLocations hfirst
      rw [Server.sourceText_of_closed _ hopen] at hsource
      rw [Server.clientText, hopen, Option.map_none, Option.none_or,
        h.closed first (List.mem_append.mpr hindex) hrelated hopen, hsource]
  · intro edit hedit
    rw [hlist] at hedit
    obtain ⟨location, hlocation, rfl⟩ := List.mem_map.mp hedit
    obtain ⟨hmem, hdocument⟩ := List.mem_filter.mp hlocation
    obtain ⟨hstand, hstop⟩ := hstands location hmem (of_decide_eq_true hdocument)
    exact replaces_textEdit hstand hstop newName
  · rw [hlist, List.pairwise_map]
    refine ((SymbolLocation.pairwise_sortedUnique _).filter _).imp_of_mem fun {location later} hmem hmem' hlt => ?_
    obtain ⟨hlocation, hdocument⟩ := List.mem_filter.mp hmem
    obtain ⟨hlater, hdocument'⟩ := List.mem_filter.mp hmem'
    have hdocument := of_decide_eq_true hdocument
    have hdocument' := of_decide_eq_true hdocument'
    obtain ⟨hstand, hstop⟩ := hstands location hlocation hdocument
    obtain ⟨hstand', hstop'⟩ := hstands later hlater hdocument'
    exact stop_le_start hstand hstop hstand' h.solid
      (start_lt_of_place_lt hlt (hdocument.trans hdocument'.symm) hstop hstop') newName

end Edits

-- Requests
-- ---

/-- A request, what the backend publishes when it comes, and what it answers. -/
structure RenameRequest where
  publication : Publication
  indexing : Answers
  answers : Answers
  uri : String
  position : Json
  newName : Option String

namespace RenameRequest

variable (isAlphabetic isAlphanumeric isJavaIdentifierPart : Char → Bool) (session : Session)
  (disk : String → Option Text) (request : RenameRequest)

def refreshed : Server := session.server.refresh request.indexing request.publication

def server : Server :=
  match (request.refreshed session).requestPosition request.uri request.position with
  | none => request.refreshed session
  | some offset => (request.refreshed session).ensured isAlphanumeric request.answers request.uri offset

def symbol : Option SymbolLocation :=
  ((request.refreshed session).requestPosition request.uri request.position).bind
    ((request.server isAlphanumeric session).project.symbolAt request.uri)

def answer : Except String Changes :=
  ((request.refreshed session).rename isAlphabetic isAlphanumeric request.answers request.uri
    request.position request.newName).1

/-- **What a rename is for:** an answer with edits replaces the name of the symbol. -/
def Sound : Prop :=
  ∀ symbol changes, request.symbol isAlphanumeric session = some symbol →
    request.answer isAlphabetic isAlphanumeric session = .ok changes →
      ReplacesNames ((request.server isAlphanumeric session).clientText disk) symbol.name.toList changes

structure OfJavac (P : Text → NamedTree → Prop) : Prop where
  publication : request.publication.OfJavac isJavaIdentifierPart P
  indexing : Answers.OfJavac isJavaIdentifierPart P request.indexing
  answers : Answers.OfJavac isJavaIdentifierPart P request.answers

/-- The index still follows the texts when the symbol is looked up. -/
structure Follows : Prop where
  indexed : request.publication.revision ≠ session.server.structuralRevision →
    session.server.IndexFollows request.indexing (fun _ => False) request.publication
  ensured : ∀ offset found,
    (request.refreshed session).requestPosition request.uri request.position = some offset →
      (request.refreshed session).project.symbolAt request.uri offset = some found →
        (request.refreshed session).SemanticsFollow isAlphanumeric request.answers found.name.toList

variable {isAlphabetic isAlphanumeric isJavaIdentifierPart session request}

theorem linked_server {P : Text → NamedTree → Prop}
    (hlinked : session.server.Linked isJavaIdentifierPart P) (hjavac : request.OfJavac isJavaIdentifierPart P)
    (hfollows : request.Follows isAlphanumeric session) :
    (request.server isAlphanumeric session).Linked isJavaIdentifierPart P := by
  have hrefreshed := hlinked.refresh hjavac.indexing hjavac.publication hfollows.indexed
  unfold server
  split
  · exact hrefreshed
  · next offset hposition =>
    unfold Server.ensured
    split
    · exact hrefreshed
    · next found hfound =>
      exact ⟨fun uri => Server.linkedAt_ensure hjavac.answers hrefreshed.project _
          (hfollows.ensured offset found hposition hfound),
        hrefreshed.structural.of_same
          (Server.sameStructure_foldl (Server.sameStructure_ensureSemantics request.answers) _ _)⟩

theorem exists_of_answer {symbol : SymbolLocation} {changes : Changes}
    (hsymbol : request.symbol isAlphanumeric session = some symbol)
    (h : request.answer isAlphabetic isAlphanumeric session = .ok changes) :
    ∃ newName, changes = ((request.server isAlphanumeric session).renameLocations
      ((request.server isAlphanumeric session).relatedSymbolIds symbol.identity)).foldl
        ((request.server isAlphanumeric session).pushEdit newName) ∅ := by
  unfold RenameRequest.symbol at hsymbol
  unfold answer Server.rename at h
  cases hposition : (request.refreshed session).requestPosition request.uri request.position with
  | none =>
    rw [hposition] at hsymbol
    cases hsymbol
  | some offset =>
    have hserver : request.server isAlphanumeric session =
        (request.refreshed session).ensured isAlphanumeric request.answers request.uri offset := by
      rw [server, hposition]
    rw [hposition] at hsymbol h
    have hsymbol : (request.server isAlphanumeric session).project.symbolAt request.uri offset =
        some symbol := hsymbol
    rw [hserver] at hsymbol ⊢
    dsimp only at h
    cases hname : request.newName with
    | none =>
      rw [hname] at h
      cases h
    | some newName =>
      rw [hname] at h
      dsimp only at h
      split at h
      · cases h
      · rw [hsymbol] at h
        dsimp only at h
        unfold Server.renameSymbol at h
        dsimp only at h
        split at h
        · cases h
        · split at h
          · cases h
          · split at h
            · cases h
            · exact ⟨newName, (Except.ok.inj h).symm⟩

end RenameRequest

section Soundness

variable (isExternal : String → Bool) (isAlphabetic isAlphanumeric isJavaIdentifierPart : Char → Bool)

/-- **Where the indexes are of the texts the client has, a rename replaces the name of
the symbol and nothing else.** -/
theorem rename_replaces_names (events : List Event) (request : RenameRequest) (disk : String → Option Text)
    (symbol : SymbolLocation)
    (hsymbol : request.symbol isAlphanumeric (Session.run isExternal isAlphanumeric events) = some symbol)
    (hjavac : ∀ event ∈ events,
      event.OfJavac isJavaIdentifierPart (WrittenOut isJavaIdentifierPart symbol.name))
    (hrequest : request.OfJavac isJavaIdentifierPart (WrittenOut isJavaIdentifierPart symbol.name))
    (hfollowed : Loop.Guarded (Session.Follows isExternal isAlphanumeric)
      (Session.step isExternal isAlphanumeric) .new events)
    (hfollows : request.Follows isAlphanumeric (Session.run isExternal isAlphanumeric events))
    (hrenamable : (request.server isAlphanumeric (Session.run isExternal isAlphanumeric events)).Renamable
      isJavaIdentifierPart disk symbol) :
    request.Sound isAlphabetic isAlphanumeric (Session.run isExternal isAlphanumeric events) disk := by
  intro renamed changes hrenamed hanswer
  obtain rfl : symbol = renamed := Option.some.inj (hsymbol.symm.trans hrenamed)
  have hlinked := RenameRequest.linked_server (linked_run hjavac hfollowed) hrequest hfollows
  obtain ⟨newName, rfl⟩ := RenameRequest.exists_of_answer hsymbol hanswer
  exact hrenamable.replacesNames hlinked

end Soundness

-- Two renames of a class
-- ---

def classDocument : String := "file:///A.java"

def classOnDisk : Text := "class A {}".toList

def classInEditor : Text := "//\nclass A {}".toList

def classUnit (start stop : Int) : CompilationUnit where
  package := none
  trees := [{ start := start, stop := stop, name := "A", isDeclaration := true, isSymbolTree := true
              isWriteAccess := false, kind := "class", qualifiedName := "A"
              symbolId := "<unnamed>|LA;", supertypes := [("Object", "java.base|Ljava/lang/Object;")]
              overrideFamily := "", callerId := "" }]

def classResult (start stop : Int) (source : Text) : SemanticResult :=
  ⟨(classUnit start stop).symbols Char.isAlphanum source, []⟩

def classAnswers : Answers := fun _ source =>
  if source = classOnDisk then some (classResult 0 10 source)
  else if source = classInEditor then some (classResult 3 13 source)
  else none

theorem ofJavac_classAnswers {P : Text → NamedTree → Prop}
    (hdisk : ∀ tree ∈ (classUnit 0 10).reported, P classOnDisk tree)
    (heditor : ∀ tree ∈ (classUnit 3 13).reported, P classInEditor tree) :
    Answers.OfJavac Char.isAlphanum P classAnswers := by
  intro uri source result hresult
  unfold classAnswers at hresult
  split at hresult
  · next hsource =>
    rw [← Option.some.inj hresult, hsource]
    exact .analyzed (classUnit 0 10) rfl hdisk
  · split at hresult
    · next hsource =>
      rw [← Option.some.inj hresult, hsource]
      exact .analyzed (classUnit 3 13) rfl heditor
    · cases hresult

def classPublication : Publication :=
  ⟨1, [(classDocument, classOnDisk, classResult 0 10 classOnDisk)], false, []⟩

def openedWith (publication : Publication) (text : Text) : Event :=
  ⟨publication, classAnswers, classAnswers, .didOpen classDocument 1 text none⟩

def renameAt (publication : Publication) (line : Int) : RenameRequest where
  publication := publication
  indexing := classAnswers
  answers := classAnswers
  uri := classDocument
  position := .object [("line", .integer line), ("character", .integer 6)]
  newName := some "B"

def classSymbol : SymbolLocation :=
  ⟨classDocument, "declaration", "class", "A", "A", "<unnamed>|LA;", 6, 7⟩

def classSession (publication : Publication) (text : Text) : Session :=
  Session.run (fun _ => false) Char.isAlphanum [openedWith publication text]

theorem solid_class : Solid Char.isAlphanum "A".toList := by
  intro before after hname hbefore hafter
  have hlength := congrArg List.length hname
  rw [List.length_append] at hlength
  have hone : "A".toList.length = 1 := rfl
  have hpos := List.length_pos_iff.mpr hbefore
  have hpos' := List.length_pos_iff.mpr hafter
  omega

theorem class_is_renamed : (renameAt unpublished 0).Sound Char.isAlphanum Char.isAlphanum
    (classSession unpublished classOnDisk) (fun _ => none) := by
  have hwritten : Answers.OfJavac Char.isAlphanum (WrittenOut Char.isAlphanum "A") classAnswers :=
    ofJavac_classAnswers (by decide +kernel) (by decide +kernel)
  have hunpublished : unpublished.OfJavac Char.isAlphanum (WrittenOut Char.isAlphanum "A") :=
    fun _ hnone => absurd hnone List.not_mem_nil
  refine rename_replaces_names (fun _ => false) Char.isAlphanum Char.isAlphanum Char.isAlphanum
    [openedWith unpublished classOnDisk] (renameAt unpublished 0) (fun _ => none) classSymbol
    (by decide +kernel) ?_ ⟨hunpublished, hwritten, hwritten⟩ ?_ ?_ ?_
  · intro event hevent
    rw [List.mem_singleton.mp hevent]
    exact ⟨hunpublished, hwritten, hwritten, trivial⟩
  · refine ⟨⟨fun hrevision => absurd rfl hrevision, .inr ⟨rfl, ?_⟩⟩, trivial⟩
    decide +kernel
  · refine ⟨fun hrevision => absurd ?_ hrevision, fun _ _ _ _ uri source hsource => ?_⟩
    · decide +kernel
    · have hnone : ((renameAt unpublished 0).refreshed
          (classSession unpublished classOnDisk)).indexedSources.toList = [] := by decide +kernel
      have hmem := Std.ExtTreeMap.mem_toList_iff_getElem?_eq_some.mpr hsource
      exact absurd (hnone ▸ hmem) List.not_mem_nil
  · refine ⟨?_, ?_, ?_, solid_class⟩
    · decide +kernel
    · decide +kernel
    · decide +kernel

theorem edited_document_is_broken : ¬ ∀ (isExternal : String → Bool)
    (isAlphabetic isAlphanumeric isJavaIdentifierPart : Char → Bool) (events : List Event)
    (request : RenameRequest) (disk : String → Option Text),
    (∀ event ∈ events, event.OfJavac isJavaIdentifierPart fun _ _ => True) →
    request.OfJavac isJavaIdentifierPart (fun _ _ => True) →
    (∀ uri, (request.server isAlphanumeric
        (Session.run isExternal isAlphanumeric events)).documents[uri]? = none →
      disk uri = (request.server isAlphanumeric
        (Session.run isExternal isAlphanumeric events)).indexedSources[uri]?) →
    request.Sound isAlphabetic isAlphanumeric (Session.run isExternal isAlphanumeric events) disk := by
  intro h
  have hjavac : Answers.OfJavac Char.isAlphanum (fun _ _ => True) classAnswers :=
    ofJavac_classAnswers (fun _ _ => trivial) fun _ _ => trivial
  have hpublication : classPublication.OfJavac Char.isAlphanum fun _ _ => True := by
    intro entry hentry
    rw [List.mem_singleton.mp hentry]
    exact .analyzed (classUnit 0 10) rfl fun _ _ => trivial
  have hsound := h (fun _ => false) Char.isAlphanum Char.isAlphanum Char.isAlphanum
    [openedWith classPublication classInEditor] (renameAt classPublication 1)
    (fun uri => ((renameAt classPublication 1).server Char.isAlphanum
      (classSession classPublication classInEditor)).indexedSources[uri]?)
    (fun event hevent => by
      rw [List.mem_singleton.mp hevent]
      exact ⟨hpublication, hjavac, hjavac, trivial⟩)
    ⟨hpublication, hjavac, hjavac⟩ fun _ _ => rfl
  obtain ⟨changes, hanswer⟩ : ∃ changes, (renameAt classPublication 1).answer Char.isAlphanum
      Char.isAlphanum (classSession classPublication classInEditor) = .ok changes :=
    Fallible.exists_eq_ok (by decide +kernel)
  have hedits : ((renameAt classPublication 1).answer Char.isAlphanum Char.isAlphanum
      (classSession classPublication classInEditor)).toOption.bind (·[classDocument]?) =
        some [⟨⟨1, 3⟩, ⟨1, 4⟩, "B"⟩, ⟨⟨1, 6⟩, ⟨1, 7⟩, "B"⟩] := by decide +kernel
  rw [hanswer] at hedits
  obtain ⟨text, htext, hreplaces, -⟩ := hsound { classSymbol with start := 9, stop := 10 } changes
    (by decide +kernel) hanswer classDocument _ hedits
  obtain ⟨before, after, hbefore, hstart, -⟩ := hreplaces _ List.mem_cons_self
  have hopen : ((renameAt classPublication 1).server Char.isAlphanum
      (classSession classPublication classInEditor)).clientText (fun uri =>
        ((renameAt classPublication 1).server Char.isAlphanum
          (classSession classPublication classInEditor)).indexedSources[uri]?) classDocument =
      some classInEditor := by decide +kernel
  obtain rfl : classInEditor = text := Option.some.inj (hopen.symm.trans htext)
  -- the first edit is of a letter of the keyword
  have hplaces : ∀ before ∈ classInEditor.inits, (⟨1, 3⟩ : LspPosition) = positionAfter before →
      (classInEditor.drop before.length).head? ≠ some 'A' := by decide +kernel
  have hprefix : before <+: classInEditor := ⟨"A".toList ++ after, by rw [hbefore, List.append_assoc]; rfl⟩
  refine hplaces before ((List.mem_inits _ _).mpr hprefix) hstart ?_
  rw [hbefore, List.append_assoc, List.drop_left]
  rfl

end JMan.Lsp
