import JMan.Lsp.Diagnostics

/-!
# JMan — deferred edits

Completion items and code actions whose edits are handed out later:
`defer_completion_items`, `defer_code_actions` and `resolve_item` of `server.rs`. An edit
is withheld when the document of the request has another version than it had.

A version does not say which text a document has, and an edit may be of a document that
the version is not of (`reopened_edit_is_stale`). As long as edits are of the document
they were asked for, and no version of it stands for two texts, every edit that is handed
out is of the text it was made for (`resolved_edits_are_fresh`).

* `ResolveEntry.basis` — the document an edit is of, and the text it was made for. The
  source does not keep it: it is what the claim of freshness is about.
-/

namespace JMan.Lsp

open JMan.Config

-- Module descriptors
-- ---

section Descriptors

variable (isAlphanumeric : Char → Bool)

def moduleNamePart (c : Char) : Bool := isAlphanumeric c || (c = '.' || (c = '_' || c = '$'))

/-- The loop of `module_declaration_range` over one keyword: `skip` characters are behind
the offset. -/
def declaresAfter (keyword module : Text) : (skip : Nat) → Text → Bool
  | _, [] => false
  | skip + 1, _ :: rest => declaresAfter keyword module skip rest
  | 0, c :: rest =>
    if keyword.isPrefixOf (c :: rest) then
      let name := ((c :: rest).drop keyword.length).takeWhile (moduleNamePart isAlphanumeric)
      if name = module then true
      else declaresAfter keyword module (keyword.length + name.length - 1) rest
    else declaresAfter keyword module 0 rest

/-- Whether `module_declaration_range` finds a declaration. -/
def declaresModule (source module : Text) : Bool :=
  ["module ".toList, "open module ".toList].any fun keyword =>
    declaresAfter isAlphanumeric keyword module 0 source

def descriptorName : Text := "module-info.java".toList

def isDescriptor (uri : String) : Bool := ('/' :: descriptorName).isSuffixOf uri.toList

/-- `max_by_key` by the length, which keeps the last of the longest -/
def longest : List (String × Text) → Option (String × Text)
  | [] => none
  | entry :: rest =>
    match longest rest with
    | none => some entry
    | some best => if best.1.utf8ByteSize < entry.1.utf8ByteSize then some entry else some best

namespace Server

variable (server : Server)

def owningModuleDescriptor (uri : String) : Option (String × Text) :=
  if isDescriptor uri then (server.sourceText uri).map fun source => (uri, source)
  else longest (server.indexedSources.toList.filter fun entry => isDescriptor entry.1 ∧
    (entry.1.toList.take (entry.1.toList.length - descriptorName.length)).isPrefixOf uri.toList)

/-- `module_descriptor`, with the document it comes upon first. -/
def moduleDescriptor (module : Text) (first : String) : Option (String × Text) :=
  match server.indexedSources[first]? with
  | none => none
  | some source => if declaresModule isAlphanumeric source module then some (first, source) else none

end Server

inductive Target where
  | document
  | owningModuleDescriptor
  | moduleDescriptor (module : Text) (first : String)

/-- The document that an item for a document edits, with the text that is read for it. -/
def Server.basis (server : Server) (uri : String) : Target → Option (String × Text)
  | .document => some (uri, (server.sourceText uri).getD [])
  | .owningModuleDescriptor => server.owningModuleDescriptor uri
  | .moduleDescriptor module first => server.moduleDescriptor isAlphanumeric module first

end Descriptors

-- Items
-- ---

abbrev Properties := List (String × Json)

def isEdit (name : String) : Bool := name = "edit" || name = "additionalTextEdits"

structure Item where
  properties : Properties
  target : Target

structure ResolveEntry where
  uri : String
  version : Option Int
  properties : Properties
  basis : String × Text

abbrev Resolutions := Std.ExtTreeMap Nat ResolveEntry

def resolveCacheCapacity : Nat := 1024

/-- `next_resolve_id`, of 64 bits. -/
def nextResolveId (sequence : Nat) : Nat := (sequence + 1) % 18446744073709551616

/-- The counter of the ids, and the entries that are kept. -/
structure Deferral where
  resolveSequence : Nat
  resolutions : Resolutions

def Deferral.insert (deferral : Deferral) (entry : ResolveEntry) : Deferral where
  resolveSequence := nextResolveId deferral.resolveSequence
  resolutions := (if resolveCacheCapacity ≤ deferral.resolutions.size then ∅
    else deferral.resolutions).insert (nextResolveId deferral.resolveSequence) entry

section Defer

variable (kind : String) (names : List String) (uri : String) (version : Option Int)

/-- The properties of these names are kept back; an item with none of them stays. -/
def deferItem (deferral : Deferral) (properties : Properties) (basis : String × Text) :
    Properties × Deferral :=
  match names.filterMap fun name => (properties.lookup name).map fun value => (name, value) with
  | [] => (properties, deferral)
  | kept =>
    (("data", .object [("jmanResolve", .object [("kind", .string kind),
        ("id", .integer (nextResolveId deferral.resolveSequence))])]) ::
      properties.filter fun property => property.1 ∉ "data" :: names,
      deferral.insert ⟨uri, version, kept, basis⟩)

def deferItems : Deferral → List (Properties × String × Text) → List Properties × Deferral
  | deferral, [] => ([], deferral)
  | deferral, item :: rest =>
    let (properties, next) := deferItem kind names uri version deferral item.1 item.2
    let (others, last) := deferItems next rest
    (properties :: others, last)

end Defer

-- The server and what it keeps back
-- ---

structure Editing where
  server : Server
  completionResolveProperties : List String
  codeActionResolveProperties : List String
  resolveSequence : Nat
  completionResolutions : Resolutions
  codeActionResolutions : Resolutions

/-- An editor that resolves these properties has connected. -/
def Editing.new (completionResolveProperties codeActionResolveProperties : List String) : Editing :=
  ⟨.new, completionResolveProperties, codeActionResolveProperties, 0, ∅, ∅⟩

/-- A request of `resolve_item`. -/
inductive ItemKind where
  | completion
  | codeAction
deriving DecidableEq

def ItemKind.text : ItemKind → String
  | .completion => "completion"
  | .codeAction => "codeAction"

namespace Editing

variable (editing : Editing)

def deferred : ItemKind → List String
  | .completion => ["detail", "documentation", "additionalTextEdits"].filter fun property =>
    property ∈ editing.completionResolveProperties
  | .codeAction => ["edit"].filter fun property => property ∈ editing.codeActionResolveProperties

def resolutions : ItemKind → Resolutions
  | .completion => editing.completionResolutions
  | .codeAction => editing.codeActionResolutions

def withDeferral (deferral : Deferral) : ItemKind → Editing
  | .completion => { editing with
      resolveSequence := deferral.resolveSequence, completionResolutions := deferral.resolutions }
  | .codeAction => { editing with
      resolveSequence := deferral.resolveSequence, codeActionResolutions := deferral.resolutions }

/-- `defer_completion_items` and `defer_code_actions` -/
def defer (kind : ItemKind) (uri : String) (items : List (Properties × String × Text)) :
    List Properties × Editing :=
  let (answer, deferral) := deferItems kind.text (editing.deferred kind) uri
    (editing.server.version? uri) ⟨editing.resolveSequence, editing.resolutions kind⟩ items
  (answer, editing.withDeferral deferral kind)

def resolveEntry (kind : ItemKind) (item : Json) : Option ResolveEntry :=
  ((item.get? "data").bind (Json.get? "jmanResolve")).bind fun resolve =>
    if (resolve.member "kind").asStr = some kind.text then
      ((resolve.member "id").asU64).bind fun id => (editing.resolutions kind)[id]?
    else none

/-- The document of the request has another version, or is closed. -/
def stale (entry : ResolveEntry) : Bool :=
  entry.version.any fun version =>
    (editing.server.documents[entry.uri]?).all fun document => document.version ≠ version

def added (entry : ResolveEntry) : Properties :=
  entry.properties.filter fun property => !(editing.stale entry && isEdit property.1)

def resolveItem (kind : ItemKind) : Json → Except String Json
  | .object members =>
    match editing.resolveEntry kind (.object members) with
    | none => .ok (.object members)
    | some entry => .ok (.object ((editing.added entry).foldl (fun members property =>
        property :: members.filter fun member => member.1 ≠ property.1) members))
  | _ => .error "Invalid resolve params"

end Editing

-- Runs
-- ---

/-- What reaches the server. The items of a request are what the backend and the texts
give; those of a completion edit the document they complete. -/
inductive EditingInput where
  | message (message : Message)
  | completion (uri : String) (items : List Properties)
  | codeActions (uri : String) (actions : List Item)
  | resolve (kind : ItemKind) (item : Json)

/-- An input, what the backend publishes when it comes, and what it answers. -/
structure EditingEvent where
  publication : Publication
  indexing : Answers
  answers : Answers
  input : EditingInput

namespace Editing

section Steps

variable (isExternal : String → Bool) (isAlphanumeric : Char → Bool) (editing : Editing)

def completionItems (uri : String) (items : List Properties) : List (Properties × String × Text) :=
  items.map fun properties => (properties, uri, (editing.server.sourceText uri).getD [])

def codeActionItems (uri : String) (actions : List Item) : List (Properties × String × Text) :=
  actions.filterMap fun action =>
    (editing.server.basis isAlphanumeric uri action.target).map fun basis => (action.properties, basis)

def refreshed (event : EditingEvent) : Editing :=
  { editing with server := editing.server.refresh event.indexing event.publication }

def handle (answers : Answers) : EditingInput → Editing
  | .message message =>
    { editing with server := editing.server.handle isExternal isAlphanumeric answers message }
  | .completion uri items => (editing.defer .completion uri (editing.completionItems uri items)).2
  | .codeActions uri actions =>
    (editing.defer .codeAction uri (editing.codeActionItems isAlphanumeric uri actions)).2
  | .resolve _ _ => editing

def step (event : EditingEvent) : Editing :=
  (editing.refreshed event).handle isExternal isAlphanumeric event.answers event.input

def run (events : List EditingEvent) : Editing :=
  events.foldl (step isExternal isAlphanumeric) editing

end Steps

variable (editing : Editing)

/-- An edit that is added to the item is of a document with the text it was made for. -/
def Fresh (kind : ItemKind) (item : Json) : Prop :=
  ∀ entry, editing.resolveEntry kind item = some entry →
    ∀ property ∈ editing.added entry, isEdit property.1 →
      editing.server.sourceText entry.basis.1 = some entry.basis.2

def Keeps (entry : ResolveEntry) : Prop :=
  (∃ (kind : ItemKind) (id : Nat), (editing.resolutions kind)[id]? = some entry) ∧
    ∃ property ∈ entry.properties, isEdit property.1

end Editing

/-- The document that a message gives a version and a text. -/
def Message.given (documents : Documents) : Message → Option (String × Document)
  | .didOpen uri version text _ => some (uri, ⟨version, text⟩)
  | .didChange uri version changes =>
    ((documents.change uri version changes).2[uri]?).map fun document => (uri, document)
  | _ => none

/-- Edits are kept back for open documents, and edit them; and a document does not get a
version under which an edit that is kept was made for another text. -/
def Editing.Careful (isAlphanumeric : Char → Bool) (editing : Editing) : EditingInput → Prop
  | .message message => ∀ uri document, message.given editing.server.documents = some (uri, document) →
      ∀ entry, editing.Keeps entry → entry.uri = uri → entry.version = some document.version →
        entry.basis.2 = document.text
  | .completion uri items => (∃ properties ∈ items, ∃ property ∈ properties, isEdit property.1) →
      (editing.server.documents[uri]?).isSome
  | .codeActions uri actions => ∀ action ∈ actions, (∃ property ∈ action.properties, isEdit property.1) →
      ∃ document, editing.server.documents[uri]? = some document ∧
        ∀ basis, editing.server.basis isAlphanumeric uri action.target = some basis →
          basis = (uri, document.text)
  | .resolve _ _ => True

def CarefulEditing (isExternal : String → Bool) (isAlphanumeric : Char → Bool) (editing : Editing) :
    List EditingEvent → Prop
  | [] => True
  | event :: rest => (editing.refreshed event).Careful isAlphanumeric event.input ∧
      CarefulEditing isExternal isAlphanumeric (editing.step isExternal isAlphanumeric event) rest

-- Documents
-- ---

section Documents

variable {server : Server} {answers : Answers}

theorem documents_indexWorkspace (server : Server) (answers : Answers) (publication : Publication) :
    (server.indexWorkspace answers publication).documents = server.documents := by
  unfold Server.indexWorkspace
  split
  · rfl
  · split
    · rfl
    · exact List.foldlRecOn (motive := fun after : Server => after.documents = server.documents) _ _ rfl
        fun before hbefore source _ => (Server.analyzesOnly_updateIndex _ _ _ _).documents.trans hbefore

theorem documents_refresh (server : Server) (answers : Answers) (publication : Publication) :
    (server.refresh answers publication).documents = server.documents := by
  unfold Server.refresh
  split
  · exact documents_indexWorkspace _ _ _
  · rfl

/-- **A document that a message leaves open is as it was,** or it was given. -/
theorem documents_handle (isExternal : String → Bool) (isAlphanumeric : Char → Bool) (server : Server)
    (answers : Answers) (message : Message) {uri : String} {document : Document}
    (h : (server.handle isExternal isAlphanumeric answers message).documents[uri]? = some document) :
    server.documents[uri]? = some document ∨
      message.given server.documents = some (uri, document) := by
  cases message with
  | didOpen opened version text origin =>
    obtain ⟨restored, hdocuments, -, -, -, hopened⟩ :=
      Server.exists_opened isExternal answers server opened version text origin
    rw [Server.handle, hopened, (Server.analyzesOnly_analyzeOpened _ _ _ _).documents, hdocuments] at h
    by_cases huri : uri = opened
    · rw [huri, Std.ExtTreeMap.getElem?_insert_self] at h
      exact .inr (by rw [huri, Message.given, Option.some.inj h])
    · exact .inl ((Server.getElem?_insert_of_ne _ _ huri).symm.trans h)
  | didChange changed version changes =>
    have hafter : (server.didChange answers isExternal changed version changes).documents =
        (server.documents.change changed version changes).2 := by
      unfold Server.didChange
      split
      · next hchange => rw [hchange]
      · next hchange => rw [hchange, (Server.analyzesOnly_analyzeOpened _ _ _ _).documents]
    rw [Server.handle, hafter] at h
    by_cases huri : uri = changed
    · subst huri
      exact .inr (by rw [Message.given, h, Option.map_some])
    · exact .inl (((Server.getElem?_change _ _ _ _).1 uri huri).symm.trans h)
  | didClose closed =>
    have hafter : (server.didClose answers closed).documents = server.documents.erase closed := by
      unfold Server.didClose
      dsimp only
      split
      · exact (Server.analyzesOnly_updateIndex _ _ _ _).documents
      · rfl
    rw [Server.handle, hafter] at h
    by_cases huri : uri = closed
    · rw [huri, Std.ExtTreeMap.getElem?_erase_self] at h
      cases h
    · exact .inl ((Server.getElem?_erase_of_ne _ huri).symm.trans h)
  | reindex publication indexing =>
    have hafter : (server.reindexOpenDocuments answers publication indexing).documents =
        server.documents :=
      (Server.texts_foldl (Server.analyzesOnly_analyzeDocument answers) _ _).1.trans
        (documents_indexWorkspace _ _ _)
    exact .inl (hafter ▸ h)
  | rebuildIndex publication =>
    have hafter : (server.rebuildIndex answers publication).documents = server.documents :=
      documents_indexWorkspace _ _ _
    exact .inl (hafter ▸ h)
  | symbolSemantics name =>
    have hafter : (server.ensureWorkspaceSymbolSemantics answers isAlphanumeric name).documents =
        server.documents :=
      (Server.texts_foldl (Server.analyzesOnly_ensureSemantics answers) _ _).1
    exact .inl (hafter ▸ h)
  | externalLocation external origin => exact .inl h
  | documentDiagnostic document previousResultId => exact .inl h
  | workspaceDiagnostic previousResultIds => exact .inl h

end Documents

-- What is kept
-- ---

section Kept

variable {kind : String} {names : List String} {uri : String} {version : Option Int}
  {deferral : Deferral} {id : Nat} {entry : ResolveEntry}

/-- The entry was made for an item of a request. -/
structure Made (uri : String) (version : Option Int) (item : Properties × String × Text)
    (entry : ResolveEntry) : Prop where
  uri : entry.uri = uri
  version : entry.version = version
  basis : entry.basis = item.2
  properties : ∀ property ∈ entry.properties, property ∈ item.1

theorem getElem?_insert_deferral {new : ResolveEntry}
    (h : (deferral.insert new).resolutions[id]? = some entry) :
    deferral.resolutions[id]? = some entry ∨ entry = new := by
  unfold Deferral.insert at h
  dsimp only at h
  rw [Std.ExtTreeMap.getElem?_insert] at h
  split at h
  · exact .inr (Option.some.inj h).symm
  · split at h
    · rw [Std.ExtTreeMap.getElem?_empty] at h
      cases h
    · exact .inl h

theorem made_deferItem {item : Properties × String × Text}
    (h : (deferItem kind names uri version deferral item.1 item.2).2.resolutions[id]? = some entry) :
    deferral.resolutions[id]? = some entry ∨ Made uri version item entry := by
  unfold deferItem at h
  split at h
  · exact .inl h
  · next hkept =>
    rcases getElem?_insert_deferral h with hold | rfl
    · exact .inl hold
    · refine .inr ⟨rfl, rfl, rfl, fun property hproperty => ?_⟩
      obtain ⟨name, -, hname⟩ := List.mem_filterMap.mp hproperty
      obtain ⟨value, hvalue, rfl⟩ := Option.map_eq_some_iff.mp hname
      obtain ⟨before, after, hsplit, -⟩ := List.lookup_eq_some_iff.mp hvalue
      rw [hsplit]
      exact List.mem_append_right _ List.mem_cons_self

/-- **What is kept after a request was kept before,** or was made for one of its items. -/
theorem made_deferItems {items : List (Properties × String × Text)}
    (h : (deferItems kind names uri version deferral items).2.resolutions[id]? = some entry) :
    deferral.resolutions[id]? = some entry ∨ ∃ item ∈ items, Made uri version item entry := by
  induction items generalizing deferral with
  | nil => exact .inl h
  | cons item rest ih =>
    rcases ih h with hnext | ⟨other, hother, hmade⟩
    · rcases made_deferItem hnext with hold | hmade
      · exact .inl hold
      · exact .inr ⟨item, List.mem_cons_self, hmade⟩
    · exact .inr ⟨other, List.mem_cons_of_mem _ hother, hmade⟩

end Kept

namespace Editing

section Validity

variable {isExternal : String → Bool} {isAlphanumeric : Char → Bool} {editing : Editing}
  {entry : ResolveEntry}

/-- Under the version of an entry its document has the text that its edit was made for. -/
structure Holds (documents : Documents) (entry : ResolveEntry) : Prop where
  basis : entry.basis.1 = entry.uri
  version : ∃ version, entry.version = some version
  text : ∀ document, documents[entry.uri]? = some document → entry.version = some document.version →
    entry.basis.2 = document.text

def Valid (editing : Editing) : Prop := ∀ entry, editing.Keeps entry → Holds editing.server.documents entry

theorem keeps_defer {kind : ItemKind} {uri : String} {items : List (Properties × String × Text)}
    (h : (editing.defer kind uri items).2.Keeps entry) : editing.Keeps entry ∨
      ∃ item ∈ items, Made uri (editing.server.version? uri) item entry := by
  obtain ⟨⟨other, id, hentry⟩, hedits⟩ := h
  by_cases hother : other = kind
  · subst hother
    have hmade : editing.Keeps entry ∨
        ∃ item ∈ items, Made uri (editing.server.version? uri) item entry := by
      have hresolutions : (deferItems other.text (editing.deferred other) uri
          (editing.server.version? uri) ⟨editing.resolveSequence, editing.resolutions other⟩
            items).2.resolutions[id]? = some entry := by
        cases other with
        | completion => exact hentry
        | codeAction => exact hentry
      exact (made_deferItems hresolutions).imp_left fun hold => ⟨⟨other, id, hold⟩, hedits⟩
    exact hmade
  · refine .inl ⟨⟨other, id, ?_⟩, hedits⟩
    cases other with
    | completion =>
      cases kind with
      | completion => exact absurd rfl hother
      | codeAction => exact hentry
    | codeAction =>
      cases kind with
      | completion => exact hentry
      | codeAction => exact absurd rfl hother

theorem server_defer (editing : Editing) (kind : ItemKind) (uri : String)
    (items : List (Properties × String × Text)) :
    (editing.defer kind uri items).2.server = editing.server := by
  cases kind with
  | completion => rfl
  | codeAction => rfl

theorem holds_of_made {uri : String} {item : Properties × String × Text} {document : Document}
    (hmade : Made uri (editing.server.version? uri) item entry)
    (hdocument : editing.server.documents[uri]? = some document)
    (hbasis : item.2 = (uri, document.text)) : Holds editing.server.documents entry := by
  have hentry : entry.basis = (uri, document.text) := hmade.basis.trans hbasis
  refine ⟨by rw [hentry, hmade.uri], ⟨document.version, ?_⟩, fun other hother _ => ?_⟩
  · rw [hmade.version, Server.version?, hdocument, Option.map_some]
  · rw [hmade.uri, hdocument] at hother
    rw [hentry, ← Option.some.inj hother]

theorem Valid.refreshed (h : editing.Valid) (event : EditingEvent) : (editing.refreshed event).Valid := by
  intro entry hentry
  show Holds (editing.server.refresh event.indexing event.publication).documents entry
  rw [documents_refresh]
  exact h entry hentry

theorem Valid.handle (h : editing.Valid) (answers : Answers) {input : EditingInput}
    (hcareful : editing.Careful isAlphanumeric input) :
    (editing.handle isExternal isAlphanumeric answers input).Valid := by
  cases input with
  | message message =>
    intro entry hentry
    have hkeeps : editing.Keeps entry := hentry
    have hbefore := h entry hkeeps
    refine ⟨hbefore.basis, hbefore.version, fun document hdocument hversion => ?_⟩
    rcases documents_handle isExternal isAlphanumeric editing.server answers message hdocument with
      hsame | hgiven
    · exact hbefore.text document hsame hversion
    · exact hcareful entry.uri document hgiven entry hkeeps rfl hversion
  | completion uri items =>
    intro entry hentry
    rw [Editing.handle, server_defer]
    rcases keeps_defer hentry with hkeeps | ⟨item, hitem, hmade⟩
    · exact h entry hkeeps
    · obtain ⟨properties, hproperties, rfl⟩ := List.mem_map.mp hitem
      obtain ⟨property, hproperty, hedit⟩ := hentry.2
      obtain ⟨document, hdocument⟩ := Option.isSome_iff_exists.mp
        (hcareful ⟨properties, hproperties, property, hmade.properties property hproperty, hedit⟩)
      refine holds_of_made hmade hdocument ?_
      rw [Server.sourceText, hdocument]
      rfl
  | codeActions uri actions =>
    intro entry hentry
    rw [Editing.handle, server_defer]
    rcases keeps_defer hentry with hkeeps | ⟨item, hitem, hmade⟩
    · exact h entry hkeeps
    · obtain ⟨action, haction, hbasis⟩ := List.mem_filterMap.mp hitem
      obtain ⟨basis, htarget, rfl⟩ := Option.map_eq_some_iff.mp hbasis
      obtain ⟨property, hproperty, hedit⟩ := hentry.2
      obtain ⟨document, hdocument, hown⟩ :=
        hcareful action haction ⟨property, hmade.properties property hproperty, hedit⟩
      exact holds_of_made hmade hdocument (hown basis htarget)
  | resolve kind item => exact h

theorem Valid.run {events : List EditingEvent} (h : editing.Valid)
    (hcareful : CarefulEditing isExternal isAlphanumeric editing events) :
    (editing.run isExternal isAlphanumeric events).Valid := by
  induction events generalizing editing with
  | nil => exact h
  | cons event rest ih => exact ih ((h.refreshed event).handle event.answers hcareful.1) hcareful.2

theorem not_keeps_new (completionResolveProperties codeActionResolveProperties : List String)
    (entry : ResolveEntry) : ¬ (new completionResolveProperties codeActionResolveProperties).Keeps entry := by
  rintro ⟨⟨kind, id, hentry⟩, -⟩
  have hnone : (∅ : Resolutions)[id]? = some entry := by
    cases kind with
    | completion => exact hentry
    | codeAction => exact hentry
  rw [Std.ExtTreeMap.getElem?_empty] at hnone
  cases hnone

theorem valid_new (completionResolveProperties codeActionResolveProperties : List String) :
    (new completionResolveProperties codeActionResolveProperties).Valid :=
  fun entry hentry => absurd hentry (not_keeps_new _ _ entry)

theorem Valid.fresh (h : editing.Valid) (kind : ItemKind) (item : Json) : editing.Fresh kind item := by
  intro entry hentry property hproperty hedit
  have hkept : editing.Keeps entry := by
    obtain ⟨resolve, -, hresolve⟩ := Option.bind_eq_some_iff.mp hentry
    split at hresolve
    · obtain ⟨id, -, hid⟩ := Option.bind_eq_some_iff.mp hresolve
      exact ⟨⟨kind, id, hid⟩, property, (List.mem_filter.mp hproperty).1, hedit⟩
    · cases hresolve
  have hholds := h entry hkept
  have hstale : editing.stale entry = false := by
    have hadded := (List.mem_filter.mp hproperty).2
    rw [hedit, Bool.and_true, Bool.not_eq_true'] at hadded
    exact hadded
  obtain ⟨version, hversion⟩ := hholds.version
  rw [stale, hversion, Option.any_some] at hstale
  cases hdocument : editing.server.documents[entry.uri]? with
  | none =>
    rw [hdocument] at hstale
    cases hstale
  | some document =>
    rw [hdocument, Option.all_some, decide_eq_false_iff_not, not_not] at hstale
    have htext := hholds.text document hdocument (hversion.trans (congrArg some hstale.symm))
    rw [hholds.basis, Server.sourceText, hdocument, htext]
    rfl

end Validity

/-- **In a careful run an edit that is handed out is of the text it was made for.** -/
theorem resolved_edits_are_fresh (isExternal : String → Bool) (isAlphanumeric : Char → Bool)
    (completionResolveProperties codeActionResolveProperties : List String)
    (events : List EditingEvent) (event : EditingEvent) (kind : ItemKind) (item : Json)
    (hrun : CarefulEditing isExternal isAlphanumeric
      (new completionResolveProperties codeActionResolveProperties) events) :
    (((new completionResolveProperties codeActionResolveProperties).run isExternal isAlphanumeric
      events).refreshed event).Fresh kind item :=
  (((valid_new completionResolveProperties codeActionResolveProperties).run hrun).refreshed event).fresh
    kind item

def insertMissingSemicolon (uri : String) (diagnostic position : Json) : Item where
  properties := [("title", .string "Insert missing ';'"), ("kind", .string "quickfix"),
    ("diagnostics", .array [diagnostic]), ("isPreferred", .bool true),
    ("edit", .object [("changes", .object [(uri, .array [.object [
      ("range", .object [("start", position), ("end", position)]), ("newText", .string ";")]])])])]
  target := .document

def firstLine : Json := .object [("line", .integer 0), ("character", .integer 17)]

def missingSemicolon : Json := .object [("code", .string "compiler.err.expected"),
  ("message", .string "';' expected"), ("range", .object [("start", firstLine), ("end", firstLine)])]

def editingEvent (input : EditingInput) : EditingEvent := ⟨unpublished, oneError, oneError, input⟩

def quickFixed : List EditingEvent :=
  [editingEvent (.message (.didOpen "file:///A.java" 1 "class A \x7b int a \x7d".toList none)),
    editingEvent (.codeActions "file:///A.java"
      [insertMissingSemicolon "file:///A.java" missingSemicolon firstLine])]

def reopenedElsewhere : List EditingEvent :=
  quickFixed ++ [editingEvent (.message (.didClose "file:///A.java")),
    editingEvent (.message (.didOpen "file:///A.java" 1 "class A \x7b \x7d".toList none))]

def firstAction : Json := .object [("data", .object [("jmanResolve",
  .object [("kind", .string "codeAction"), ("id", .integer 1)])]),
  ("title", .string "Insert missing ';'")]

def resolving : EditingEvent := editingEvent (.resolve .codeAction firstAction)

def afterReopening : Editing :=
  ((new [] ["edit"]).run (fun _ => false) Char.isAlphanum reopenedElsewhere).refreshed resolving

def addsEdit (editing : Editing) (kind : ItemKind) (item : Json) : Bool :=
  (editing.resolveEntry kind item).any fun entry =>
    (editing.added entry).any fun property => isEdit property.1

theorem quickFix_is_fresh :
    addsEdit (((new [] ["edit"]).run (fun _ => false) Char.isAlphanum quickFixed).refreshed resolving)
        .codeAction firstAction = true ∧
      (((new [] ["edit"]).run (fun _ => false) Char.isAlphanum quickFixed).refreshed resolving).Fresh
        .codeAction firstAction := by
  refine ⟨by decide +kernel, resolved_edits_are_fresh (fun _ => false) Char.isAlphanum [] ["edit"]
    quickFixed resolving .codeAction firstAction ⟨?_, ?_, trivial⟩⟩
  · exact fun _ _ _ entry hentry => absurd hentry (not_keeps_new _ _ entry)
  · intro action haction _
    refine ⟨⟨1, "class A \x7b int a \x7d".toList⟩, by decide +kernel, fun basis hbasis => ?_⟩
    rw [List.mem_singleton.mp haction] at hbasis
    rw [← Option.some.inj hbasis]
    decide +kernel

theorem reopened_edit_is_stale : ¬ ∀ (isExternal : String → Bool) (isAlphanumeric : Char → Bool)
    (completionResolveProperties codeActionResolveProperties : List String)
    (events : List EditingEvent) (event : EditingEvent) (kind : ItemKind) (item : Json),
    (((new completionResolveProperties codeActionResolveProperties).run isExternal isAlphanumeric
      events).refreshed event).Fresh kind item := by
  intro h
  have hfresh := h (fun _ => false) Char.isAlphanum [] ["edit"] reopenedElsewhere resolving .codeAction
    firstAction
  have hother : (afterReopening.resolveEntry .codeAction firstAction).any (fun entry =>
      (afterReopening.added entry).any (fun property => isEdit property.1) &&
        decide (afterReopening.server.sourceText entry.basis.1 ≠ some entry.basis.2)) = true := by
    decide +kernel
  obtain ⟨entry, hentry, hboth⟩ := (Option.any_eq_true _ _).mp hother
  obtain ⟨hadds, hne⟩ := Bool.and_eq_true_iff.mp hboth
  obtain ⟨property, hproperty, hedit⟩ := List.any_eq_true.mp hadds
  exact of_decide_eq_true hne (hfresh entry hentry property hproperty hedit)

end Editing

end JMan.Lsp
