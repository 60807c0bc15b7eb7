import JMan.Lsp.Documents

/-!
# JMan — the symbols of a workspace

`symbol_index.rs` of `javac-frontend`: where the symbols of the documents are declared
and used, and the families of methods that override each other. The documents are kept
in the order in which they were added, which is the order of the entries of a symbol.
-/

namespace JMan.Lsp

open JMan.Config

-- Results
-- ---

structure SemanticSymbol where
  role : String
  kind : String
  name : String
  qualifiedName : String
  symbolId : String
  start : Nat
  stop : Nat
deriving DecidableEq

structure SemanticDiagnostic where
  kind : String
  code : String
  message : String
  start : Nat
  stop : Nat
deriving DecidableEq

/-- What `analyze` gives for a document, less its package. -/
structure SemanticResult where
  symbols : List SemanticSymbol
  diagnostics : List SemanticDiagnostic
deriving DecidableEq

structure SymbolLocation where
  document : String
  role : String
  kind : String
  name : String
  qualifiedName : String
  symbolId : String
  start : Nat
  stop : Nat
deriving DecidableEq

def SemanticSymbol.location (document : String) (symbol : SemanticSymbol) : SymbolLocation where
  document := document
  role := symbol.role
  kind := symbol.kind
  name := symbol.name
  qualifiedName := symbol.qualifiedName
  symbolId := if symbol.symbolId = "" then symbol.qualifiedName else symbol.symbolId
  start := symbol.start
  stop := symbol.stop

-- The index
-- ---

/-- The methods of a document with the methods their families are named after. -/
abbrev Families := List (String × String)

structure SymbolIndex where
  documents : List (String × List SymbolLocation)
  documentOverrideFamilies : List (String × Families)
  overrideFamilies : BTreeMap String

namespace SymbolIndex

def empty : SymbolIndex := ⟨[], [], ∅⟩

variable (index : SymbolIndex)

def containsDocument (document : String) : Bool := index.documents.any fun entry => entry.1 = document

/-- `self.override_families.insert(symbol_id, family)`, one after the other -/
def insertFamilies (families : BTreeMap String) (relationships : Families) : BTreeMap String :=
  relationships.foldl (fun families entry => families.insert entry.1 entry.2) families

def rebuildOverrideFamilies (documents : List (String × Families)) : BTreeMap String :=
  documents.foldl (fun families entry => insertFamilies families entry.2) ∅

def removeDocument (document : String) : SymbolIndex :=
  let families := index.documentOverrideFamilies.filter fun entry => entry.1 ≠ document
  if index.containsDocument document then
    ⟨index.documents.filter fun entry => entry.1 ≠ document, families, rebuildOverrideFamilies families⟩
  else { index with documentOverrideFamilies := families }

def relationships (symbols : List SemanticSymbol) : Families :=
  (symbols.filter fun symbol => symbol.role = "override_family").map fun symbol =>
    (symbol.symbolId, symbol.qualifiedName)

def locations (document : String) (symbols : List SemanticSymbol) : List SymbolLocation :=
  (symbols.filter fun symbol => symbol.qualifiedName ≠ "" ∧ symbol.role ≠ "override_family").map
    (SemanticSymbol.location document)

def updateDocument (document : String) (symbols : List SemanticSymbol) : SymbolIndex :=
  let removed := index.removeDocument document
  ⟨removed.documents ++ [(document, locations document symbols)],
    removed.documentOverrideFamilies ++ [(document, relationships symbols)],
    insertFamilies removed.overrideFamilies (relationships symbols)⟩

def entries : List SymbolLocation := index.documents.flatMap Prod.snd

def definitions (symbolId : String) : List SymbolLocation :=
  index.entries.filter fun location => location.role = "declaration" ∧ location.symbolId = symbolId

def references (symbolId : String) : List SymbolLocation :=
  index.entries.filter fun location => location.role ≠ "declaration" ∧ location.symbolId = symbolId

def declarationsNamed (name : String) : List SymbolLocation :=
  index.entries.filter fun location => location.role = "declaration" ∧ location.name = name

def overrideFamily (symbolId : String) : Option String := index.overrideFamilies[symbolId]?

/-- The methods of the family of a method, less their order. -/
def relatedSymbolIds (symbolId : String) : List String :=
  let family := (index.overrideFamily symbolId).getD symbolId
  ((index.overrideFamilies.toList.filter fun entry => entry.2 = family).map Prod.fst ++ [family]).dedup

/-- `min_by_key`, which keeps the first of the shortest -/
def shortest : List SymbolLocation → Option SymbolLocation
  | [] => none
  | location :: rest =>
    match shortest rest with
    | none => some location
    | some best =>
      if best.stop - best.start < location.stop - location.start then some best else some location

/-- The smallest symbol of a document around an offset. -/
def symbolAt (document : String) (offset : Nat) : Option SymbolLocation :=
  (index.documents.lookup document).bind fun locations =>
    shortest (locations.filter fun location => location.start ≤ offset ∧ offset ≤ location.stop)

end SymbolIndex

-- Updates
-- ---

namespace SymbolIndex

variable {index : SymbolIndex} {document other : String} {symbols : List SemanticSymbol}
  {location : SymbolLocation}

theorem containsDocument_iff : index.containsDocument document ↔
    ∃ locations, (document, locations) ∈ index.documents := by
  rw [containsDocument, List.any_eq_true]
  constructor
  · rintro ⟨⟨name, locations⟩, hmem, hname⟩
    obtain rfl : name = document := of_decide_eq_true hname
    exact ⟨locations, hmem⟩
  · rintro ⟨locations, hmem⟩
    exact ⟨(document, locations), hmem, decide_eq_true rfl⟩

theorem documents_removeDocument (index : SymbolIndex) (document : String) :
    (index.removeDocument document).documents =
      index.documents.filter fun entry => entry.1 ≠ document := by
  unfold removeDocument
  split
  · rfl
  · next habsent =>
    refine (List.filter_eq_self.mpr fun entry hentry => ?_).symm
    rw [decide_eq_true_eq]
    rintro rfl
    exact habsent (containsDocument_iff.mpr ⟨entry.2, hentry⟩)

/-- **After an update the symbols of a document are those of the result,** and those of
the other documents are as they were. -/
theorem mem_documents_updateDocument {entry : String × List SymbolLocation} :
    entry ∈ (index.updateDocument document symbols).documents ↔
      (entry.1 ≠ document ∧ entry ∈ index.documents) ∨
        entry = (document, locations document symbols) := by
  unfold updateDocument
  rw [List.mem_append, documents_removeDocument, List.mem_filter, List.mem_singleton,
    decide_eq_true_eq, and_comm]

end SymbolIndex

end JMan.Lsp
