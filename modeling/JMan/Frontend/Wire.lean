import JMan.Lib.Reader
import JMan.Lib.OsText

/-!
# JMan — results of the Java frontend

`WireEncoder` of the frontend, which writes the results of the compiler as bytes, and
the decoders of `javac-frontend/src/native.rs`, which read them back. What is written
within the limit of a payload is read as it was written when its texts and lists have
no more than a million bytes and elements (`wire_round_trip`).
-/

namespace JMan.Frontend

open Encoding (Bytes utf8 bigEndian ofBigEndian littleEndian ofLittleEndian)
open Reading (Reader Reads Exact)

/-- `FrontendError`, of the errors that reading a result can end with. -/
inductive FrontendError where
  | invalidResult (message : String)
deriving DecidableEq

-- Results

section Records

variable (Position : Type)

-- Positions are signed for the compiler and unsigned on the other side.

structure SemanticSymbol where
  role : String
  kind : String
  name : String
  qualifiedName : String
  symbolId : String
  start : Position
  «end» : Position
deriving DecidableEq

structure Diagnostic where
  kind : String
  code : String
  start : Position
  «end» : Position
  line : Position
  column : Position
  message : String
deriving DecidableEq

structure SemanticResult where
  packageName : String
  symbols : List (SemanticSymbol Position)
  diagnostics : List (Diagnostic Position)
deriving DecidableEq

structure StructuralFile where
  fileName : String
  packageName : String
  imports : List String
  symbols : List (SemanticSymbol Position)
  diagnostics : List (Diagnostic Position)
deriving DecidableEq

structure WorkspaceParseResult where
  files : List (StructuralFile Position)
deriving DecidableEq

structure EditorDefinition where
  symbolId : String
  module : String
  owner : String
  name : String
  descriptor : String
  sourceName : String
  source : String
  start : Position
  «end» : Position
  decompiled : Bool
deriving DecidableEq

structure FormatResult where
  source : String
  diagnostics : List (Diagnostic Position)
deriving DecidableEq

end Records

structure EditorCompletion where
  label : String
  kind : String
  detail : String
  insertText : String
  documentation : String
deriving DecidableEq

structure EditorSignature where
  label : String
  parameters : List String
  returnType : String
  documentation : String
deriving DecidableEq

structure EditorHover where
  detail : String
  documentation : String
deriving DecidableEq

structure EditorQueryResult (Position : Type) where
  completions : List EditorCompletion
  signatures : List EditorSignature
  hover : Option EditorHover
  definition : Option (EditorDefinition Position)
  typeDefinition : Option (EditorDefinition Position)
deriving DecidableEq

-- The encoder

def writeInt (value : Nat) : Bytes := bigEndian 4 value

def writeLong (value : Int64) : Bytes := bigEndian 8 value.toUInt64.toNat

def writeBytes (text : String) : Bytes := text.toList.map fun c => UInt8.ofNat c.toNat

def writeBoolean (value : Bool) : Bytes := [if value then 1 else 0]

def writeString (value : String) : Bytes := writeInt (utf8 value).length ++ utf8 value

section Writers

variable {α : Type} (write : α → Bytes)

def writeList (elements : List α) : Bytes := writeInt elements.length ++ elements.flatMap write

/-- A record that may be `null`. -/
def writeNullable : Option α → Bytes
  | none => writeBoolean false
  | some value => writeBoolean true ++ write value

end Writers

def SemanticSymbol.write (symbol : SemanticSymbol Int64) : Bytes :=
  writeString symbol.role ++ writeString symbol.kind ++ writeString symbol.name ++
    writeString symbol.qualifiedName ++ writeString symbol.symbolId ++ writeLong symbol.start ++
    writeLong symbol.end

def Diagnostic.write (diagnostic : Diagnostic Int64) : Bytes :=
  writeString diagnostic.kind ++ writeString diagnostic.code ++ writeLong diagnostic.start ++
    writeLong diagnostic.end ++ writeLong diagnostic.line ++ writeLong diagnostic.column ++
    writeString diagnostic.message

def SemanticResult.encode (result : SemanticResult Int64) : Bytes :=
  writeBytes "JFS1" ++ writeString result.packageName ++
    writeList SemanticSymbol.write result.symbols ++ writeList Diagnostic.write result.diagnostics

def StructuralFile.write (file : StructuralFile Int64) : Bytes :=
  writeString file.fileName ++ writeString file.packageName ++ writeList writeString file.imports ++
    writeList SemanticSymbol.write file.symbols ++ writeList Diagnostic.write file.diagnostics

def WorkspaceParseResult.encode (result : WorkspaceParseResult Int64) : Bytes :=
  writeBytes "JFB1" ++ writeList StructuralFile.write result.files

def EditorCompletion.write (completion : EditorCompletion) : Bytes :=
  writeString completion.label ++ writeString completion.kind ++ writeString completion.detail ++
    writeString completion.insertText ++ writeString completion.documentation

def EditorSignature.write (signature : EditorSignature) : Bytes :=
  writeString signature.label ++ writeList writeString signature.parameters ++
    writeString signature.returnType ++ writeString signature.documentation

def EditorHover.write (hover : EditorHover) : Bytes :=
  writeString hover.detail ++ writeString hover.documentation

def EditorDefinition.write (definition : EditorDefinition Int64) : Bytes :=
  writeString definition.symbolId ++ writeString definition.module ++
    writeString definition.owner ++ writeString definition.name ++
    writeString definition.descriptor ++ writeString definition.sourceName ++
    writeString definition.source ++ writeLong definition.start ++ writeLong definition.end ++
    writeBoolean definition.decompiled

def EditorQueryResult.encode (result : EditorQueryResult Int64) : Bytes :=
  writeBytes "JFQ2" ++ writeList EditorCompletion.write result.completions ++
    writeList EditorSignature.write result.signatures ++
    writeNullable EditorHover.write result.hover ++
    writeNullable EditorDefinition.write result.definition ++
    writeNullable EditorDefinition.write result.typeDefinition

def FormatResult.encode (result : FormatResult Int64) : Bytes :=
  writeBytes "JFF1" ++ writeString result.source ++ writeList Diagnostic.write result.diagnostics

/-- `NativeBridge.allocate`: a payload after its length. -/
def allocate (payload : Bytes) : Bytes := littleEndian 4 payload.length ++ payload

-- The decoders

def payloadLimit : Nat := 67108864

/-- `copy_and_free`, from the memory at a result on. -/
def copyAndFree (memory : Bytes) : Except FrontendError Bytes :=
  let length := ofLittleEndian (memory.take 4)
  if length > payloadLimit then .error (.invalidResult "payload exceeds safety limit")
  else .ok ((memory.drop 4).take length)

abbrev WireReader := Reader FrontendError

namespace WireReader

def take (length : Nat) : WireReader Bytes :=
  Reading.take (.invalidResult "truncated semantic wire data") length

def u32 : WireReader UInt32 := do
  let bytes ← take 4
  return UInt32.ofNat (ofBigEndian bytes)

def u64 : WireReader UInt64 := do
  let bytes ← take 8
  return UInt64.ofNat (ofBigEndian bytes)

def checkCount (count : Nat) : WireReader Nat :=
  if count > 1000000 then throw (.invalidResult "wire collection is too large") else return count

def count : WireReader Nat := do
  let count ← u32
  checkCount count.toNat

def fromUtf8 (bytes : Bytes) : WireReader String :=
  match String.fromUTF8? ⟨bytes.toArray⟩ with
  | some text => return text
  | none => throw (.invalidResult "wire string is not UTF-8")

def string : WireReader String := do
  let length ← count
  let bytes ← take length
  fromUtf8 bytes

def flag : WireReader Bool := do
  let byte ← take 1
  return byte = [1]

def version (versions : List String) (message : String) : WireReader Bytes := do
  let version ← take 4
  if version ∈ versions.map writeBytes then return version else throw (.invalidResult message)

section Readers

variable {α : Type} (element : WireReader α)

def list : WireReader (List α) := do
  let count ← count
  Reading.many element count

/-- A record that is there if the flag before it is set. -/
def ifPresent (present : Bool) : WireReader (Option α) :=
  if present = true then do
    let value ← element
    return some value
  else return none

def nullable : WireReader (Option α) := do
  let present ← flag
  ifPresent element present

end Readers

def semanticSymbol : WireReader (SemanticSymbol UInt64) := do
  let role ← string
  let kind ← string
  let name ← string
  let qualifiedName ← string
  let symbolId ← string
  let start ← u64
  let last ← u64
  return ⟨role, kind, name, qualifiedName, symbolId, start, last⟩

def semanticDiagnostic : WireReader (Diagnostic UInt64) := do
  let kind ← string
  let code ← string
  let start ← u64
  let last ← u64
  let line ← u64
  let column ← u64
  let message ← string
  return ⟨kind, code, start, last, line, column, message⟩

def semanticResult : WireReader (SemanticResult UInt64) := do
  let _ ← version ["JFS1"] "semantic wire version mismatch"
  let packageName ← string
  let symbols ← list semanticSymbol
  let diagnostics ← list semanticDiagnostic
  return ⟨packageName, symbols, diagnostics⟩

def structuralFile : WireReader (StructuralFile UInt64) := do
  let fileName ← string
  let packageName ← string
  let imports ← list string
  let symbols ← list semanticSymbol
  let diagnostics ← list semanticDiagnostic
  return ⟨fileName, packageName, imports, symbols, diagnostics⟩

def workspaceResult : WireReader (WorkspaceParseResult UInt64) := do
  let _ ← version ["JFB1"] "workspace wire version mismatch"
  let files ← list structuralFile
  return ⟨files⟩

def editorCompletion : WireReader EditorCompletion := do
  let label ← string
  let kind ← string
  let detail ← string
  let insertText ← string
  let documentation ← string
  return ⟨label, kind, detail, insertText, documentation⟩

def editorSignature : WireReader EditorSignature := do
  let label ← string
  let parameters ← list string
  let returnType ← string
  let documentation ← string
  return ⟨label, parameters, returnType, documentation⟩

def editorHover : WireReader EditorHover := do
  let detail ← string
  let documentation ← string
  return ⟨detail, documentation⟩

def editorDefinition : WireReader (EditorDefinition UInt64) := do
  let symbolId ← string
  let module ← string
  let owner ← string
  let name ← string
  let descriptor ← string
  let sourceName ← string
  let source ← string
  let start ← u64
  let last ← u64
  let decompiled ← flag
  return ⟨symbolId, module, owner, name, descriptor, sourceName, source, start, last, decompiled⟩

/-- The last record of an editor query, which the first version does not have. -/
def typeDefinition (version : Bytes) : WireReader (Option (EditorDefinition UInt64)) :=
  if version = writeBytes "JFQ2" then nullable editorDefinition else return none

def editorQueryResult : WireReader (EditorQueryResult UInt64) := do
  let version ← version ["JFQ1", "JFQ2"] "editor-query wire version mismatch"
  let completions ← list editorCompletion
  let signatures ← list editorSignature
  let hover ← nullable editorHover
  let definition ← nullable editorDefinition
  let typeDefinition ← typeDefinition version
  return ⟨completions, signatures, hover, definition, typeDefinition⟩

def formatResult : WireReader (FormatResult UInt64) := do
  let _ ← version ["JFF1"] "formatter wire version mismatch"
  let source ← string
  let diagnostics ← list semanticDiagnostic
  return ⟨source, diagnostics⟩

end WireReader

open WireReader

def decodeSemanticResult : Bytes → Except FrontendError (SemanticResult UInt64) :=
  Reading.whole (.invalidResult "trailing semantic wire data") semanticResult

def decodeEditorQueryResult : Bytes → Except FrontendError (EditorQueryResult UInt64) :=
  Reading.whole (.invalidResult "trailing editor-query wire data") editorQueryResult

def decodeFormatResult : Bytes → Except FrontendError (FormatResult UInt64) :=
  Reading.whole (.invalidResult "trailing formatter wire data") formatResult

def decodeWorkspaceResult : Bytes → Except FrontendError (WorkspaceParseResult UInt64) :=
  Reading.whole (.invalidResult "trailing workspace wire data") workspaceResult

-- What is read of what was written

def IsShort (text : String) : Prop := (utf8 text).length ≤ 1000000

/-- A list that is short enough to be read, and its elements too. -/
def AreShort {α : Type} (Short : α → Prop) (elements : List α) : Prop :=
  elements.length ≤ 1000000 ∧ ∀ element ∈ elements, Short element

def SemanticSymbol.Short {Position : Type} (symbol : SemanticSymbol Position) : Prop :=
  IsShort symbol.role ∧ IsShort symbol.kind ∧ IsShort symbol.name ∧
    IsShort symbol.qualifiedName ∧ IsShort symbol.symbolId

def Diagnostic.Short {Position : Type} (diagnostic : Diagnostic Position) : Prop :=
  IsShort diagnostic.kind ∧ IsShort diagnostic.code ∧ IsShort diagnostic.message

def SemanticResult.Short {Position : Type} (result : SemanticResult Position) : Prop :=
  IsShort result.packageName ∧ AreShort SemanticSymbol.Short result.symbols ∧
    AreShort Diagnostic.Short result.diagnostics

def StructuralFile.Short {Position : Type} (file : StructuralFile Position) : Prop :=
  IsShort file.fileName ∧ IsShort file.packageName ∧ AreShort IsShort file.imports ∧
    AreShort SemanticSymbol.Short file.symbols ∧ AreShort Diagnostic.Short file.diagnostics

def WorkspaceParseResult.Short {Position : Type} (result : WorkspaceParseResult Position) : Prop :=
  AreShort StructuralFile.Short result.files

def EditorCompletion.Short (completion : EditorCompletion) : Prop :=
  IsShort completion.label ∧ IsShort completion.kind ∧ IsShort completion.detail ∧
    IsShort completion.insertText ∧ IsShort completion.documentation

def EditorSignature.Short (signature : EditorSignature) : Prop :=
  IsShort signature.label ∧ AreShort IsShort signature.parameters ∧
    IsShort signature.returnType ∧ IsShort signature.documentation

def EditorHover.Short (hover : EditorHover) : Prop :=
  IsShort hover.detail ∧ IsShort hover.documentation

def EditorDefinition.Short {Position : Type} (definition : EditorDefinition Position) : Prop :=
  IsShort definition.symbolId ∧ IsShort definition.module ∧ IsShort definition.owner ∧
    IsShort definition.name ∧ IsShort definition.descriptor ∧ IsShort definition.sourceName ∧
    IsShort definition.source

def EditorQueryResult.Short {Position : Type} (result : EditorQueryResult Position) : Prop :=
  AreShort EditorCompletion.Short result.completions ∧
    AreShort EditorSignature.Short result.signatures ∧
    (∀ hover ∈ result.hover, hover.Short) ∧
    (∀ definition ∈ result.definition, definition.Short) ∧
    ∀ definition ∈ result.typeDefinition, definition.Short

def FormatResult.Short {Position : Type} (result : FormatResult Position) : Prop :=
  IsShort result.source ∧ AreShort Diagnostic.Short result.diagnostics

section Positions

variable {ν μ : Type} (f : ν → μ)

-- The results at other positions.

def SemanticSymbol.map (symbol : SemanticSymbol ν) : SemanticSymbol μ :=
  { symbol with start := f symbol.start, «end» := f symbol.end }

def Diagnostic.map (diagnostic : Diagnostic ν) : Diagnostic μ :=
  { diagnostic with
    start := f diagnostic.start
    «end» := f diagnostic.end
    line := f diagnostic.line
    column := f diagnostic.column }

def SemanticResult.map (result : SemanticResult ν) : SemanticResult μ where
  packageName := result.packageName
  symbols := result.symbols.map (SemanticSymbol.map f)
  diagnostics := result.diagnostics.map (Diagnostic.map f)

def StructuralFile.map (file : StructuralFile ν) : StructuralFile μ :=
  { file with
    symbols := file.symbols.map (SemanticSymbol.map f)
    diagnostics := file.diagnostics.map (Diagnostic.map f) }

def WorkspaceParseResult.map (result : WorkspaceParseResult ν) : WorkspaceParseResult μ :=
  ⟨result.files.map (StructuralFile.map f)⟩

def EditorDefinition.map (definition : EditorDefinition ν) : EditorDefinition μ :=
  { definition with start := f definition.start, «end» := f definition.end }

def EditorQueryResult.map (result : EditorQueryResult ν) : EditorQueryResult μ :=
  { result with
    definition := result.definition.map (EditorDefinition.map f)
    typeDefinition := result.typeDefinition.map (EditorDefinition.map f) }

def FormatResult.map (result : FormatResult ν) : FormatResult μ where
  source := result.source
  diagnostics := result.diagnostics.map (Diagnostic.map f)

end Positions

section Reading

variable {limit : Nat}

theorem reads_u64 (value : Int64) : Reads limit u64 (writeLong value) True value.toUInt64 := by
  refine Reads.of_eq fun rest => ?_
  have htake : take 8 (writeLong value ++ rest) = .ok (writeLong value, rest) := by
    have hread := Reading.take_append (FrontendError.invalidResult "truncated semantic wire data")
      (writeLong value) rest
    rwa [writeLong, Encoding.length_bigEndian] at hread
  have hvalue : UInt64.ofNat (ofBigEndian (writeLong value)) = value.toUInt64 := by
    have hsmall : value.toUInt64.toNat % 256 ^ 8 = value.toUInt64.toNat :=
      Nat.mod_eq_of_lt value.toUInt64.toNat_lt
    rw [writeLong, Encoding.ofBigEndian_bigEndian, hsmall, UInt64.ofNat_toNat]
  rw [u64, Reading.bind_apply, htake, ← hvalue]
  rfl

theorem reads_flag (value : Bool) : Reads limit flag (writeBoolean value) True value := by
  refine Reads.of_eq fun rest => ?_
  have htake : take 1 (writeBoolean value ++ rest) = .ok (writeBoolean value, rest) :=
    Reading.take_append _ (writeBoolean value) rest
  rw [flag, Reading.bind_apply, htake]
  cases value <;> rfl

theorem reads_u32 {value : Nat} (hvalue : value < 4294967296) :
    Reads limit u32 (writeInt value) True (UInt32.ofNat value) := by
  refine Reads.of_eq fun rest => ?_
  have htake : take 4 (writeInt value ++ rest) = .ok (writeInt value, rest) := by
    have hread := Reading.take_append (FrontendError.invalidResult "truncated semantic wire data")
      (writeInt value) rest
    rwa [writeInt, Encoding.length_bigEndian] at hread
  have hsame : ofBigEndian (writeInt value) = value := by
    rw [writeInt, Encoding.ofBigEndian_bigEndian]
    exact Nat.mod_eq_of_lt hvalue
  rw [u32, Reading.bind_apply, htake, ← congrArg UInt32.ofNat hsame]
  rfl

theorem reads_checkCount (value : Nat) :
    Reads limit (checkCount value) [] (value ≤ 1000000) value := by
  intro _ rest
  unfold checkCount
  refine ⟨fun hfew => ?_, fun hmany => ⟨.invalidResult "wire collection is too large", ?_⟩⟩
  · rw [if_neg (by omega)]
    rfl
  · rw [if_pos (by omega)]
    rfl

/-- **A count is read up to a million.** -/
theorem reads_count {value : Nat} (hvalue : value < 4294967296) :
    Reads limit count (writeInt value) (value ≤ 1000000) value := by
  have hnat : (UInt32.ofNat value).toNat = value := UInt32.toNat_ofNat_of_lt' hvalue
  have hcheck : Reads limit (checkCount (UInt32.ofNat value).toNat) [] (value ≤ 1000000) value := by
    rw [hnat]
    exact reads_checkCount value
  have hread : Reads limit count (writeInt value ++ []) (True ∧ value ≤ 1000000) value :=
    (reads_u32 hvalue).bind hcheck
  rw [List.append_nil] at hread
  exact hread.congr (by rw [true_and])

theorem reads_take (bytes : Bytes) : Reads limit (take bytes.length) bytes True bytes :=
  Reads.of_eq fun rest => Reading.take_append _ bytes rest

theorem reads_fromUtf8 (text : String) : Reads limit (fromUtf8 (utf8 text)) [] True text := by
  refine Reads.of_eq fun rest => ?_
  rw [fromUtf8, Encoding.fromUTF8?_utf8]
  rfl

/-- **A text is read up to a million bytes.** -/
theorem reads_string (hlimit : limit < 4294967296) (text : String) :
    Reads limit string (writeString text) (IsShort text) text := by
  intro hlength
  have hsmall : (utf8 text).length < 4294967296 := by
    rw [writeString, List.length_append] at hlength
    omega
  have hread : Reads limit string (writeInt (utf8 text).length ++ (utf8 text ++ []))
      (IsShort text ∧ True ∧ True) text :=
    (reads_count hsmall).bind ((reads_take (utf8 text)).bind (reads_fromUtf8 text))
  rw [List.append_nil] at hread
  exact hread.congr (by simp) hlength

section Lists

variable {α β : Type} {element : WireReader β} {write : α → Bytes} {Short : α → Prop} {f : α → β}

theorem length_le_flatMap (hfilled : ∀ a, 0 < (write a).length) (elements : List α) :
    elements.length ≤ (elements.flatMap write).length := by
  induction elements with
  | nil => exact Nat.le_refl 0
  | cons a elements ih =>
    have hfirst := hfilled a
    rw [List.length_cons, List.flatMap_cons, List.length_append]
    omega

/-- **A list is read up to a million elements.** -/
theorem reads_list (hlimit : limit < 4294967296) (hfilled : ∀ a, 0 < (write a).length)
    (helement : ∀ a, Reads limit element (write a) (Short a) (f a)) (elements : List α) :
    Reads limit (list element) (writeList write elements) (AreShort Short elements)
      (elements.map f) := by
  intro hlength
  have hsmall : elements.length < 4294967296 := by
    have hbytes := length_le_flatMap hfilled elements
    rw [writeList, List.length_append] at hlength
    omega
  exact (reads_count hsmall).bind (Reads.many helement elements) hlength

theorem reads_nullable (helement : ∀ a, Reads limit element (write a) (Short a) (f a))
    (value : Option α) :
    Reads limit (nullable element) (writeNullable write value) (∀ a ∈ value, Short a)
      (value.map f) := by
  cases value with
  | none =>
    have hnone : Reads limit (ifPresent element false) [] True none := Reads.of_eq fun rest => rfl
    have hread : Reads limit (nullable element) (writeBoolean false ++ []) (True ∧ True) none :=
      (reads_flag false).bind hnone
    exact hread.congr (by simp)
  | some a =>
    have hsome : Reads limit (ifPresent element true) (write a) (Short a) (some (f a)) :=
      (helement a).map some
    have hread : Reads limit (nullable element) (writeBoolean true ++ write a) (True ∧ Short a)
      (some (f a)) := (reads_flag true).bind hsome
    exact hread.congr (by simp)

end Lists

theorem reads_version {text : String} {versions : List String} {message : String}
    (htext : text ∈ versions) (hlength : (writeBytes text).length = 4) :
    Reads limit (version versions message) (writeBytes text) True (writeBytes text) := by
  refine Reads.of_eq fun rest => ?_
  have htake : take 4 (writeBytes text ++ rest) = .ok (writeBytes text, rest) := by
    rw [← hlength]
    exact Reading.take_append _ (writeBytes text) rest
  rw [version, Reading.bind_apply, htake]
  show (if writeBytes text ∈ versions.map writeBytes then _ else _ : WireReader Bytes) rest = _
  rw [if_pos (List.mem_map_of_mem htext)]
  rfl

theorem writeString_filled (text : String) : 0 < (writeString text).length := by
  rw [writeString, List.length_append, writeInt, Encoding.length_bigEndian]
  omega

theorem filled_of_writeString {text : String} {bytes rest : Bytes}
    (h : bytes = writeString text ++ rest) : 0 < bytes.length := by
  have htext := writeString_filled text
  rw [h, List.length_append]
  omega

-- The records, field by field.

theorem reads_semanticSymbol (hlimit : limit < 4294967296) (symbol : SemanticSymbol Int64) :
    Reads limit semanticSymbol symbol.write symbol.Short (symbol.map Int64.toUInt64) := by
  have htext := reads_string hlimit
  unfold SemanticSymbol.write
  simp only [List.append_assoc]
  refine Reads.congr ((htext _).bind ((htext _).bind ((htext _).bind ((htext _).bind ((htext _).bind
    ((reads_u64 _).bind ((reads_u64 _).map _))))))) ?_
  simp only [SemanticSymbol.Short, and_true]

theorem reads_semanticDiagnostic (hlimit : limit < 4294967296) (diagnostic : Diagnostic Int64) :
    Reads limit semanticDiagnostic diagnostic.write diagnostic.Short
      (diagnostic.map Int64.toUInt64) := by
  have htext := reads_string hlimit
  unfold Diagnostic.write
  simp only [List.append_assoc]
  refine Reads.congr ((htext _).bind ((htext _).bind ((reads_u64 _).bind ((reads_u64 _).bind
    ((reads_u64 _).bind ((reads_u64 _).bind ((htext _).map _))))))) ?_
  simp only [Diagnostic.Short, true_and]

theorem reads_symbols (hlimit : limit < 4294967296) (symbols : List (SemanticSymbol Int64)) :
    Reads limit (list semanticSymbol) (writeList SemanticSymbol.write symbols)
      (AreShort SemanticSymbol.Short symbols) (symbols.map (SemanticSymbol.map Int64.toUInt64)) :=
  reads_list hlimit (fun symbol => filled_of_writeString (by
    simp only [SemanticSymbol.write, List.append_assoc]; rfl)) (reads_semanticSymbol hlimit) symbols

theorem reads_diagnostics (hlimit : limit < 4294967296) (diagnostics : List (Diagnostic Int64)) :
    Reads limit (list semanticDiagnostic) (writeList Diagnostic.write diagnostics)
      (AreShort Diagnostic.Short diagnostics) (diagnostics.map (Diagnostic.map Int64.toUInt64)) :=
  reads_list hlimit (fun diagnostic => filled_of_writeString (by
    simp only [Diagnostic.write, List.append_assoc]; rfl)) (reads_semanticDiagnostic hlimit)
    diagnostics

theorem reads_strings (hlimit : limit < 4294967296) (texts : List String) :
    Reads limit (list string) (writeList writeString texts) (AreShort IsShort texts) texts := by
  have hread := reads_list (f := id) hlimit writeString_filled (reads_string hlimit) texts
  rwa [List.map_id] at hread

theorem reads_semanticResult (hlimit : limit < 4294967296) (result : SemanticResult Int64) :
    Reads limit semanticResult result.encode result.Short (result.map Int64.toUInt64) := by
  unfold SemanticResult.encode
  simp only [List.append_assoc]
  refine Reads.congr ((reads_version List.mem_cons_self rfl).bind ((reads_string hlimit _).bind
    ((reads_symbols hlimit _).bind ((reads_diagnostics hlimit _).map _)))) ?_
  rw [SemanticResult.Short, true_and]

theorem reads_structuralFile (hlimit : limit < 4294967296) (file : StructuralFile Int64) :
    Reads limit structuralFile file.write file.Short (file.map Int64.toUInt64) := by
  have htext := reads_string hlimit
  unfold StructuralFile.write
  simp only [List.append_assoc]
  exact (htext _).bind ((htext _).bind ((reads_strings hlimit _).bind
    ((reads_symbols hlimit _).bind ((reads_diagnostics hlimit _).map _))))

theorem reads_workspaceResult (hlimit : limit < 4294967296) (result : WorkspaceParseResult Int64) :
    Reads limit workspaceResult result.encode result.Short (result.map Int64.toUInt64) := by
  have hfiles := reads_list hlimit (fun file => filled_of_writeString (by
    simp only [StructuralFile.write, List.append_assoc]; rfl)) (reads_structuralFile hlimit)
    result.files
  refine Reads.congr ((reads_version List.mem_cons_self rfl).bind (hfiles.map _)) ?_
  rw [WorkspaceParseResult.Short, true_and]

theorem reads_editorCompletion (hlimit : limit < 4294967296) (completion : EditorCompletion) :
    Reads limit editorCompletion completion.write completion.Short completion := by
  have htext := reads_string hlimit
  unfold EditorCompletion.write
  simp only [List.append_assoc]
  exact (htext _).bind ((htext _).bind ((htext _).bind ((htext _).bind ((htext _).map _))))

theorem reads_editorSignature (hlimit : limit < 4294967296) (signature : EditorSignature) :
    Reads limit editorSignature signature.write signature.Short signature := by
  have htext := reads_string hlimit
  unfold EditorSignature.write
  simp only [List.append_assoc]
  exact (htext _).bind ((reads_strings hlimit _).bind ((htext _).bind ((htext _).map _)))

theorem reads_editorHover (hlimit : limit < 4294967296) (hover : EditorHover) :
    Reads limit editorHover hover.write hover.Short hover :=
  (reads_string hlimit _).bind ((reads_string hlimit _).map _)

theorem reads_editorDefinition (hlimit : limit < 4294967296) (definition : EditorDefinition Int64) :
    Reads limit editorDefinition definition.write definition.Short
      (definition.map Int64.toUInt64) := by
  have htext := reads_string hlimit
  unfold EditorDefinition.write
  simp only [List.append_assoc]
  refine Reads.congr ((htext _).bind ((htext _).bind ((htext _).bind ((htext _).bind ((htext _).bind
    ((htext _).bind ((htext _).bind ((reads_u64 _).bind ((reads_u64 _).bind
      ((reads_flag _).map _)))))))))) ?_
  simp only [EditorDefinition.Short, and_true]

theorem reads_editorQueryResult (hlimit : limit < 4294967296) (result : EditorQueryResult Int64) :
    Reads limit editorQueryResult result.encode result.Short (result.map Int64.toUInt64) := by
  have hcompletions := reads_list (f := id) hlimit (fun completion => filled_of_writeString (by
    simp only [EditorCompletion.write, List.append_assoc]; rfl)) (reads_editorCompletion hlimit)
    result.completions
  have hsignatures := reads_list (f := id) hlimit (fun signature => filled_of_writeString (by
    simp only [EditorSignature.write, List.append_assoc]; rfl)) (reads_editorSignature hlimit)
    result.signatures
  have hhover := reads_nullable (f := id) (reads_editorHover hlimit) result.hover
  rw [List.map_id] at hcompletions hsignatures
  rw [Option.map_id] at hhover
  have hdefinition := reads_nullable (reads_editorDefinition hlimit)
  have htypeDefinition : Reads limit (typeDefinition (writeBytes "JFQ2"))
      (writeNullable EditorDefinition.write result.typeDefinition)
      (∀ definition ∈ result.typeDefinition, definition.Short)
      (result.typeDefinition.map (EditorDefinition.map Int64.toUInt64)) := by
    rw [typeDefinition, if_pos rfl]
    exact hdefinition result.typeDefinition
  unfold EditorQueryResult.encode
  simp only [List.append_assoc]
  refine Reads.congr ((reads_version (List.mem_cons_of_mem _ List.mem_cons_self) rfl).bind
    (hcompletions.bind (hsignatures.bind (hhover.bind ((hdefinition _).bind
      (htypeDefinition.map _)))))) ?_
  rw [EditorQueryResult.Short, true_and]

theorem reads_formatResult (hlimit : limit < 4294967296) (result : FormatResult Int64) :
    Reads limit formatResult result.encode result.Short (result.map Int64.toUInt64) := by
  unfold FormatResult.encode
  simp only [List.append_assoc]
  refine Reads.congr ((reads_version List.mem_cons_self rfl).bind ((reads_string hlimit _).bind
    ((reads_diagnostics hlimit _).map _))) ?_
  rw [FormatResult.Short, true_and]

end Reading

-- Decoders are exact

section Exactness

theorem exact_u32 : Exact u32 := (Reading.exact_take _ 4).bind fun _ => Reading.exact_pure _

theorem exact_u64 : Exact u64 := (Reading.exact_take _ 8).bind fun _ => Reading.exact_pure _

theorem exact_flag : Exact flag := (Reading.exact_take _ 1).bind fun _ => Reading.exact_pure _

theorem exact_count : Exact count :=
  exact_u32.bind fun _ => (Reading.exact_throw _).ite (Reading.exact_pure _)

theorem exact_fromUtf8 (bytes : Bytes) : Exact (fromUtf8 bytes) := by
  unfold fromUtf8
  split
  · exact Reading.exact_pure _
  · exact Reading.exact_throw _

theorem exact_string : Exact string :=
  exact_count.bind fun length => (Reading.exact_take _ length).bind exact_fromUtf8

theorem exact_version (versions : List String) (message : String) :
    Exact (version versions message) :=
  (Reading.exact_take _ 4).bind fun _ => (Reading.exact_pure _).ite (Reading.exact_throw _)

section Elements

variable {α : Type} {element : WireReader α}

theorem exact_list (helement : Exact element) : Exact (list element) :=
  exact_count.bind fun count => helement.many count

theorem exact_nullable (helement : Exact element) : Exact (nullable element) :=
  exact_flag.bind fun _ => (helement.bind fun _ => Reading.exact_pure _).ite (Reading.exact_pure _)

end Elements

theorem exact_semanticSymbol : Exact semanticSymbol :=
  exact_string.bind fun _ => exact_string.bind fun _ => exact_string.bind fun _ =>
    exact_string.bind fun _ => exact_string.bind fun _ => exact_u64.bind fun _ =>
      exact_u64.bind fun _ => Reading.exact_pure _

theorem exact_semanticDiagnostic : Exact semanticDiagnostic :=
  exact_string.bind fun _ => exact_string.bind fun _ => exact_u64.bind fun _ =>
    exact_u64.bind fun _ => exact_u64.bind fun _ => exact_u64.bind fun _ =>
      exact_string.bind fun _ => Reading.exact_pure _

theorem exact_semanticResult : Exact semanticResult :=
  (exact_version _ _).bind fun _ => exact_string.bind fun _ =>
    (exact_list exact_semanticSymbol).bind fun _ =>
      (exact_list exact_semanticDiagnostic).bind fun _ => Reading.exact_pure _

theorem exact_structuralFile : Exact structuralFile :=
  exact_string.bind fun _ => exact_string.bind fun _ => (exact_list exact_string).bind fun _ =>
    (exact_list exact_semanticSymbol).bind fun _ =>
      (exact_list exact_semanticDiagnostic).bind fun _ => Reading.exact_pure _

theorem exact_workspaceResult : Exact workspaceResult :=
  (exact_version _ _).bind fun _ => (exact_list exact_structuralFile).bind fun _ =>
    Reading.exact_pure _

theorem exact_editorCompletion : Exact editorCompletion :=
  exact_string.bind fun _ => exact_string.bind fun _ => exact_string.bind fun _ =>
    exact_string.bind fun _ => exact_string.bind fun _ => Reading.exact_pure _

theorem exact_editorSignature : Exact editorSignature :=
  exact_string.bind fun _ => (exact_list exact_string).bind fun _ => exact_string.bind fun _ =>
    exact_string.bind fun _ => Reading.exact_pure _

theorem exact_editorHover : Exact editorHover :=
  exact_string.bind fun _ => exact_string.bind fun _ => Reading.exact_pure _

theorem exact_editorDefinition : Exact editorDefinition :=
  exact_string.bind fun _ => exact_string.bind fun _ => exact_string.bind fun _ =>
    exact_string.bind fun _ => exact_string.bind fun _ => exact_string.bind fun _ =>
      exact_string.bind fun _ => exact_u64.bind fun _ => exact_u64.bind fun _ =>
        exact_flag.bind fun _ => Reading.exact_pure _

theorem exact_typeDefinition (version : Bytes) : Exact (typeDefinition version) :=
  (exact_nullable exact_editorDefinition).ite (Reading.exact_pure _)

theorem exact_editorQueryResult : Exact editorQueryResult :=
  (exact_version _ _).bind fun version => (exact_list exact_editorCompletion).bind fun _ =>
    (exact_list exact_editorSignature).bind fun _ => (exact_nullable exact_editorHover).bind fun _ =>
      (exact_nullable exact_editorDefinition).bind fun _ =>
        (exact_typeDefinition version).bind fun _ => Reading.exact_pure _

theorem exact_formatResult : Exact formatResult :=
  (exact_version _ _).bind fun _ => exact_string.bind fun _ =>
    (exact_list exact_semanticDiagnostic).bind fun _ => Reading.exact_pure _

end Exactness

-- The round trip

section RoundTrip

variable {α β : Type}

/-- A result within the limit of a payload is handed over as it was encoded, is read as
it was if it is short, and is refused otherwise. -/
def RoundTrips (encode : α → Bytes) (decode : Bytes → Except FrontendError β) (Short : α → Prop)
    (read : α → β) : Prop :=
  ∀ result, (encode result).length ≤ payloadLimit →
    copyAndFree (allocate (encode result)) = .ok (encode result) ∧
    (Short result → decode (encode result) = .ok (read result)) ∧
    (¬ Short result → ∃ e, decode (encode result) = .error e)

/-- A payload that is accepted can neither be extended nor cut. -/
def RejectsOthers (decode : Bytes → Except FrontendError β) : Prop :=
  ∀ payload value, decode payload = .ok value →
    (∀ more, more ≠ [] → ∃ e, decode (payload ++ more) = .error e) ∧
    ∀ before after, payload = before ++ after → after ≠ [] → ∃ e, decode before = .error e

theorem payloadLimit_lt : payloadLimit < 4294967296 := by decide

theorem copyAndFree_allocate {payload : Bytes} (h : payload.length ≤ payloadLimit) :
    copyAndFree (allocate payload) = .ok payload := by
  have hheader : (littleEndian 4 payload.length).length = 4 := Encoding.length_littleEndian _ _
  have hlength : ofLittleEndian (littleEndian 4 payload.length) = payload.length := by
    rw [Encoding.ofLittleEndian_littleEndian]
    exact Nat.mod_eq_of_lt (Nat.lt_of_le_of_lt h payloadLimit_lt)
  rw [copyAndFree, allocate, List.take_left' hheader, List.drop_left' hheader, hlength,
    List.take_length]
  exact if_neg (Nat.not_lt.mpr h)

theorem roundTrips_whole {reader : WireReader β} {encode : α → Bytes} {Short : α → Prop}
    {read : α → β} (trailing : FrontendError)
    (h : ∀ result, Reads payloadLimit reader (encode result) (Short result) (read result)) :
    RoundTrips encode (Reading.whole trailing reader) Short read :=
  fun result hlength => ⟨copyAndFree_allocate hlength, (h result).whole trailing hlength⟩

theorem rejectsOthers_whole {reader : WireReader β} (trailing : FrontendError)
    (h : Exact reader) : RejectsOthers (Reading.whole trailing reader) :=
  fun _ _ haccepted => ⟨fun _ hmore => ⟨trailing, Reading.whole_append h haccepted hmore⟩,
    fun _ _ hpayload hafter => Reading.whole_cut h haccepted hpayload hafter⟩

end RoundTrip

/-- **The round trip of results.** What is encoded within the limit of a payload is read
as it was, with positions as unsigned numbers, exactly if no text has more than a million
bytes and no list more than a million elements; what a decoder accepts can neither be
extended nor cut, and a reader looks at nothing but the bytes it takes. -/
theorem wire_round_trip :
    (RoundTrips SemanticResult.encode decodeSemanticResult SemanticResult.Short
        (SemanticResult.map Int64.toUInt64) ∧
      RoundTrips WorkspaceParseResult.encode decodeWorkspaceResult WorkspaceParseResult.Short
        (WorkspaceParseResult.map Int64.toUInt64) ∧
      RoundTrips EditorQueryResult.encode decodeEditorQueryResult EditorQueryResult.Short
        (EditorQueryResult.map Int64.toUInt64) ∧
      RoundTrips FormatResult.encode decodeFormatResult FormatResult.Short
        (FormatResult.map Int64.toUInt64)) ∧
    (RejectsOthers decodeSemanticResult ∧ RejectsOthers decodeWorkspaceResult ∧
      RejectsOthers decodeEditorQueryResult ∧ RejectsOthers decodeFormatResult) ∧
    Exact semanticResult ∧ Exact workspaceResult ∧ Exact editorQueryResult ∧ Exact formatResult :=
  ⟨⟨roundTrips_whole _ (reads_semanticResult payloadLimit_lt),
      roundTrips_whole _ (reads_workspaceResult payloadLimit_lt),
      roundTrips_whole _ (reads_editorQueryResult payloadLimit_lt),
      roundTrips_whole _ (reads_formatResult payloadLimit_lt)⟩,
    ⟨rejectsOthers_whole _ exact_semanticResult, rejectsOthers_whole _ exact_workspaceResult,
      rejectsOthers_whole _ exact_editorQueryResult, rejectsOthers_whole _ exact_formatResult⟩,
    exact_semanticResult, exact_workspaceResult, exact_editorQueryResult, exact_formatResult⟩

theorem length_utf8_replicate (n : Nat) :
    (utf8 (String.ofList (List.replicate n 'a'))).length = n := by
  have hletter : (String.utf8EncodeChar 'a').length = 1 := by decide
  rw [utf8, OsText.toUTF8_eq_flatMap, String.toList_ofList]
  induction n with
  | zero => rfl
  | succ n ih =>
    rw [List.replicate_succ, List.flatMap_cons, List.length_append, hletter, ih]
    omega

theorem long_source_is_refused :
    ∃ result : FormatResult Int64, result.encode.length ≤ payloadLimit ∧
      ∀ value, decodeFormatResult result.encode ≠ .ok value := by
  obtain ⟨source, hsource⟩ : ∃ source, (utf8 source).length = 1000001 :=
    ⟨_, length_utf8_replicate 1000001⟩
  have hlength : (FormatResult.encode ⟨source, []⟩).length = 1000013 := by
    have hversion : (writeBytes "JFF1").length = 4 := rfl
    have hnone : (writeList Diagnostic.write []).length = 4 := rfl
    rw [FormatResult.encode, List.length_append, List.length_append, hversion, hnone, writeString,
      List.length_append, hsource, writeInt, Encoding.length_bigEndian]
  have hsmall : (FormatResult.encode ⟨source, []⟩).length ≤ payloadLimit := by
    rw [hlength]
    decide
  refine ⟨⟨source, []⟩, hsmall, fun value h => ?_⟩
  have hlong : ¬ FormatResult.Short (⟨source, []⟩ : FormatResult Int64) := by
    rintro ⟨hshort, -⟩
    rw [IsShort, hsource] at hshort
    omega
  obtain ⟨e, he⟩ := ((reads_formatResult payloadLimit_lt ⟨source, []⟩).whole
    (.invalidResult "trailing formatter wire data") hsmall).2 hlong
  rw [decodeFormatResult, he] at h
  cases h

end JMan.Frontend
