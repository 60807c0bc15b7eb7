import JMan.Build.Artifacts
import JMan.Lib.Encoding
import JMan.Lib.OsText

/-!
# JMan — what a fingerprint tells apart

`module_fingerprint` of `jman-build/src/lib.rs`. The digest is taken of the texts
and files one after the other (`CompileInputs.pieces`), with nothing that says
where one ends or how many a list has, so that `SameLayout` decides whether two
compilations with one fingerprint are the same.
-/

namespace JMan.Build

open JMan.Config
open Encoding (Bytes Distinguishes utf8 utf8_injective paired length_paired paired_injective
  eq_of_map_fst_snd)
open OsText (OsString)
open Paths (Path)

/-- A path as it is hashed: `path.to_string_lossy().as_bytes()`. -/
def shown (path : OsString) : Bytes := utf8 path.toStringLossy

-- The fingerprint
-- ---

/-- What `module_fingerprint` is given. -/
structure CompileRequest where
  directory : Path
  manifest : Manifest
  toolchain : String
  sources : List OsString
  resources : List OsString
  classpath : List OsString
  processors : List OsString
  upstream : List (OsString × String)

/-- What it hashes: the manifest with its text, and the files with their bytes. -/
@[ext]
structure CompileInputs where
  toolchain : String
  manifest : Manifest
  toml : String
  sources : List (OsString × Bytes)
  resources : List (OsString × Bytes)
  classpath : List OsString
  processors : List OsString
  upstream : List (OsString × String)
deriving DecidableEq

def stateVersion : String := "jman-build-v2"

/-- `fs::read(path)`, with the path. -/
def readInput (files : OsString → Except String Bytes) (path : OsString) :
    Except BuildError (OsString × Bytes) :=
  match files path with
  | .ok bytes => .ok (path, bytes)
  | .error source => .error (.io path.toStringLossy source)

def CompileRequest.inputs (format : Format) (files : OsString → Except String Bytes)
    (request : CompileRequest) : Except BuildError CompileInputs := do
  let toml ← (request.manifest.toToml format).mapError
    (.config (Paths.display (Paths.join request.directory "jman.toml")))
  let sources ← request.sources.mapM (readInput files)
  let resources ← request.resources.mapM (readInput files)
  return { toolchain := request.toolchain
           manifest := request.manifest
           toml := toml
           sources := sources
           resources := resources
           classpath := request.classpath
           processors := request.processors
           upstream := request.upstream }

/-- The arguments of `hash.update`, in order. -/
def CompileInputs.pieces (inputs : CompileInputs) : List Bytes :=
  [utf8 stateVersion, utf8 inputs.toolchain, utf8 inputs.toml] ++
    (paired ((inputs.sources ++ inputs.resources).map fun file => (shown file.1, file.2)) ++
      ((inputs.classpath ++ inputs.processors).map shown ++
        paired (inputs.upstream.map fun module => (shown module.1, utf8 module.2))))

/-- `sha256` hashes bytes and writes the digest in hex. -/
def moduleFingerprint (format : Format) (sha256 : Bytes → String)
    (files : OsString → Except String Bytes) (request : CompileRequest) :
    Except BuildError String := do
  let inputs ← request.inputs format files
  return "sha256:" ++ sha256 inputs.pieces.flatten

-- Inputs that are read alike
-- ---

def CompileInputs.paths (inputs : CompileInputs) : List OsString :=
  (inputs.sources ++ inputs.resources).map Prod.fst ++
    ((inputs.classpath ++ inputs.processors) ++ inputs.upstream.map Prod.fst)

/-- Path by path, what is shown alike is the same. -/
def ShownApart (left right : List OsString) : Prop :=
  List.Forall₂ (fun one other => shown one = shown other → one = other) left right

/-- The lists have the same lengths, and so has each text and file. -/
structure SameLayout (left right : CompileInputs) : Prop where
  sources : left.sources.length = right.sources.length
  resources : left.resources.length = right.resources.length
  classpath : left.classpath.length = right.classpath.length
  processors : left.processors.length = right.processors.length
  upstream : left.upstream.length = right.upstream.length
  pieces : left.pieces.map List.length = right.pieces.map List.length
  paths : ShownApart left.paths right.paths

theorem ShownApart.refl (paths : List OsString) : ShownApart paths paths :=
  List.forall₂_same.mpr fun _ _ _ => rfl

theorem ShownApart.eq {left right : List OsString} (h : ShownApart left right)
    (hshown : left.map shown = right.map shown) : left = right := by
  induction h with
  | nil => rfl
  | cons hpath _ ih =>
    rw [List.map_cons, List.map_cons, List.cons.injEq] at hshown
    rw [hpath hshown.1, ih hshown.2]

section Layout

variable {left right : CompileInputs}

/-- What equal pieces say, when the lists have the same lengths. -/
structure SamePieces (left right : CompileInputs) : Prop where
  toolchain : left.toolchain = right.toolchain
  toml : left.toml = right.toml
  files : (left.sources ++ left.resources).map (fun file => (shown file.1, file.2)) =
    (right.sources ++ right.resources).map fun file => (shown file.1, file.2)
  entries : (left.classpath ++ left.processors).map shown =
    (right.classpath ++ right.processors).map shown
  upstream : left.upstream.map (fun module => (shown module.1, utf8 module.2)) =
    right.upstream.map fun module => (shown module.1, utf8 module.2)

theorem SameLayout.samePieces (hlayout : SameLayout left right) (h : left.pieces = right.pieces) :
    SamePieces left right := by
  have hfiles : (paired ((left.sources ++ left.resources).map
      fun file => (shown file.1, file.2))).length = (paired ((right.sources ++ right.resources).map
      fun file => (shown file.1, file.2))).length := by
    rw [length_paired, length_paired, List.length_map, List.length_map, List.length_append,
      List.length_append, hlayout.sources, hlayout.resources]
  have hentries : ((left.classpath ++ left.processors).map shown).length =
      ((right.classpath ++ right.processors).map shown).length := by
    rw [List.length_map, List.length_map, List.length_append, List.length_append,
      hlayout.classpath, hlayout.processors]
  obtain ⟨htexts, hrest⟩ := List.append_inj h rfl
  obtain ⟨hfiles, hrest⟩ := List.append_inj hrest hfiles
  obtain ⟨hentries, hupstream⟩ := List.append_inj hrest hentries
  rw [List.cons.injEq, List.cons.injEq, List.cons.injEq] at htexts
  exact { toolchain := utf8_injective htexts.2.1
          toml := utf8_injective htexts.2.2.1
          files := paired_injective hfiles
          entries := hentries
          upstream := paired_injective hupstream }

theorem CompileInputs.shown_paths (inputs : CompileInputs) :
    inputs.paths.map shown = (inputs.sources ++ inputs.resources).map (fun file => shown file.1) ++
      ((inputs.classpath ++ inputs.processors).map shown ++
        inputs.upstream.map fun module => shown module.1) := by
  simp only [paths, List.map_append, List.map_map, Function.comp_def, List.append_assoc]

theorem SamePieces.shown_paths (h : SamePieces left right) :
    left.paths.map shown = right.paths.map shown := by
  have hfiles := congrArg (List.map Prod.fst) h.files
  have hupstream := congrArg (List.map Prod.fst) h.upstream
  rw [List.map_map, List.map_map] at hfiles hupstream
  rw [CompileInputs.shown_paths, CompileInputs.shown_paths, h.entries]
  exact congrArg₂ (fun one other => one ++ (_ ++ other)) hfiles hupstream

theorem SameLayout.eq_of_samePieces (hlayout : SameLayout left right) (h : SamePieces left right)
    (hmanifest : left.manifest = right.manifest) : left = right := by
  have hpaths : left.paths = right.paths := hlayout.paths.eq h.shown_paths
  have hfirsts : ((left.sources ++ left.resources).map Prod.fst).length =
      ((right.sources ++ right.resources).map Prod.fst).length := by
    rw [List.length_map, List.length_map, List.length_append, List.length_append, hlayout.sources,
      hlayout.resources]
  obtain ⟨hfirst, hrest⟩ := List.append_inj hpaths hfirsts
  have hlengths : (left.classpath ++ left.processors).length =
      (right.classpath ++ right.processors).length := by
    rw [List.length_append, List.length_append, hlayout.classpath, hlayout.processors]
  obtain ⟨hentries, hdirectories⟩ := List.append_inj hrest hlengths
  have hcontents := congrArg (List.map Prod.snd) h.files
  have hprints := congrArg (List.map Prod.snd) h.upstream
  rw [List.map_map, List.map_map] at hcontents hprints
  have hfiles := eq_of_map_fst_snd hfirst hcontents
  have htexts : (left.upstream.map Prod.snd).map utf8 = (right.upstream.map Prod.snd).map utf8 := by
    rw [List.map_map, List.map_map]
    exact hprints
  have hupstream := eq_of_map_fst_snd hdirectories
    (List.map_injective_iff.mpr utf8_injective htexts)
  obtain ⟨hsources, hresources⟩ := List.append_inj hfiles hlayout.sources
  obtain ⟨hclasspath, hprocessors⟩ := List.append_inj hentries hlayout.classpath
  exact CompileInputs.ext h.toolchain hmanifest h.toml hsources hresources hclasspath hprocessors
    hupstream

theorem SameLayout.refl (inputs : CompileInputs) : SameLayout inputs inputs where
  sources := rfl
  resources := rfl
  classpath := rfl
  processors := rfl
  upstream := rfl
  pieces := rfl
  paths := .refl inputs.paths

end Layout

-- Equal fingerprints
-- ---

section Results

variable {format : Format} {sha256 : Bytes → String}
  {files files' : OsString → Except String Bytes} {request request' : CompileRequest}
  {inputs inputs' : CompileInputs}

theorem CompileRequest.toToml_of_inputs (h : request.inputs format files = .ok inputs) :
    inputs.manifest.toToml format = .ok inputs.toml := by
  obtain ⟨toml, htoml, hrest⟩ := Fallible.bind_eq_ok.mp h
  obtain ⟨sources, -, hrest⟩ := Fallible.bind_eq_ok.mp hrest
  obtain ⟨resources, -, hrest⟩ := Fallible.bind_eq_ok.mp hrest
  obtain rfl := Except.ok.inj hrest
  exact Fallible.mapError_eq_ok.mp htoml

theorem moduleFingerprint_of_inputs (h : request.inputs format files = .ok inputs) :
    moduleFingerprint format sha256 files request =
      .ok ("sha256:" ++ sha256 inputs.pieces.flatten) := by
  rw [moduleFingerprint, h]
  rfl

theorem moduleFingerprint_moved_source (format : Format) (sha256 : Bytes → String)
    (files : OsString → Except String Bytes) (request : CompileRequest) (moved : List OsString) :
    moduleFingerprint format sha256 files { request with sources := request.sources ++ moved } =
      moduleFingerprint format sha256 files
        { request with resources := moved ++ request.resources } := by
  simp only [moduleFingerprint, CompileRequest.inputs, CompileInputs.pieces, bind_assoc, pure_bind,
    List.mapM_append, List.append_assoc]

theorem moduleFingerprint_moved (format : Format) (sha256 : Bytes → String)
    (files : OsString → Except String Bytes) (request : CompileRequest) (moved : List OsString) :
    moduleFingerprint format sha256 files
        { request with classpath := request.classpath ++ moved } =
      moduleFingerprint format sha256 files
        { request with processors := moved ++ request.processors } := by
  simp only [moduleFingerprint, CompileRequest.inputs, CompileInputs.pieces, bind_assoc, pure_bind,
    List.append_assoc]

/-- **A fingerprint says what was compiled, up to where its parts begin and
end.** -/
theorem moduleFingerprint_injective_iff (hformat : format.RoundTrips)
    (hinputs : request.inputs format files = .ok inputs)
    (hinputs' : request'.inputs format files' = .ok inputs')
    (hsha : Distinguishes sha256 inputs.pieces.flatten inputs'.pieces.flatten)
    (h : moduleFingerprint format sha256 files request =
      moduleFingerprint format sha256 files' request') :
    inputs = inputs' ↔ SameLayout inputs inputs' := by
  rw [moduleFingerprint_of_inputs hinputs, moduleFingerprint_of_inputs hinputs'] at h
  have htext := hsha ((String.append_right_inj "sha256:").mp (Except.ok.inj h))
  constructor
  · rintro rfl
    exact .refl inputs
  · intro hlayout
    have hpieces := List.eq_iff_flatten_eq.mpr ⟨htext, hlayout.pieces⟩
    have hsame := hlayout.samePieces hpieces
    refine hlayout.eq_of_samePieces hsame ?_
    have htoml := CompileRequest.toToml_of_inputs hinputs
    rw [hsame.toml] at htoml
    exact Manifest.toToml_injective hformat htoml (CompileRequest.toToml_of_inputs hinputs')

end Results

-- A small module
-- ---

def bareManifest : Manifest where
  manifestVersion := manifestSchema
  project := { group := "org.example"
               name := "app"
               version := "1"
               javaRelease := 21
               packaging := "jar"
               modules := []
               mainClass := none }
  toolchain := none
  maven := none
  build := none
  repositories := []
  dependencies := { compile := ∅, runtime := ∅, provided := ∅, test := ∅ }
  annotationProcessors := ∅
  sections := ""

def bareFormat : Format := Format.ofTable [("[project]", bareManifest)]

def bareRequest (sources : List String) : CompileRequest where
  directory := ["m"]
  manifest := bareManifest
  toolchain := "21.0.2"
  sources := sources.map .ofString
  resources := []
  classpath := []
  processors := []
  upstream := []

def fileA : String := "/m/src/main/java/A.java"

def fileB : String := "/m/src/main/java/B.java"

def filesOf (table : List (String × String)) (path : OsString) : Except String Bytes :=
  match table.lookup path.toStringLossy with
  | some text => .ok (utf8 text)
  | none => .error "No such file or directory (os error 2)"

def joinedFiles : OsString → Except String Bytes :=
  filesOf [(fileA, "class A \x7b\x7d //" ++ fileB ++ "\nclass B \x7b\x7d\n")]

def splitFiles : OsString → Except String Bytes :=
  filesOf [(fileA, "class A \x7b\x7d //"), (fileB, "\nclass B \x7b\x7d\n")]

/-- A path commented out in one file is a second file to the fingerprint. -/
theorem moduleFingerprint_joined :
    ∃ joined split, (bareRequest [fileA]).inputs bareFormat joinedFiles = .ok joined ∧
      (bareRequest [fileA, fileB]).inputs bareFormat splitFiles = .ok split ∧ joined ≠ split ∧
      ∀ sha256, moduleFingerprint bareFormat sha256 joinedFiles (bareRequest [fileA]) =
        moduleFingerprint bareFormat sha256 splitFiles (bareRequest [fileA, fileB]) := by
  have htext : ((bareRequest [fileA]).inputs bareFormat joinedFiles).toOption.map
        (·.pieces.flatten) =
      ((bareRequest [fileA, fileB]).inputs bareFormat splitFiles).toOption.map
        (·.pieces.flatten) := by decide +kernel
  have hne : ((bareRequest [fileA]).inputs bareFormat joinedFiles).toOption ≠
      ((bareRequest [fileA, fileB]).inputs bareFormat splitFiles).toOption := by decide +kernel
  obtain ⟨joined, hjoined⟩ : ∃ joined,
      (bareRequest [fileA]).inputs bareFormat joinedFiles = .ok joined :=
    Fallible.exists_eq_ok (by decide +kernel)
  obtain ⟨split, hsplit⟩ : ∃ split,
      (bareRequest [fileA, fileB]).inputs bareFormat splitFiles = .ok split :=
    Fallible.exists_eq_ok (by decide +kernel)
  rw [hjoined, hsplit] at htext hne
  have htext : joined.pieces.flatten = split.pieces.flatten := Option.some.inj htext
  refine ⟨joined, split, hjoined, hsplit, fun h => hne (h ▸ rfl), fun sha256 => ?_⟩
  rw [moduleFingerprint_of_inputs hjoined, moduleFingerprint_of_inputs hsplit, htext]

def withClasspath : CompileRequest :=
  { bareRequest [] with classpath := [.ofString "/cache/core.jar"] }

def withProcessor : CompileRequest :=
  { bareRequest [] with processors := [.ofString "/cache/core.jar"] }

def coreDigest : String := "e8520b44e164c2b0a14ae67efbcd0f57d9212ee1150be8d29ba2eb36f7e03cef"

theorem moduleFingerprint_of_core :
    ∃ inputs inputs', withClasspath.inputs bareFormat splitFiles = .ok inputs ∧
      withProcessor.inputs bareFormat splitFiles = .ok inputs' ∧
      moduleFingerprint bareFormat (fun _ => coreDigest) splitFiles withClasspath =
        .ok ("sha256:" ++ coreDigest) ∧ (inputs = inputs' ↔ SameLayout inputs inputs') := by
  have htext : (withClasspath.inputs bareFormat splitFiles).toOption.map (·.pieces.flatten) =
      (withProcessor.inputs bareFormat splitFiles).toOption.map (·.pieces.flatten) := by
    decide +kernel
  obtain ⟨inputs, hinputs⟩ : ∃ inputs, withClasspath.inputs bareFormat splitFiles = .ok inputs :=
    Fallible.exists_eq_ok (by decide +kernel)
  obtain ⟨inputs', hinputs'⟩ : ∃ inputs, withProcessor.inputs bareFormat splitFiles = .ok inputs :=
    Fallible.exists_eq_ok (by decide +kernel)
  rw [hinputs, hinputs'] at htext
  refine ⟨inputs, inputs', hinputs, hinputs', moduleFingerprint_of_inputs hinputs, ?_⟩
  refine moduleFingerprint_injective_iff (Format.ofTable_roundTrips (by decide)) hinputs hinputs'
    (fun _ => Option.some.inj htext)
    (moduleFingerprint_moved bareFormat (fun _ => coreDigest) splitFiles (bareRequest [])
      [.ofString "/cache/core.jar"])

end JMan.Build
