import JMan.Build.Fingerprint
import JMan.Build.Templates

/-!
# JMan — what a generator's key tells apart

`generator_key` of `jman-build/src/lib.rs`. Every text and file is hashed after
its length (`Encoding.parts`), but the input files and the environment follow
each other with nothing between them, so that `SameReading` decides whether two
invocations with one key are the same.
-/

namespace JMan.Build

open JMan.Config
open Encoding (Bytes Distinguishes Fits utf8 utf8_injective parts parts_injective paired
  length_paired paired_injective eq_of_map_fst_snd)
open OsText (OsString OsPath)

-- The key
-- ---

/-- What `generator_key` is given. -/
structure GeneratorInvocation where
  directory : OsPath
  name : String
  generator : Generator
  inputs : List OsPath
  executable : OsPath
  environment : BTreeMap OsString

/-- What it hashes: the generator with its JSON, the bytes of the executable, the
input files relative to the module, and the recorded state of each dependency. -/
@[ext]
structure GeneratorInputs where
  name : String
  generator : Generator
  json : Bytes
  executable : Bytes
  inputs : List (OsString × Bytes)
  environment : BTreeMap OsString
  dependencies : List Bytes
deriving DecidableEq

section Key

variable (serialize : Generator → Except String Bytes) (sha256 : Bytes → String)
  (files : OsPath → Except String Bytes)

/-- The bytes `hash_file` reads. -/
def readFile (path : OsPath) : Except BuildError Bytes :=
  (files path).mapError (.io path.absolute.toStringLossy)

def readRelative (directory input : OsPath) : Except BuildError (OsString × Bytes) :=
  match input.stripPrefix? directory with
  | none => .error (.invalid ("generator input " ++ input.absolute.toStringLossy ++
      " escaped the module"))
  | some relative => do
    let content ← readFile files input
    return (relative.relative, content)

/-- `.jman/generator-state/{dependency}.json` -/
def generatorState (directory : OsPath) (dependency : String) : OsPath :=
  directory ++ [.ofString ".jman", .ofString "generator-state", .ofString (dependency ++ ".json")]

def GeneratorInvocation.hashed (invocation : GeneratorInvocation) :
    Except BuildError GeneratorInputs := do
  let json ← (serialize invocation.generator).mapError fun error =>
    .invalid ("could not serialize generator: " ++ error)
  let executable ← readFile files invocation.executable
  let inputs ← invocation.inputs.mapM (readRelative files invocation.directory)
  let dependencies ← invocation.generator.dependsOn.mapM fun dependency =>
    readFile files (generatorState invocation.directory dependency)
  return { name := invocation.name
           generator := invocation.generator
           json := json
           executable := executable
           inputs := inputs
           environment := invocation.environment
           dependencies := dependencies }

/-- The arguments of `hash_part` and the contents of `hash_file`, in order. -/
def GeneratorInputs.pieces (inputs : GeneratorInputs) : List Bytes :=
  [utf8 "jman-generator-v1", utf8 inputs.name, inputs.json, inputs.executable] ++
    (paired (inputs.inputs.map fun file => (shown file.1, file.2)) ++
      (paired (inputs.environment.toList.map fun entry => (utf8 entry.1, shown entry.2)) ++
        inputs.dependencies))

def generatorKey (invocation : GeneratorInvocation) : Except BuildError String := do
  let inputs ← invocation.hashed serialize files
  return "sha256:" ++ sha256 (parts inputs.pieces)

/-- `serde_json::to_vec` writes different generators differently. -/
def Faithful : Prop :=
  ∀ generator generator' json, serialize generator = .ok json → serialize generator' = .ok json →
    generator = generator'

end Key

-- Inputs that are read alike
-- ---

/-- There are as many input files, and what is shown alike is the same. -/
structure SameReading (left right : GeneratorInputs) : Prop where
  inputs : left.inputs.length = right.inputs.length
  names : ShownApart (left.inputs.map Prod.fst) (right.inputs.map Prod.fst)
  values : ShownApart (left.environment.toList.map Prod.snd) (right.environment.toList.map Prod.snd)

theorem SameReading.refl (inputs : GeneratorInputs) : SameReading inputs inputs where
  inputs := rfl
  names := .refl _
  values := .refl _

section Results

variable {serialize : Generator → Except String Bytes} {sha256 : Bytes → String}
  {files files' : OsPath → Except String Bytes} {invocation invocation' : GeneratorInvocation}
  {inputs inputs' : GeneratorInputs}

theorem GeneratorInvocation.serialize_of_hashed
    (h : invocation.hashed serialize files = .ok inputs) :
    serialize inputs.generator = .ok inputs.json := by
  obtain ⟨json, hjson, h⟩ := Fallible.bind_eq_ok.mp h
  obtain ⟨executable, -, h⟩ := Fallible.bind_eq_ok.mp h
  obtain ⟨read, -, h⟩ := Fallible.bind_eq_ok.mp h
  obtain ⟨dependencies, -, h⟩ := Fallible.bind_eq_ok.mp h
  obtain rfl := Except.ok.inj h
  exact Fallible.mapError_eq_ok.mp hjson

theorem GeneratorInvocation.length_of_hashed (h : invocation.hashed serialize files = .ok inputs) :
    inputs.generator.dependsOn.length = inputs.dependencies.length := by
  obtain ⟨json, -, h⟩ := Fallible.bind_eq_ok.mp h
  obtain ⟨executable, -, h⟩ := Fallible.bind_eq_ok.mp h
  obtain ⟨read, -, h⟩ := Fallible.bind_eq_ok.mp h
  obtain ⟨dependencies, hdependencies, h⟩ := Fallible.bind_eq_ok.mp h
  obtain rfl := Except.ok.inj h
  exact (Fallible.mapM_eq_ok.mp hdependencies).length_eq

theorem generatorKey_of_hashed (h : invocation.hashed serialize files = .ok inputs) :
    generatorKey serialize sha256 files invocation =
      .ok ("sha256:" ++ sha256 (parts inputs.pieces)) := by
  rw [generatorKey, h]
  rfl

theorem GeneratorInputs.heads_of_pieces (h : inputs.pieces = inputs'.pieces) :
    inputs.name = inputs'.name ∧ inputs.json = inputs'.json ∧
      inputs.executable = inputs'.executable := by
  have htexts := (List.append_inj h rfl).1
  rw [List.cons.injEq, List.cons.injEq, List.cons.injEq, List.cons.injEq] at htexts
  obtain ⟨-, hname, hjson, hexecutable, -⟩ := htexts
  exact ⟨utf8_injective hname, hjson, hexecutable⟩

theorem SameReading.eq_of_pieces (hreading : SameReading inputs inputs')
    (h : inputs.pieces = inputs'.pieces)
    (hlength : inputs.dependencies.length = inputs'.dependencies.length) :
    inputs.inputs = inputs'.inputs ∧ inputs.environment = inputs'.environment ∧
      inputs.dependencies = inputs'.dependencies := by
  have hlists := (List.append_inj h rfl).2
  have hcount : (paired (inputs.inputs.map fun file => (shown file.1, file.2))).length =
      (paired (inputs'.inputs.map fun file => (shown file.1, file.2))).length := by
    rw [length_paired, length_paired, List.length_map, List.length_map, hreading.inputs]
  obtain ⟨hfiles, hrest⟩ := List.append_inj hlists hcount
  obtain ⟨hentries, hdependencies⟩ := List.append_inj' hrest hlength
  have hfiles := paired_injective hfiles
  have hentries := paired_injective hentries
  refine ⟨?_, ?_, hdependencies⟩
  · have hshown := congrArg (List.map Prod.fst) hfiles
    have hcontents := congrArg (List.map Prod.snd) hfiles
    rw [List.map_map, List.map_map] at hshown hcontents
    refine eq_of_map_fst_snd (hreading.names.eq ?_) hcontents
    rw [List.map_map, List.map_map]
    exact hshown
  · have hnames := congrArg (List.map Prod.fst) hentries
    have hshown := congrArg (List.map Prod.snd) hentries
    rw [List.map_map, List.map_map] at hnames hshown
    refine Std.ExtTreeMap.toList_inj.mp (eq_of_map_fst_snd ?_ (hreading.values.eq ?_))
    · refine List.map_injective_iff.mpr utf8_injective ?_
      rw [List.map_map, List.map_map]
      exact hnames
    · rw [List.map_map, List.map_map]
      exact hshown

/-- **A key says what a generator was run on, up to how many of it are input
files.** -/
theorem generatorKey_injective_iff (hserialize : Faithful serialize)
    (hinputs : invocation.hashed serialize files = .ok inputs)
    (hinputs' : invocation'.hashed serialize files' = .ok inputs')
    (hfits : ∀ piece ∈ inputs.pieces ++ inputs'.pieces, Fits piece)
    (hsha : Distinguishes sha256 (parts inputs.pieces) (parts inputs'.pieces))
    (h : generatorKey serialize sha256 files invocation =
      generatorKey serialize sha256 files' invocation') :
    inputs = inputs' ↔ SameReading inputs inputs' := by
  rw [generatorKey_of_hashed hinputs, generatorKey_of_hashed hinputs'] at h
  have htext := hsha ((String.append_right_inj "sha256:").mp (Except.ok.inj h))
  have hpieces : inputs.pieces = inputs'.pieces :=
    parts_injective (fun piece hp => hfits piece (List.mem_append_left _ hp))
      (fun piece hp => hfits piece (List.mem_append_right _ hp)) htext
  obtain ⟨hname, hjson, hexecutable⟩ := GeneratorInputs.heads_of_pieces hpieces
  have hwritten := GeneratorInvocation.serialize_of_hashed hinputs
  rw [hjson] at hwritten
  have hgenerator := hserialize _ _ _ hwritten (GeneratorInvocation.serialize_of_hashed hinputs')
  have hlength : inputs.dependencies.length = inputs'.dependencies.length := by
    rw [← GeneratorInvocation.length_of_hashed hinputs, hgenerator,
      GeneratorInvocation.length_of_hashed hinputs']
  constructor
  · rintro rfl
    exact .refl inputs
  · intro hreading
    obtain ⟨hfiles, henvironment, hdependencies⟩ := hreading.eq_of_pieces hpieces hlength
    exact GeneratorInputs.ext hname hgenerator hjson hexecutable hfiles henvironment hdependencies

end Results

-- A variable that reads as a file
-- ---

def copyGenerator : Generator where
  command := ["cat"]
  arguments := []
  inputs := ["A"]
  allowEmptyInputs := true
  dependsOn := []
  workingDirectory := none
  environment := ∅
  inheritEnvironment := ["A"]
  outputs := .ofList [("java", GeneratorOutput.mk .javaSources .main)]

def copyJson : String :=
  "\x7b\"command\":[\"cat\"],\"inputs\":[\"A\"],\"allow-empty-inputs\":true," ++
    "\"inherit-environment\":[\"A\"],\"outputs\":\x7b\"java\":\x7b\"kind\":\"java-sources\"," ++
    "\"source-set\":\"main\"\x7d\x7d\x7d"

def serializeCopy (generator : Generator) : Except String Bytes :=
  if generator = copyGenerator then .ok (utf8 copyJson) else .error "unknown generator"

def copyInvocation (inputs : List OsPath) (value : Option String) : GeneratorInvocation where
  directory := [.ofString "m"]
  name := "copy"
  generator := copyGenerator
  inputs := inputs
  executable := [.ofString "usr", .ofString "bin", .ofString "cat"]
  environment := generatorEnvironment copyGenerator (.ofString "/m") (.ofString "/m") "copy"
    (.ofString "/jdk") (.ofString "/jdk/bin:/usr/bin") fun name =>
      if name = "A" then value.map .ofString else none

def copyFiles (path : OsPath) : Except String Bytes :=
  if path = [.ofString "usr", .ofString "bin", .ofString "cat"] then .ok (utf8 "ELF")
  else if path = [.ofString "m", .ofString "A"] then .ok (utf8 "x")
  else .error "No such file or directory (os error 2)"

def fileInvocation : GeneratorInvocation :=
  copyInvocation [[.ofString "m", .ofString "A"]] none

def variableInvocation : GeneratorInvocation := copyInvocation [] (some "x")

theorem pieces_of_copy :
    (fileInvocation.hashed serializeCopy copyFiles).toOption.map (·.pieces) =
      (variableInvocation.hashed serializeCopy copyFiles).toOption.map (·.pieces) := by
  decide +kernel

/-- An input file is an environment variable to the key. -/
theorem generatorKey_confuses :
    ∃ inputs inputs', fileInvocation.hashed serializeCopy copyFiles = .ok inputs ∧
      variableInvocation.hashed serializeCopy copyFiles = .ok inputs' ∧ inputs ≠ inputs' ∧
      ∀ sha256, generatorKey serializeCopy sha256 copyFiles fileInvocation =
        generatorKey serializeCopy sha256 copyFiles variableInvocation := by
  have hpieces := pieces_of_copy
  have hne : (fileInvocation.hashed serializeCopy copyFiles).toOption ≠
      (variableInvocation.hashed serializeCopy copyFiles).toOption := by decide +kernel
  obtain ⟨inputs, hinputs⟩ : ∃ inputs,
      fileInvocation.hashed serializeCopy copyFiles = .ok inputs :=
    Fallible.exists_eq_ok (by decide +kernel)
  obtain ⟨inputs', hinputs'⟩ : ∃ inputs',
      variableInvocation.hashed serializeCopy copyFiles = .ok inputs' :=
    Fallible.exists_eq_ok (by decide +kernel)
  rw [hinputs, hinputs'] at hpieces hne
  have hpieces : inputs.pieces = inputs'.pieces := Option.some.inj hpieces
  refine ⟨inputs, inputs', hinputs, hinputs', fun h => hne (h ▸ rfl), fun sha256 => ?_⟩
  rw [generatorKey_of_hashed hinputs, generatorKey_of_hashed hinputs', hpieces]

theorem serializeCopy_faithful : Faithful serializeCopy := by
  have hcopy : ∀ generator json, serializeCopy generator = .ok json → generator = copyGenerator := by
    intro generator json h
    unfold serializeCopy at h
    split at h
    · next hsame => exact hsame
    · cases h
  intro generator generator' json h h'
  rw [hcopy generator json h, hcopy generator' json h']

def copyDigest : String := "d179232cd82e344e4a8b33b00c6b3eef04842129569a66e8faaba104acbf849e"

theorem generatorKey_of_copy :
    ∃ inputs inputs', fileInvocation.hashed serializeCopy copyFiles = .ok inputs ∧
      variableInvocation.hashed serializeCopy copyFiles = .ok inputs' ∧
      generatorKey serializeCopy (fun _ => copyDigest) copyFiles fileInvocation =
        .ok ("sha256:" ++ copyDigest) ∧ (inputs = inputs' ↔ SameReading inputs inputs') := by
  have hpieces := pieces_of_copy
  obtain ⟨inputs, hinputs⟩ : ∃ inputs,
      fileInvocation.hashed serializeCopy copyFiles = .ok inputs :=
    Fallible.exists_eq_ok (by decide +kernel)
  obtain ⟨inputs', hinputs'⟩ : ∃ inputs',
      variableInvocation.hashed serializeCopy copyFiles = .ok inputs' :=
    Fallible.exists_eq_ok (by decide +kernel)
  have hsmall : ((fileInvocation.hashed serializeCopy copyFiles).toOption.all fun inputs =>
      inputs.pieces.all fun piece => piece.length < 1000) = true := by decide +kernel
  rw [hinputs, hinputs'] at hpieces
  rw [hinputs] at hsmall
  have hpieces : inputs.pieces = inputs'.pieces := Option.some.inj hpieces
  refine ⟨inputs, inputs', hinputs, hinputs', generatorKey_of_hashed hinputs, ?_⟩
  have hkey : generatorKey serializeCopy (fun _ => copyDigest) copyFiles fileInvocation =
      generatorKey serializeCopy (fun _ => copyDigest) copyFiles variableInvocation := by
    rw [generatorKey_of_hashed hinputs, generatorKey_of_hashed hinputs']
  refine generatorKey_injective_iff serializeCopy_faithful hinputs hinputs' ?_
    (fun _ => by rw [hpieces]) hkey
  intro piece hp
  rw [← hpieces, List.mem_append, or_self] at hp
  have hlength := of_decide_eq_true (List.all_eq_true.mp hsmall piece hp)
  show piece.length < 2 ^ 64
  omega

end JMan.Build
