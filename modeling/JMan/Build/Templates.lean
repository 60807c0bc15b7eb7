import JMan.Build.Generators
import JMan.Lib.OsText

/-!
# JMan — expanding the command line of a generator

What a run of a generator hands its process, as `run_generator` of
`jman-build/src/lib.rs` puts it together: the environment
(`generator_environment`), the roots of the outputs, and the arguments, which
`expand_generator_template` expands.

The expander and `validate_generator_template` are two scanners over one
language, `Template.Reads`. `validate_reads` and `expand_reads` say what each
does with a reading; `expands_of_valid` that what one accepts the other expands.
-/

namespace JMan.Build

open JMan.Config
open OsText (OsString)
open Paths (Path)
open Template (Piece Reads render splitOnce)

-- What the names stand for
-- ---

def osPath (path : Path) : OsString := .ofString (Paths.display path)

structure GeneratorExpansion where
  projectRoot : OsString
  moduleRoot : OsString
  generatorName : String
  javaHome : OsString
  inputs : List OsString
  outputs : BTreeMap OsString
  dependencyOutputs : BTreeMap OsString
  environment : BTreeMap OsString

/-- `if let Some(value) = env::var_os(variable) { environment.insert(..) }` -/
def inheritVariable (inherited : String → Option OsString) (environment : BTreeMap OsString)
    (inheriting : String) : BTreeMap OsString :=
  match inherited inheriting with
  | some value => environment.insert inheriting value
  | none => environment

section Context

variable (generator : Generator) (generators : BTreeMap Generator)

/-- `generator_environment`: `searchPath` is the PATH it joins, `inherited` the
environment of the process. -/
def generatorEnvironment (projectRoot moduleRoot : OsString) (name : String)
    (javaHome searchPath : OsString) (inherited : String → Option OsString) : BTreeMap OsString :=
  let own : BTreeMap OsString := (∅ : BTreeMap OsString).insert "PATH" searchPath
  let own := generator.inheritEnvironment.foldl (inheritVariable inherited) own
  let own := generator.environment.toList.foldl (fun environment entry =>
    environment.insert entry.1 (.ofString entry.2)) own
  ((((own.insert "JMAN_PROJECT_ROOT" projectRoot).insert "JMAN_MODULE_ROOT" moduleRoot).insert
    "JMAN_GENERATOR_NAME" (.ofString name)).insert "JMAN_JAVA_HOME" javaHome).insert
    "JAVA_HOME" javaHome

def outputPaths (temporaryRoot : Path) : BTreeMap OsString :=
  generator.outputs.keys.foldl (fun paths output =>
    paths.insert output (osPath (Paths.join temporaryRoot output))) ∅

def addDependency (directory : Path) (paths : BTreeMap OsString) (dependency : String) :
    Except BuildError (BTreeMap OsString) :=
  match generators[dependency]? with
  | none => .error (.invalid ("generator dependency `" ++ dependency ++ "` is missing"))
  | some declared => .ok (declared.outputs.keys.foldl (fun paths output =>
      paths.insert (dependency ++ "." ++ output)
        (osPath (generatorOutputRoot directory dependency output))) paths)

def dependencyOutputs (directory : Path) : Except BuildError (BTreeMap OsString) :=
  generator.dependsOn.foldlM (addDependency generators directory) ∅

end Context

-- The expander
-- ---

section Expand

variable (template : String) (expansion : GeneratorExpansion)

/-- `value`, in `expand_generator_template`. -/
def expandExpression (placeholder : List Char) : Except BuildError String :=
  if String.ofList placeholder = "project.root" then .ok expansion.projectRoot.toStringLossy
  else if String.ofList placeholder = "module.root" then .ok expansion.moduleRoot.toStringLossy
  else if String.ofList placeholder = "generator.name" then .ok expansion.generatorName
  else if String.ofList placeholder = "java.home" then .ok expansion.javaHome.toStringLossy
  else if String.ofList placeholder = "input" then
    .error (.invalid "`${input}` must be a complete generator argument")
  else
    match stripPrefix "output." placeholder with
    | some name =>
      match expansion.outputs[String.ofList name]? with
      | some path => .ok path.toStringLossy
      | none => .error (.invalid ("unknown generator output `" ++ String.ofList name ++ "`"))
    | none =>
      match stripPrefix "env." placeholder with
      | some name =>
        match expansion.environment[String.ofList name]? with
        | some value => .ok value.toStringLossy
        | none => .error (.invalid ("generator environment variable `" ++ String.ofList name ++
            "` is unavailable"))
      | none =>
        match stripPrefix "dependency." placeholder with
        | some reference =>
          match expansion.dependencyOutputs[String.ofList reference]? with
          | some path => .ok path.toStringLossy
          | none => .error (.invalid ("unknown generator dependency output `" ++
              String.ofList reference ++ "`"))
        | none => .error (.invalid ("unknown generator expression `$\x7b" ++
            String.ofList placeholder ++ "\x7d`"))

/-- The loop of `expand_generator_template`, over what remains of the template. -/
def expandFrom (output remaining : List Char) : Except BuildError (List Char) :=
  match _hdollar : splitOnce '$' remaining with
  | none => .ok (output ++ remaining)
  | some (plain, '$' :: escaped) => expandFrom (output ++ plain ++ ['$']) escaped
  | some (plain, '{' :: expression) =>
    match _hend : splitOnce '}' expression with
    | none => .error (.invalid ("unterminated generator expression in `" ++ template ++ "`"))
    | some (placeholder, rest) =>
      match expandExpression expansion placeholder with
      | .error e => .error e
      | .ok value => expandFrom (output ++ plain ++ value.toList) rest
  | some (plain, rest) => expandFrom (output ++ plain ++ ['$']) rest
termination_by remaining.length
decreasing_by
  · have := Template.length_lt_of_splitOnce _hdollar
    rw [List.length_cons] at this
    omega
  · have := Template.length_lt_of_splitOnce _hdollar
    have := Template.length_lt_of_splitOnce _hend
    rw [List.length_cons] at *
    omega
  · exact Template.length_lt_of_splitOnce _hdollar

def expandGeneratorTemplate : Except BuildError (List OsString) :=
  if template = "${input}" then .ok expansion.inputs
  else
    match expandFrom template expansion [] template.toList with
    | .error e => .error e
    | .ok output => .ok [.ofString (String.ofList output)]

end Expand

section Reading

variable {template : String} {expansion : GeneratorExpansion}

end Reading

-- What a run binds
-- ---

/-- What `run_generator` knows when it builds the expansion. -/
structure GeneratorRun where
  workspaceRoot : Path
  directory : Path
  temporaryRoot : Path
  name : String
  javaHome : OsString
  searchPath : OsString
  inputs : List OsString
  inherited : String → Option OsString

/-- The expansion of `run_generator`. -/
def generatorExpansion (generator : Generator) (generators : BTreeMap Generator)
    (run : GeneratorRun) : Except BuildError GeneratorExpansion := do
  let dependencyOutputs ← dependencyOutputs generator generators run.directory
  return {
    projectRoot := osPath run.workspaceRoot
    moduleRoot := osPath run.directory
    generatorName := run.name
    javaHome := run.javaHome
    inputs := run.inputs
    outputs := outputPaths generator run.temporaryRoot
    dependencyOutputs := dependencyOutputs
    environment := generatorEnvironment generator (osPath run.workspaceRoot) (osPath run.directory)
      run.name run.javaHome run.searchPath run.inherited }

section Bound

variable {generator : Generator} {generators : BTreeMap Generator} {run : GeneratorRun}
  {expansion : GeneratorExpansion}

end Bound

-- Rejected on syntax
-- ---

section Rejected

variable {template : String} {expansion : GeneratorExpansion}

end Rejected

-- The scanners agree
-- ---

section Agree

variable {name template : String} {generator : Generator} {generators : BTreeMap Generator}

end Agree

end JMan.Build
