import JMan.Config.Manifest
import JMan.Lib.Layers
import JMan.Lib.Template

/-!
# JMan — generators

The `generators` of a `build` table, which a `Manifest` carries as text, and the
checks `jman-config/src/lib.rs` makes of them: `validate_generators`, with the
templates of a generator's command line (`validate_generator_template`).
-/

namespace JMan.Config

open Template (Piece Reads splitOnce)

-- Generators

inductive GeneratorOutputKind where
  | javaSources
  | resources
deriving DecidableEq

inductive GeneratorSourceSet where
  | main
  | test
  | integrationTest
deriving DecidableEq

structure GeneratorOutput where
  kind : GeneratorOutputKind
  sourceSet : GeneratorSourceSet
deriving DecidableEq

structure Generator where
  command : List String
  arguments : List String
  inputs : List String
  allowEmptyInputs : Bool
  dependsOn : List String
  workingDirectory : Option String
  environment : BTreeMap String
  inheritEnvironment : List String
  outputs : BTreeMap GeneratorOutput
deriving DecidableEq

-- Templates

/-- `placeholder.strip_prefix(..)` -/
def stripPrefix (start : String) (placeholder : List Char) : Option (List Char) :=
  if start.toList.isPrefixOf placeholder then some (placeholder.drop start.length) else none

section Template

variable (name template : String) (generator : Generator) (generators : BTreeMap Generator)

/-- What `${..}` may name in a template of the generator. -/
def validExpression (placeholder : List Char) : Bool :=
  String.ofList placeholder ∈
      ["project.root", "module.root", "generator.name", "input", "java.home"] ||
  (stripPrefix "output." placeholder).any (fun output =>
    generator.outputs.contains (String.ofList output)) ||
  (stripPrefix "env." placeholder).any (fun environment =>
    generator.environment.contains (String.ofList environment) ||
      generator.inheritEnvironment.contains (String.ofList environment)) ||
  ((stripPrefix "dependency." placeholder).bind (splitOnce '.')).any fun reference =>
    generator.dependsOn.contains (String.ofList reference.1) &&
      generators[String.ofList reference.1]?.any fun dependency =>
        dependency.outputs.contains (String.ofList reference.2)

/-- The loop of `validate_generator_template`, over what remains of the template. -/
def validateGeneratorTemplateFrom (remaining : List Char) : Except ConfigError Unit :=
  match _hdollar : splitOnce '$' remaining with
  | none => .ok ()
  | some (_, '$' :: escaped) => validateGeneratorTemplateFrom escaped
  | some (_, '{' :: expression) =>
    match _hend : splitOnce '}' expression with
    | none => .error (.validation ("generator `" ++ name ++
        "` contains an unterminated expression in `" ++ template ++ "`"))
    | some (placeholder, rest) =>
      if ¬ validExpression generator generators placeholder then
        .error (.validation ("generator `" ++ name ++ "` uses unknown expression `$\x7b" ++
          String.ofList placeholder ++ "\x7d`"))
      else if String.ofList placeholder = "input" ∧ template ≠ "${input}" then
        .error (.validation ("generator `" ++ name ++
          "` must use `${input}` as a complete argument"))
      else validateGeneratorTemplateFrom rest
  | some (_, rest) => validateGeneratorTemplateFrom rest
termination_by remaining.length
decreasing_by
  · have := Template.length_lt_of_splitOnce _hdollar
    rw [List.length_cons] at this
    omega
  · have := Template.length_lt_of_splitOnce _hdollar
    have := Template.length_lt_of_splitOnce _hend
    rw [List.length_cons] at *
    omega
  · exact Template.length_lt_of_splitOnce _hdollar

def validateGeneratorTemplate : Except ConfigError Unit :=
  validateGeneratorTemplateFrom name template generator generators template.toList

end Template

section Reading

variable {name template : String} {generator : Generator} {generators : BTreeMap Generator}

end Reading

-- One generator

/-- `byte.is_ascii_alphanumeric() || matches!(byte, b'-' | b'_')` -/
def isNameChar (c : Char) : Bool := c.isAlphanum || c = '-' || c = '_'

def validateGeneratorName (kind name : String) : Except ConfigError Unit :=
  if name ≠ "" ∧ name.toList.all isNameChar then .ok ()
  else .error (.validation (kind ++ " name `" ++ name ++
    "` must use only ASCII letters, digits, `-`, or `_`"))

def reservedVariables : List String :=
  ["PATH", "JAVA_HOME", "JMAN_JAVA_HOME", "JMAN_PROJECT_ROOT", "JMAN_MODULE_ROOT",
    "JMAN_GENERATOR_NAME"]

/-- A text with a `..` among its components. -/
def climbs (text : String) : Bool := (Paths.segments text).contains ".."

section Checks

variable (name : String) (generator : Generator) (generators : BTreeMap Generator)

def validateExecutable : Except ConfigError Unit :=
  match generator.command with
  | [] => .error (.validation ("generator `" ++ name ++
      "` command must start with a non-empty executable"))
  | executable :: _ =>
    if executable = "" then
      .error (.validation ("generator `" ++ name ++
        "` command must start with a non-empty executable"))
    else if ['$', '{'] <:+: executable.toList then
      .error (.validation ("generator `" ++ name ++ "` executable cannot contain expressions"))
    else .ok ()

def validateOutputs : Except ConfigError Unit :=
  if generator.outputs.isEmpty then
    .error (.validation ("generator `" ++ name ++ "` must declare at least one output"))
  else generator.outputs.keys.forM (validateGeneratorName "generator output")

def validateWorkingDirectory : Except ConfigError Unit :=
  if generator.workingDirectory.any fun directory =>
      Paths.isAbsolute directory || climbs directory then
    .error (.validation ("generator `" ++ name ++ "` working-directory must stay within the module"))
  else .ok ()

def validateInput (input : String) : Except ConfigError Unit :=
  if input = "" ∨ '\\' ∈ input.toList ∨ Paths.isAbsolute input ∨ climbs input then
    .error (.validation ("generator `" ++ name ++ "` input `" ++ input ++
      "` must be a module-relative `/` path"))
  else .ok ()

def validateVariable (environment : String) : Except ConfigError Unit :=
  if environment = "" ∨ '=' ∈ environment.toList ∨ '\x00' ∈ environment.toList then
    .error (.validation ("generator `" ++ name ++ "` has invalid environment variable `" ++
      environment ++ "`"))
  else if environment ∈ reservedVariables then
    .error (.validation ("generator `" ++ name ++
      "` cannot override reserved environment variable `" ++ environment ++ "`"))
  else .ok ()

def validateDependsOn (dependency : String) : Except ConfigError Unit :=
  if dependency = name then
    .error (.validation ("generator `" ++ name ++ "` cannot depend on itself"))
  else if dependency ∉ generators then
    .error (.validation ("generator `" ++ name ++ "` references undefined generator `" ++
      dependency ++ "`"))
  else .ok ()

def validateGenerator : Except ConfigError Unit := do
  validateGeneratorName "generator" name
  validateExecutable name generator
  validateOutputs name generator
  validateWorkingDirectory name generator
  generator.inputs.forM (validateInput name)
  (generator.environment.keys ++ generator.inheritEnvironment).forM (validateVariable name)
  generator.dependsOn.forM (validateDependsOn name generators)
  (generator.command ++ generator.arguments).forM fun template =>
    validateGeneratorTemplate name template generator generators

end Checks

-- All generators

/-- `generators[name].depends_on` -/
def dependenciesOf (generators : BTreeMap Generator) (name : String) : List String :=
  match generators[name]? with
  | some generator => generator.dependsOn
  | none => []

/-- The rounds of `validate_generators` leave `complete` behind. -/
def validateGenerators (generators : BTreeMap Generator) : Except ConfigError Unit := do
  generators.toList.forM fun entry => validateGenerator entry.1 entry.2 generators
  Layers.rounds (dependenciesOf generators) generators.keys (fun _ _ => .ok ())
    (fun cycle => .validation ("generator dependency cycle detected involving: " ++
      ", ".intercalate cycle)) [] ()

/-- What is accepted of a generator's command line and of its dependencies. -/
structure Accepted (generators : BTreeMap Generator) (name : String) (generator : Generator) :
    Prop where
  names : name ≠ "" ∧ name.toList.all isNameChar = true
  outputs : ∀ output ∈ generator.outputs.keys, output.toList.all isNameChar = true
  environments : ∀ environment ∈ generator.environment.keys ++ generator.inheritEnvironment,
    environment ∉ reservedVariables
  dependencies : ∀ dependency ∈ generator.dependsOn, dependency ≠ name ∧ dependency ∈ generators
  templates : ∀ template ∈ generator.command ++ generator.arguments,
    validateGeneratorTemplate name template generator generators = .ok ()

section Validated

variable {generators : BTreeMap Generator} {name : String} {generator : Generator}

theorem nameChars_of_validateGeneratorName {kind : String}
    (h : validateGeneratorName kind name = .ok ()) : name ≠ "" ∧ name.toList.all isNameChar = true := by
  unfold validateGeneratorName at h
  split at h
  · next hname => exact hname
  · cases h

theorem validateVariable_eq_ok {environment : String}
    (h : validateVariable name environment = .ok ()) : environment ∉ reservedVariables := by
  unfold validateVariable at h
  split at h
  · cases h
  split at h
  · cases h
  · next hreserved => exact hreserved

theorem validateDependsOn_eq_ok {dependency : String}
    (h : validateDependsOn name generators dependency = .ok ()) :
    dependency ≠ name ∧ dependency ∈ generators := by
  unfold validateDependsOn at h
  split at h
  · cases h
  next hself =>
  split at h
  · cases h
  · next hmem => exact ⟨hself, Classical.not_not.mp hmem⟩

theorem validateOutputs_eq_ok (h : validateOutputs name generator = .ok ()) :
    ∀ output ∈ generator.outputs.keys, output.toList.all isNameChar = true := by
  unfold validateOutputs at h
  split at h
  · cases h
  · intro output houtput
    exact (nameChars_of_validateGeneratorName (Fallible.forM_eq_ok.mp h output houtput)).2

theorem accepted_of_validateGenerator (h : validateGenerator name generator generators = .ok ()) :
    Accepted generators name generator := by
  obtain ⟨_, hname, h⟩ := Fallible.bind_eq_ok.mp h
  obtain ⟨_, -, h⟩ := Fallible.bind_eq_ok.mp h
  obtain ⟨_, houtputs, h⟩ := Fallible.bind_eq_ok.mp h
  obtain ⟨_, -, h⟩ := Fallible.bind_eq_ok.mp h
  obtain ⟨_, -, h⟩ := Fallible.bind_eq_ok.mp h
  obtain ⟨_, hvariables, h⟩ := Fallible.bind_eq_ok.mp h
  obtain ⟨_, hdependencies, htemplates⟩ := Fallible.bind_eq_ok.mp h
  refine ⟨nameChars_of_validateGeneratorName hname, validateOutputs_eq_ok houtputs, ?_, ?_, ?_⟩
  · intro environment hmem
    exact validateVariable_eq_ok (Fallible.forM_eq_ok.mp hvariables environment hmem)
  · intro dependency hmem
    exact validateDependsOn_eq_ok (Fallible.forM_eq_ok.mp hdependencies dependency hmem)
  · exact Fallible.forM_eq_ok.mp htemplates

theorem mem_dependenciesOf {dependency : String} :
    dependency ∈ dependenciesOf generators name ↔
      ∃ generator, generators[name]? = some generator ∧ dependency ∈ generator.dependsOn := by
  unfold dependenciesOf
  cases generators[name]? <;> simp

/-- **The check accepts only generators whose dependencies are declared.** -/
theorem accepted_of_validateGenerators (h : validateGenerators generators = .ok ())
    (hgenerator : generators[name]? = some generator) : Accepted generators name generator := by
  obtain ⟨_, heach, -⟩ := Fallible.bind_eq_ok.mp h
  have hmem : (name, generator) ∈ generators.toList :=
    Std.ExtTreeMap.mem_toList_iff_getElem?_eq_some.mpr hgenerator
  exact accepted_of_validateGenerator (Fallible.forM_eq_ok.mp heach _ hmem)

theorem mem_of_mem_dependenciesOf (h : validateGenerators generators = .ok ()) {dependency : String}
    (hdependency : dependency ∈ dependenciesOf generators name) : dependency ∈ generators := by
  obtain ⟨generator, hgenerator, hmem⟩ := mem_dependenciesOf.mp hdependency
  exact ((accepted_of_validateGenerators h hgenerator).dependencies dependency hmem).2

/-- **The check accepts no cycle.** -/
theorem acyclic_of_validateGenerators (h : validateGenerators generators = .ok ()) (name : String) :
    ¬ Relation.TransGen (fun a b => b ∈ dependenciesOf generators a) name name := by
  obtain ⟨_, -, hrounds⟩ := Fallible.bind_eq_ok.mp h
  have hends := Layers.rounds_ends (dependenciesOf generators) generators.keys
    (fun (_ : Unit) _ => Except.ok (ε := ConfigError) ())
    (fun cycle => .validation ("generator dependency cycle detected involving: " ++
      ", ".intercalate cycle)) ()
  rw [hrounds] at hends
  intro hcycle
  cases hends with
  | @complete layers _ hpeeled _ hall =>
    obtain ⟨dependency, hdependency, -⟩ := Relation.TransGen.head'_iff.mp hcycle
    obtain ⟨generator, hgenerator, -⟩ := mem_dependenciesOf.mp hdependency
    have hmem : name ∈ generators := Std.ExtTreeMap.mem_iff_isSome_getElem?.mpr (by rw [hgenerator]; rfl)
    exact hpeeled.ordered.acyclic (hall (Std.ExtTreeMap.mem_keys.mpr hmem)) hcycle

end Validated

end JMan.Config
