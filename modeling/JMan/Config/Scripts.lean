import JMan.Config.Generators

/-!
# JMan — scripts

The `scripts` of a manifest, which a `Manifest` carries as text, and the check
`jman-config/src/lib.rs` makes of them: `validate_scripts`. A script is a text for a shell,
a command with its arguments, or a list of steps, which are scripts. The check does not
look for cycles.

* `accepted_of_validateScripts` — what is accepted of a script.
-/

namespace JMan.Config

structure ScriptDefinition where
  description : Option String := none
  command : List String := []
  steps : List String := []
  workingDirectory : Option String := none
  environment : BTreeMap String := ∅
deriving DecidableEq

inductive Script where
  | shell (command : String)
  | structured (definition : ScriptDefinition)
deriving DecidableEq

def isControl (c : Char) : Bool := c.toNat < 32 || (127 ≤ c.toNat && c.toNat < 160)

-- The checks

section Checks

variable (name : String)

def validateScriptName : Except ConfigError Unit :=
  if name = "" ∨ name.toList.any (fun c => isControl c || whiteSpace c) = true then
    .error (.validation ("script name `" ++ name ++ "` must be non-empty and contain no whitespace"))
  else .ok ()

def validateDefinition (script : ScriptDefinition) : Except ConfigError Unit :=
  if script.command.isEmpty = script.steps.isEmpty then
    .error (.validation ("script `" ++ name ++ "` must define exactly one of `command` or `steps`"))
  else if script.command.head? = some "" then
    .error (.validation ("script `" ++ name ++ "` executable cannot be empty"))
  else if "" ∈ script.steps then
    .error (.validation ("script `" ++ name ++ "` contains an empty step"))
  else if script.description.any isBlank then
    .error (.validation ("script `" ++ name ++ "` description cannot be empty"))
  else if script.workingDirectory.any fun directory => Paths.isAbsolute directory || climbs directory then
    .error (.validation ("script `" ++ name ++ "` working-directory must stay within the project"))
  else
    match script.environment.keys.find? fun key =>
        key = "" || '=' ∈ key.toList || '\x00' ∈ key.toList with
    | some key =>
      .error (.validation ("script `" ++ name ++ "` has invalid environment variable `" ++ key ++ "`"))
    | none => .ok ()

def validateScript (script : Script) : Except ConfigError Unit := do
  validateScriptName name
  match script with
  | .shell command =>
    if isBlank command then .error (.validation ("script `" ++ name ++ "` command cannot be empty")) else .ok ()
  | .structured definition => validateDefinition name definition

def validateStep (scripts : BTreeMap Script) (step : String) : Except ConfigError Unit :=
  if step ∉ scripts then
    .error (.validation ("script `" ++ name ++ "` references undefined step `" ++ step ++ "`"))
  else .ok ()

end Checks

/-- The steps of a script; a text for a shell has none. -/
def Script.steps : Script → List String
  | .shell _ => []
  | .structured definition => definition.steps

def validateScripts (scripts : BTreeMap Script) : Except ConfigError Unit := do
  scripts.toList.forM fun entry => validateScript entry.1 entry.2
  scripts.toList.forM fun entry => entry.2.steps.forM (validateStep entry.1 scripts)

-- What is accepted

variable {scripts : BTreeMap Script} {name : String} {definition : ScriptDefinition}

theorem validateDefinition_eq_ok (h : validateDefinition name definition = .ok ()) :
    definition.command.isEmpty ≠ definition.steps.isEmpty := by
  unfold validateDefinition at h
  split at h
  · cases h
  · assumption

theorem validateStep_eq_ok {step : String} (h : validateStep name scripts step = .ok ()) : step ∈ scripts := by
  unfold validateStep at h
  split at h
  · cases h
  · exact Classical.not_not.mp ‹_›

/-- **What is accepted of a script**: it has a command or steps, and the steps are scripts. -/
theorem accepted_of_validateScripts (h : validateScripts scripts = .ok ())
    (hscript : scripts[name]? = some (.structured definition)) :
    definition.command.isEmpty ≠ definition.steps.isEmpty ∧ ∀ step ∈ definition.steps, step ∈ scripts := by
  obtain ⟨_, heach, hsteps⟩ := Fallible.bind_eq_ok.mp h
  have hmem : (name, Script.structured definition) ∈ scripts.toList :=
    Std.ExtTreeMap.mem_toList_iff_getElem?_eq_some.mpr hscript
  obtain ⟨_, -, hdefinition⟩ := Fallible.bind_eq_ok.mp (Fallible.forM_eq_ok.mp heach _ hmem)
  refine ⟨validateDefinition_eq_ok hdefinition, fun step hstep => ?_⟩
  exact validateStep_eq_ok (Fallible.forM_eq_ok.mp (Fallible.forM_eq_ok.mp hsteps _ hmem) step hstep)

end JMan.Config
