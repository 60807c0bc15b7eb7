import JMan.Config.Scripts
import JMan.Lib.OsText

/-!
# JMan — running scripts

`ScriptExecutor` of `jman-cli/src/main.rs`: `execute`, `layer_context`, `execute_shell` and
`execute_direct`. A script that is a list of steps executes them one after the other in a
context of its own, and stops at the first that fails. The names of the scripts that are
being executed are kept on a stack.

What a path leads to does not change while scripts run; whether a command succeeds depends
on what ran before it.

* `execute_runsInOrder` — when a cycle is reported, and what runs in which context.
-/

namespace JMan.Cli

open JMan.Config
open Paths (Path)
open OsText (OsString)

-- Scripts, contexts and commands
-- ---

structure ScriptExecutionContext where
  workingDirectory : Path
  environment : BTreeMap String
deriving DecidableEq

inductive LeafCommand where
  | shell (source : String)
  | direct (program : String) (arguments : List String)
deriving DecidableEq

structure LeafRun where
  name : String
  command : LeafCommand
  arguments : List OsString
  context : ScriptExecutionContext
deriving DecidableEq

inductive ScriptError where
  | cycle (names : List String)
  | undefined (name : String)
  | arguments (name : String)
  | missingDirectory (name directory source : String)
  | outsideDirectory (name directory : String)
  | noExecutable (name : String)
  /-- The command could not be started, or did not succeed. -/
  | process (name failure : String)
deriving DecidableEq

def ScriptError.text : ScriptError → String
  | .cycle names => "project script cycle detected: " ++ " -> ".intercalate names
  | .undefined name => "script `" ++ name ++ "` is not defined"
  | .arguments name => "script `" ++ name ++ "` is composed of steps and does not accept arguments"
  | .missingDirectory name directory source =>
    "script `" ++ name ++ "` working directory " ++ directory ++ " does not exist: " ++ source
  | .outsideDirectory name directory =>
    "script `" ++ name ++ "` working directory " ++ directory ++ " is outside the project or is not a directory"
  | .noExecutable name => "script `" ++ name ++ "` has no executable"
  | .process name failure => "project script `" ++ name ++ "` " ++ failure

structure ScriptExecutor where
  root : Path
  scripts : BTreeMap Script
  dryRun : Bool
  canonicalize : Path → Except String Path
  isDir : Path → Bool
  /-- How a command ends, after what ran before it. -/
  runProcess : List LeafRun → LeafRun → Except String Unit

structure RunState where
  stack : List String
  runs : List LeafRun
deriving DecidableEq

def RunState.push (state : RunState) (name : String) : RunState := { state with stack := state.stack ++ [name] }

def RunState.pop (state : RunState) : RunState := { state with stack := state.stack.dropLast }

-- Executing
-- ---

section Execute

variable (executor : ScriptExecutor)

def layerContext (name : String) (definition : ScriptDefinition) (inherited : ScriptExecutionContext) :
    Except ScriptError ScriptExecutionContext := do
  let workingDirectory ←
    match definition.workingDirectory with
    | none => .ok inherited.workingDirectory
    | some directory =>
      match executor.canonicalize (Paths.join executor.root directory) with
      | .error source => .error (.missingDirectory name directory source)
      | .ok found =>
        if ¬ executor.root <+: found ∨ executor.isDir found = false then
          .error (.outsideDirectory name (Paths.display found))
        else .ok found
  return ⟨workingDirectory, inherited.environment.insertMany definition.environment.toList⟩

/-- What `execute_shell` and `execute_direct` end in. -/
def runLeaf (leaf : LeafRun) (runs : List LeafRun) : Except ScriptError Unit × List LeafRun :=
  (if executor.dryRun then .ok () else (executor.runProcess runs leaf).mapError (.process leaf.name), runs ++ [leaf])

def RunState.leaf (state : RunState) (leaf : LeafRun) : Except ScriptError Unit × RunState :=
  let ran := runLeaf executor leaf state.runs
  (ran.1, { state with runs := ran.2 })

def executeDirect (name : String) (command : List String) (arguments : List OsString)
    (context : ScriptExecutionContext) (state : RunState) : Except ScriptError Unit × RunState :=
  match command with
  | [] => (.error (.noExecutable name), state)
  | program :: configured => state.leaf executor ⟨name, .direct program configured, arguments, context⟩

/-- The loop over the steps of a script; nothing when a call does not return. -/
def executeSteps (call : String → RunState → Option (Except ScriptError Unit × RunState)) :
    List String → RunState → Option (Except ScriptError Unit × RunState)
  | [], state => some (.ok (), state)
  | step :: steps, state =>
    match call step state with
    | none => none
    | some (.error e, state) => some (.error e, state)
    | some (.ok (), state) => executeSteps call steps state

/-- `execute`, for as many nested calls as there is fuel. An error inside of a list of steps,
or in front of it, leaves the stack as it is. -/
def execute : Nat → String → List OsString → ScriptExecutionContext → RunState →
    Option (Except ScriptError Unit × RunState)
  | 0, _, _, _, _ => none
  | fuel + 1, name, arguments, inherited, state =>
    if name ∈ state.stack then
      some (.error (.cycle (state.stack.dropWhile (· ≠ name) ++ [name])), state)
    else
      match executor.scripts[name]? with
      | none => some (.error (.undefined name), state)
      | some (.shell source) =>
        let ran := (state.push name).leaf executor ⟨name, .shell source, arguments, inherited⟩
        some (ran.1, ran.2.pop)
      | some (.structured definition) =>
        if definition.steps ≠ [] then
          if arguments ≠ [] then some (.error (.arguments name), state.push name)
          else
            match layerContext executor name definition inherited with
            | .error e => some (.error e, state.push name)
            | .ok context =>
              match executeSteps (fun step => execute fuel step [] context) definition.steps (state.push name) with
              | none => none
              | some (.error e, state) => some (.error e, state)
              | some (.ok (), state) => some (.ok (), state.pop)
        else
          match layerContext executor name definition inherited with
          | .error e => some (.error e, state.push name)
          | .ok context =>
            let ran := executeDirect executor name definition.command arguments context (state.push name)
            some (ran.1, ran.2.pop)

-- The expansion
-- ---

inductive Ending where
  | leaf (name : String) (command : LeafCommand) (arguments : List OsString)
  | stop (error : ScriptError)

/-- A path through the expansion: the scripts with a context of their own, from the root
down, and what it ends in. -/
structure Branch where
  layers : List (String × ScriptDefinition)
  ending : Ending

def Branch.under (name : String) (definition : ScriptDefinition) (branch : Branch) : Branch :=
  { branch with layers := (name, definition) :: branch.layers }

def remaining (stack : List String) : List String := executor.scripts.keys.filter (· ∉ stack)

variable {executor} in
theorem length_remaining_lt {stack : List String} {name : String} {script : Script} (hnew : name ∉ stack)
    (hscript : executor.scripts[name]? = some script) :
    (remaining executor (stack ++ [name])).length < (remaining executor stack).length := by
  have hmem : name ∈ remaining executor stack := by
    refine List.mem_filter.mpr ⟨Std.ExtTreeMap.mem_keys.mpr ?_, decide_eq_true hnew⟩
    rw [← Std.ExtTreeMap.isSome_getElem?_iff_mem, hscript]
    rfl
  have hless : remaining executor (stack ++ [name]) = (remaining executor stack).filter (· ≠ name) := by
    rw [remaining, remaining, List.filter_filter]
    refine List.filter_congr fun other _ => ?_
    rw [← Bool.decide_and, decide_eq_decide, List.mem_append, List.mem_singleton, not_or, and_comm]
  rw [hless, List.length_filter_lt_length_iff_exists]
  exact ⟨name, hmem, by simp⟩

def directEnding (name : String) (command : List String) (arguments : List OsString) : Ending :=
  match command with
  | [] => .stop (.noExecutable name)
  | program :: configured => .leaf name (.direct program configured) arguments

/-- The in-order expansion of a script, below the scripts of the stack. -/
def expand (stack : List String) (name : String) (arguments : List OsString) : List Branch :=
  if _hnew : name ∈ stack then [⟨[], .stop (.cycle (stack.dropWhile (· ≠ name) ++ [name]))⟩]
  else
    match _hscript : executor.scripts[name]? with
    | none => [⟨[], .stop (.undefined name)⟩]
    | some (.shell source) => [⟨[], .leaf name (.shell source) arguments⟩]
    | some (.structured definition) =>
      if definition.steps ≠ [] then
        if arguments ≠ [] then [⟨[], .stop (.arguments name)⟩]
        else (definition.steps.flatMap fun step => expand (stack ++ [name]) step []).map (·.under name definition)
      else [⟨[(name, definition)], directEnding name definition.command arguments⟩]
termination_by (remaining executor stack).length
decreasing_by exact length_remaining_lt _hnew _hscript

-- Running an expansion
-- ---

def Branch.context (branch : Branch) (inherited : ScriptExecutionContext) :
    Except ScriptError ScriptExecutionContext :=
  branch.layers.foldlM (fun context layer => layerContext executor layer.1 layer.2 context) inherited

def Branch.perform (branch : Branch) (inherited : ScriptExecutionContext) (runs : List LeafRun) :
    Except ScriptError Unit × List LeafRun :=
  match branch.context executor inherited with
  | .error e => (.error e, runs)
  | .ok context =>
    match branch.ending with
    | .stop e => (.error e, runs)
    | .leaf name command arguments => runLeaf executor ⟨name, command, arguments, context⟩ runs

/-- The branches one after the other, up to the first that fails. -/
def performAll (inherited : ScriptExecutionContext) : List Branch → List LeafRun →
    Except ScriptError Unit × List LeafRun
  | [], runs => (.ok (), runs)
  | branch :: branches, runs =>
    match branch.perform executor inherited runs with
    | (.error e, runs) => (.error e, runs)
    | (.ok (), runs) => performAll inherited branches runs

end Execute

section Expansion

variable {executor : ScriptExecutor} {stack : List String} {name : String} {arguments : List OsString}

theorem expand_active (h : name ∈ stack) : expand executor stack name arguments =
    [⟨[], .stop (.cycle (stack.dropWhile (· ≠ name) ++ [name]))⟩] := by
  rw [expand, dif_pos h]

theorem expand_undefined (hnew : name ∉ stack) (h : executor.scripts[name]? = none) :
    expand executor stack name arguments = [⟨[], .stop (.undefined name)⟩] := by
  rw [expand, dif_neg hnew]
  split
  · rfl
  all_goals cases h.symm.trans ‹executor.scripts[name]? = _›

theorem expand_shell {source : String} (hnew : name ∉ stack) (h : executor.scripts[name]? = some (.shell source)) :
    expand executor stack name arguments = [⟨[], .leaf name (.shell source) arguments⟩] := by
  rw [expand, dif_neg hnew]
  split
  all_goals cases h.symm.trans ‹executor.scripts[name]? = _›
  rfl

theorem expand_structured {definition : ScriptDefinition} (hnew : name ∉ stack)
    (h : executor.scripts[name]? = some (.structured definition)) : expand executor stack name arguments =
      if definition.steps ≠ [] then
        if arguments ≠ [] then [⟨[], .stop (.arguments name)⟩]
        else (definition.steps.flatMap fun step => expand executor (stack ++ [name]) step []).map
          (·.under name definition)
      else [⟨[(name, definition)], directEnding name definition.command arguments⟩] := by
  rw [expand, dif_neg hnew]
  split
  all_goals cases h.symm.trans ‹executor.scripts[name]? = _›
  rfl

end Expansion

-- Executing is running the expansion
-- ---

section Runs

variable {executor : ScriptExecutor} {inherited context : ScriptExecutionContext} {name : String}
variable {definition : ScriptDefinition}

theorem performAll_append (branches rest : List Branch) (runs : List LeafRun) :
    performAll executor inherited (branches ++ rest) runs =
      match performAll executor inherited branches runs with
      | (.error e, runs) => (.error e, runs)
      | (.ok (), runs) => performAll executor inherited rest runs := by
  induction branches generalizing runs with
  | nil => rfl
  | cons branch branches ih =>
    simp only [List.cons_append, performAll]
    cases hperform : branch.perform executor inherited runs with
    | mk result runs' =>
      cases result with
      | error e => rfl
      | ok _ => exact ih runs'

theorem performAll_under (hcontext : layerContext executor name definition inherited = .ok context)
    (branches : List Branch) (runs : List LeafRun) :
    performAll executor inherited (branches.map (·.under name definition)) runs =
      performAll executor context branches runs := by
  induction branches generalizing runs with
  | nil => rfl
  | cons branch branches ih =>
    have hbranch : (branch.under name definition).perform executor inherited runs =
        branch.perform executor context runs := by
      rw [Branch.perform, Branch.perform, Branch.context, Branch.under, List.foldlM_cons, hcontext]
      rfl
    simp only [List.map_cons, performAll, hbranch, ih]

theorem performAll_refused {e : ScriptError} (hcontext : layerContext executor name definition inherited = .error e)
    {branches : List Branch} (hne : branches ≠ []) (runs : List LeafRun) :
    performAll executor inherited (branches.map (·.under name definition)) runs = (.error e, runs) := by
  obtain ⟨branch, rest, rfl⟩ := List.exists_cons_of_ne_nil hne
  have hbranch : (branch.under name definition).perform executor inherited runs = (.error e, runs) := by
    rw [Branch.perform, Branch.context, Branch.under, List.foldlM_cons, hcontext]
    rfl
  rw [List.map_cons, performAll, hbranch]

theorem expand_ne_nil (stack : List String) (name : String) (arguments : List OsString) :
    expand executor stack name arguments ≠ [] := by
  induction hlength : (remaining executor stack).length using Nat.strong_induction_on
    generalizing stack name arguments with
  | _ length ih =>
    by_cases hnew : name ∈ stack
    · rw [expand_active hnew]
      exact List.cons_ne_nil _ _
    cases hscript : executor.scripts[name]? with
    | none =>
      rw [expand_undefined hnew hscript]
      exact List.cons_ne_nil _ _
    | some script =>
      cases script with
      | shell source =>
        rw [expand_shell hnew hscript]
        exact List.cons_ne_nil _ _
      | structured definition =>
        rw [expand_structured hnew hscript]
        split_ifs with hsteps
        · exact List.cons_ne_nil _ _
        · -- the first step has a branch
          obtain ⟨step, rest, hcons⟩ := List.exists_cons_of_ne_nil hsteps
          have hstep := ih _ (hlength ▸ length_remaining_lt hnew hscript) (stack ++ [name]) step [] rfl
          rw [hcons, List.flatMap_cons, List.map_append]
          exact List.append_ne_nil_of_left_ne_nil (mt List.map_eq_nil_iff.mp hstep) _
        · exact List.cons_ne_nil _ _

/-- The result of an execution is what running these branches results in; after a success the
stack is as it was. -/
def Agrees (stack : List String) (ran : Except ScriptError Unit × List LeafRun)
    (executed : Option (Except ScriptError Unit × RunState)) : Prop :=
  ∃ stack', executed = some (ran.1, ⟨stack', ran.2⟩) ∧ (ran.1 = .ok () → stack' = stack)

theorem executeSteps_agrees {call : String → RunState → Option (Except ScriptError Unit × RunState)}
    {stack : List String} {branches : String → List Branch}
    (hcall : ∀ step runs, Agrees stack (performAll executor context (branches step) runs) (call step ⟨stack, runs⟩))
    (steps : List String) (runs : List LeafRun) :
    Agrees stack (performAll executor context (steps.flatMap branches) runs) (executeSteps call steps ⟨stack, runs⟩) := by
  induction steps generalizing runs with
  | nil => exact ⟨stack, rfl, fun _ => rfl⟩
  | cons step steps ih =>
    obtain ⟨stack', hstep, hstack⟩ := hcall step runs
    rw [List.flatMap_cons, performAll_append, executeSteps, hstep]
    cases hperform : performAll executor context (branches step) runs with
    | mk result runs' =>
      rw [hperform] at hstack
      cases result with
      | error e => exact ⟨stack', rfl, fun h => by cases h⟩
      | ok _ =>
        rw [hstack rfl]
        exact ih runs'

theorem performAll_one (branch : Branch) (runs : List LeafRun) :
    performAll executor inherited [branch] runs = branch.perform executor inherited runs := by
  rw [performAll]
  cases branch.perform executor inherited runs with
  | mk result runs' => cases result <;> rfl

theorem executeDirect_agrees (stack : List String) (command : List String) (arguments : List OsString)
    (hcontext : layerContext executor name definition inherited = .ok context) (runs : List LeafRun) :
    Agrees stack (performAll executor inherited [⟨[(name, definition)], directEnding name command arguments⟩] runs)
      (some ((executeDirect executor name command arguments context ⟨stack ++ [name], runs⟩).1,
        (executeDirect executor name command arguments context ⟨stack ++ [name], runs⟩).2.pop)) := by
  have hlayers : (⟨[(name, definition)], directEnding name command arguments⟩ : Branch).context executor inherited =
      .ok context := by
    rw [Branch.context, List.foldlM_cons, hcontext]
    rfl
  rw [performAll_one, Branch.perform, hlayers]
  cases command with
  | nil => exact ⟨_, rfl, fun h => by cases h⟩
  | cons program configured => exact ⟨_, rfl, fun _ => List.dropLast_concat⟩

theorem expandSteps_ne_nil {stack steps : List String} (h : steps ≠ []) :
    (steps.flatMap fun step => expand executor stack step []) ≠ [] := by
  obtain ⟨step, rest, rfl⟩ := List.exists_cons_of_ne_nil h
  exact List.append_ne_nil_of_left_ne_nil (expand_ne_nil _ _ _) _

/-- **An execution runs the branches of the expansion in their order.** -/
theorem execute_agrees (fuel : Nat) (name : String) (arguments : List OsString) (inherited : ScriptExecutionContext)
    (stack : List String) (runs : List LeafRun) (hfuel : (remaining executor stack).length < fuel) :
    Agrees stack (performAll executor inherited (expand executor stack name arguments) runs)
      (execute executor fuel name arguments inherited ⟨stack, runs⟩) := by
  induction fuel generalizing name arguments inherited stack runs with
  | zero => exact absurd hfuel (Nat.not_lt_zero _)
  | succ fuel ih =>
    rw [execute]
    by_cases hnew : name ∈ stack
    · rw [if_pos hnew, expand_active hnew]
      exact ⟨stack, rfl, fun h => by cases h⟩
    rw [if_neg hnew]
    cases hscript : executor.scripts[name]? with
    | none =>
      rw [expand_undefined hnew hscript]
      exact ⟨stack, rfl, fun h => by cases h⟩
    | some script =>
      cases script with
      | shell source =>
        rw [expand_shell hnew hscript, performAll_one]
        exact ⟨_, rfl, fun _ => List.dropLast_concat⟩
      | structured definition =>
        rw [expand_structured hnew hscript]
        simp only
        by_cases hsteps : definition.steps ≠ []
        · rw [if_pos hsteps, if_pos hsteps]
          by_cases harguments : arguments ≠ []
          · rw [if_pos harguments, if_pos harguments]
            exact ⟨_, rfl, fun h => by cases h⟩
          rw [if_neg harguments, if_neg harguments]
          cases hcontext : layerContext executor name definition inherited with
          | error e =>
            rw [performAll_refused hcontext (expandSteps_ne_nil hsteps)]
            exact ⟨_, rfl, fun h => by cases h⟩
          | ok context =>
            rw [performAll_under hcontext]
            have hless : (remaining executor (stack ++ [name])).length < fuel :=
              Nat.lt_of_lt_of_le (length_remaining_lt hnew hscript) (Nat.le_of_lt_succ hfuel)
            have hloop := @executeSteps_agrees executor context _ _ _
              (fun step runs => ih step [] context (stack ++ [name]) runs hless) definition.steps runs
            obtain ⟨stack', hexecuted, hstack⟩ := hloop
            simp only [RunState.push, hexecuted]
            cases hperform : performAll executor context
              (definition.steps.flatMap fun step => expand executor (stack ++ [name]) step []) runs with
            | mk result runs' =>
              rw [hperform] at hstack
              cases result with
              | error e => exact ⟨stack', rfl, fun h => by cases h⟩
              | ok _ =>
                rw [hstack rfl]
                exact ⟨_, rfl, fun _ => List.dropLast_concat⟩
        · rw [if_neg hsteps, if_neg hsteps]
          cases hcontext : layerContext executor name definition inherited with
          | error e =>
            have hlayers : (⟨[(name, definition)], directEnding name definition.command arguments⟩ : Branch).context
                executor inherited = .error e := by
              rw [Branch.context, List.foldlM_cons, hcontext]
              rfl
            rw [performAll_one, Branch.perform, hlayers]
            exact ⟨_, rfl, fun h => by cases h⟩
          | ok context => exact executeDirect_agrees stack definition.command arguments hcontext runs

-- What runs, and what is reported
-- ---

/-- The command of a branch, in the context that its layers fold to. -/
def Branch.RunsAs (executor : ScriptExecutor) (inherited : ScriptExecutionContext) (branch : Branch)
    (leaf : LeafRun) : Prop :=
  branch.ending = .leaf leaf.name leaf.command leaf.arguments ∧
    branch.context executor inherited = .ok leaf.context

/-- The commands of these branches run after others, and all of them succeed. -/
structure Succeeded (executor : ScriptExecutor) (inherited : ScriptExecutionContext) (before : List LeafRun)
    (branches : List Branch) (runs : List LeafRun) : Prop where
  order : List.Forall₂ (Branch.RunsAs executor inherited) branches runs
  success : ∀ earlier leaf later, runs = earlier ++ leaf :: later → (runLeaf executor leaf (before ++ earlier)).1 = .ok ()

/-- How a branch fails after certain commands: its context is refused, it cannot be expanded,
or its command fails. -/
inductive Branch.FailsAfter (executor : ScriptExecutor) (inherited : ScriptExecutionContext) (branch : Branch)
    (ran : List LeafRun) : ScriptError → List LeafRun → Prop
  | refused {e : ScriptError} (h : branch.context executor inherited = .error e) : FailsAfter executor inherited branch ran e ran
  | stopped {e : ScriptError} {context : ScriptExecutionContext} (hcontext : branch.context executor inherited = .ok context)
      (h : branch.ending = .stop e) : FailsAfter executor inherited branch ran e ran
  | failed {leaf : LeafRun} {failure : String} (hleaf : branch.RunsAs executor inherited leaf)
      (hrun : executor.dryRun = false) (h : executor.runProcess ran leaf = .error failure) :
      FailsAfter executor inherited branch ran (.process leaf.name failure) (ran ++ [leaf])

theorem perform_eq_ok {branch : Branch} {runs runs' : List LeafRun} :
    branch.perform executor inherited runs = (.ok (), runs') ↔
      ∃ leaf, branch.RunsAs executor inherited leaf ∧ (runLeaf executor leaf runs).1 = .ok () ∧
        runs' = runs ++ [leaf] := by
  rw [Branch.perform]
  cases hcontext : branch.context executor inherited with
  | error e => simp [Branch.RunsAs, hcontext]
  | ok context =>
    cases hending : branch.ending with
    | stop e => simp [Branch.RunsAs, hending]
    | leaf name command arguments =>
      constructor
      · intro h
        refine ⟨⟨name, command, arguments, context⟩, ⟨hending, hcontext⟩, congrArg Prod.fst h, ?_⟩
        exact (congrArg Prod.snd h).symm
      · rintro ⟨leaf, ⟨hleaf, hfolded⟩, hok, rfl⟩
        cases hending.symm.trans hleaf
        cases hcontext.symm.trans hfolded
        exact Prod.ext hok rfl

theorem perform_eq_error {branch : Branch} {runs runs' : List LeafRun} {e : ScriptError} :
    branch.perform executor inherited runs = (.error e, runs') ↔
      branch.FailsAfter executor inherited runs e runs' := by
  rw [Branch.perform]
  cases hcontext : branch.context executor inherited with
  | error e' =>
    constructor
    · intro h
      cases h
      exact .refused hcontext
    · intro h
      cases h with
      | refused h => cases hcontext.symm.trans h; rfl
      | stopped h _ => cases hcontext.symm.trans h
      | failed hleaf _ _ => cases hcontext.symm.trans hleaf.2
  | ok context =>
    cases hending : branch.ending with
    | stop e' =>
      constructor
      · intro h
        cases h
        exact .stopped hcontext hending
      · intro h
        cases h with
        | refused h => cases hcontext.symm.trans h
        | stopped _ h => cases hending.symm.trans h; rfl
        | failed hleaf _ _ => cases hending.symm.trans hleaf.1
    | leaf name command arguments =>
      constructor
      · intro h
        have hrest : runs ++ [_] = runs' := congrArg Prod.snd h
        have hresult : (runLeaf executor ⟨name, command, arguments, context⟩ runs).1 = .error e := congrArg Prod.fst h
        rw [runLeaf] at hresult
        cases hdry : executor.dryRun with
        | true =>
          rw [hdry] at hresult
          cases hresult
        | false =>
          rw [hdry] at hresult
          cases hprocess : executor.runProcess runs ⟨name, command, arguments, context⟩ with
          | ok _ =>
            rw [hprocess] at hresult
            cases hresult
          | error failure =>
            rw [hprocess] at hresult
            cases hresult
            rw [← hrest]
            exact .failed ⟨hending, hcontext⟩ hdry hprocess
      · intro h
        cases h with
        | refused h => cases hcontext.symm.trans h
        | stopped _ h => cases hending.symm.trans h
        | @failed leaf failure hleaf hdry h =>
          cases hending.symm.trans hleaf.1
          cases hcontext.symm.trans hleaf.2
          simp only [runLeaf, hdry, h]
          rfl

theorem performAll_cons_eq_ok {branch : Branch} {branches : List Branch} {runs runs' : List LeafRun} :
    performAll executor inherited (branch :: branches) runs = (.ok (), runs') ↔
      ∃ mid, branch.perform executor inherited runs = (.ok (), mid) ∧
        performAll executor inherited branches mid = (.ok (), runs') := by
  rw [performAll]
  rcases branch.perform executor inherited runs with ⟨result, mid⟩
  cases result with
  | error e => simp
  | ok _ => simp

theorem performAll_eq_ok {branches : List Branch} {runs runs' : List LeafRun} :
    performAll executor inherited branches runs = (.ok (), runs') ↔
      ∃ new, Succeeded executor inherited runs branches new ∧ runs' = runs ++ new := by
  induction branches generalizing runs with
  | nil =>
    constructor
    · intro h
      cases h
      exact ⟨[], ⟨.nil, fun _ _ _ h => absurd h.symm (List.append_ne_nil_of_right_ne_nil _ (List.cons_ne_nil _ _))⟩,
        (List.append_nil _).symm⟩
    · rintro ⟨new, ⟨hforall, -⟩, rfl⟩
      cases hforall
      rw [List.append_nil]
      rfl
  | cons branch branches ih =>
    rw [performAll_cons_eq_ok]
    constructor
    · rintro ⟨mid, hbranch, hrest⟩
      obtain ⟨leaf, hleaf, hok, rfl⟩ := perform_eq_ok.mp hbranch
      obtain ⟨new, ⟨horder, hsuccess⟩, rfl⟩ := ih.mp hrest
      refine ⟨leaf :: new, ⟨.cons hleaf horder, ?_⟩, List.append_assoc ..⟩
      intro earlier other later hsplit
      cases earlier with
      | nil =>
        obtain ⟨rfl, -⟩ := List.cons.inj hsplit
        rwa [List.append_nil]
      | cons first earlier =>
        obtain ⟨rfl, htail⟩ := List.cons.inj hsplit
        have hlater := hsuccess earlier other later htail
        rwa [List.append_assoc] at hlater
    · rintro ⟨new, ⟨horder, hsuccess⟩, rfl⟩
      cases horder with
      | @cons _ leaf _ new hleaf horder =>
        refine ⟨runs ++ [leaf], perform_eq_ok.mpr ⟨leaf, hleaf, ?_, rfl⟩, ih.mpr ⟨new, ⟨horder, ?_⟩, ?_⟩⟩
        · have hfirst := hsuccess [] leaf new rfl
          rwa [List.append_nil] at hfirst
        · intro earlier other later hsplit
          have hlater := hsuccess (leaf :: earlier) other later (congrArg (leaf :: ·) hsplit)
          rwa [List.append_assoc]
        · exact List.append_cons ..

theorem performAll_eq_error {branches : List Branch} {runs runs' : List LeafRun} {e : ScriptError} :
    performAll executor inherited branches runs = (.error e, runs') ↔
      ∃ before branch after ran, branches = before ++ branch :: after ∧
        performAll executor inherited before runs = (.ok (), ran) ∧
          branch.perform executor inherited ran = (.error e, runs') := by
  induction branches generalizing runs with
  | nil =>
    refine ⟨fun h => (by cases h), ?_⟩
    rintro ⟨before, branch, after, ran, hsplit, -⟩
    exact absurd hsplit.symm (List.append_ne_nil_of_right_ne_nil _ (List.cons_ne_nil _ _))
  | cons first branches ih =>
    rw [performAll]
    cases hfirst : first.perform executor inherited runs with
    | mk result mid =>
      cases result with
      | error e' =>
        constructor
        · intro h
          exact ⟨[], first, branches, runs, rfl, rfl, hfirst.trans h⟩
        · rintro ⟨before, branch, after, ran, hsplit, hbefore, hbranch⟩
          cases before with
          | nil =>
            obtain ⟨rfl, -⟩ := List.cons.inj hsplit
            cases hbefore
            exact hfirst.symm.trans hbranch
          | cons _ before =>
            obtain ⟨rfl, -⟩ := List.cons.inj hsplit
            obtain ⟨mid', hok, -⟩ := performAll_cons_eq_ok.mp hbefore
            cases hfirst.symm.trans hok
      | ok _ =>
        refine (@ih mid).trans ⟨?_, ?_⟩
        · rintro ⟨before, branch, after, ran, rfl, hbefore, hbranch⟩
          exact ⟨first :: before, branch, after, ran, rfl, performAll_cons_eq_ok.mpr ⟨mid, hfirst, hbefore⟩, hbranch⟩
        · rintro ⟨before, branch, after, ran, hsplit, hbefore, hbranch⟩
          cases before with
          | nil =>
            obtain ⟨rfl, -⟩ := List.cons.inj hsplit
            cases hbefore
            cases hfirst.symm.trans hbranch
          | cons _ before =>
            obtain ⟨rfl, htail⟩ := List.cons.inj hsplit
            obtain ⟨mid', hok, hrest⟩ := performAll_cons_eq_ok.mp hbefore
            cases hfirst.symm.trans hok
            exact ⟨before, branch, after, ran, htail, hrest, hbranch⟩

-- Cycles
-- ---

/-- What the branches of the scripts that are accepted end in. -/
def Ending.Expected (name : String) (arguments : List OsString) : Ending → Prop
  | .leaf _ _ _ => True
  | .stop e => (∃ names, e = .cycle names) ∨ (e = .arguments name ∧ arguments ≠ [])

theorem layerContext_ne_cycle {e : ScriptError} (h : layerContext executor name definition inherited = .error e)
    (names : List String) : e ≠ .cycle names := by
  rintro rfl
  unfold layerContext at h
  cases hdirectory : definition.workingDirectory with
  | none =>
    rw [hdirectory] at h
    cases h
  | some directory =>
    rw [hdirectory] at h
    simp only at h
    split at h
    · cases h
    · split at h <;> cases h

theorem context_ne_cycle {branch : Branch} {e : ScriptError} (h : branch.context executor inherited = .error e)
    (names : List String) : e ≠ .cycle names := by
  unfold Branch.context at h
  generalize branch.layers = layers at h
  induction layers generalizing inherited with
  | nil => cases h
  | cons layer layers ih =>
    rw [List.foldlM_cons] at h
    cases hlayer : layerContext executor layer.1 layer.2 inherited with
    | error e' =>
      rw [hlayer] at h
      cases h
      exact layerContext_ne_cycle hlayer names
    | ok context =>
      rw [hlayer] at h
      exact ih h

/-- **The branches of accepted scripts end in commands and cycles.** -/
theorem expected_of_validateScripts (hvalid : validateScripts executor.scripts = .ok ()) (stack : List String)
    (arguments : List OsString) (hname : name ∈ executor.scripts) :
    ∀ branch ∈ expand executor stack name arguments, branch.ending.Expected name arguments := by
  induction hlength : (remaining executor stack).length using Nat.strong_induction_on
    generalizing stack name arguments with
  | _ length ih =>
    by_cases hnew : name ∈ stack
    · rw [expand_active hnew, List.forall_mem_singleton]
      exact .inl ⟨_, rfl⟩
    obtain ⟨script, hscript⟩ := Option.isSome_iff_exists.mp (Std.ExtTreeMap.isSome_getElem?_iff_mem.mpr hname)
    cases script with
    | shell source =>
      rw [expand_shell hnew hscript, List.forall_mem_singleton]
      trivial
    | structured definition =>
      obtain ⟨hone, hdeclared⟩ := accepted_of_validateScripts hvalid hscript
      rw [expand_structured hnew hscript]
      split_ifs with hsteps harguments
      · rw [List.forall_mem_singleton]
        exact .inr ⟨rfl, harguments⟩
      · intro branch hbranch
        obtain ⟨below, hbelow, rfl⟩ := List.mem_map.mp hbranch
        obtain ⟨step, hstep, hbelow⟩ := List.mem_flatMap.mp hbelow
        have hexpected := ih _ (hlength ▸ length_remaining_lt hnew hscript) (stack ++ [name]) []
          (hdeclared step hstep) rfl below hbelow
        rw [Branch.under]
        cases hending : below.ending with
        | leaf _ _ _ => trivial
        | stop e =>
          rw [hending] at hexpected
          obtain hcycle | ⟨-, hnil⟩ := hexpected
          · exact .inl hcycle
          · exact absurd rfl hnil
      · rw [List.forall_mem_singleton]
        have hempty : definition.steps = [] := Classical.not_not.mp hsteps
        cases hcommand : definition.command with
        | nil =>
          rw [hcommand, hempty] at hone
          exact absurd rfl hone
        | cons program configured => trivial

/-- What an execution does with the branches of the expansion. -/
structure RunsInOrder (executor : ScriptExecutor) (inherited : ScriptExecutionContext) (branches : List Branch)
    (result : Except ScriptError Unit) (runs : List LeafRun) : Prop where
  /-- Commands run in the order of the expansion, each in the context that its layers fold to. -/
  order : ∃ before after, branches = before ++ after ∧ List.Forall₂ (Branch.RunsAs executor inherited) before runs
  complete : result = .ok () ↔ Succeeded executor inherited [] branches runs
  cycle : ∀ names, result = .error (.cycle names) ↔ ∃ before branch after context,
    branches = before ++ branch :: after ∧ Succeeded executor inherited [] before runs ∧
      branch.context executor inherited = .ok context ∧ branch.ending = .stop (.cycle names)
  failure : ∀ e, result = .error e ↔ ∃ before branch after ran, branches = before ++ branch :: after ∧
    Succeeded executor inherited [] before ran ∧ branch.FailsAfter executor inherited ran e runs

theorem succeeded_iff {branches : List Branch} {runs : List LeafRun} :
    Succeeded executor inherited [] branches runs ↔ performAll executor inherited branches [] = (.ok (), runs) := by
  rw [performAll_eq_ok]
  simp

theorem failure_iff {branches : List Branch} {runs : List LeafRun} {e : ScriptError} :
    performAll executor inherited branches [] = (.error e, runs) ↔
      ∃ before branch after ran, branches = before ++ branch :: after ∧
        Succeeded executor inherited [] before ran ∧ branch.FailsAfter executor inherited ran e runs := by
  simp only [performAll_eq_error, succeeded_iff, perform_eq_error]

theorem runsInOrder_performAll (branches : List Branch) : RunsInOrder executor inherited branches
    (performAll executor inherited branches []).1 (performAll executor inherited branches []).2 := by
  obtain ⟨result, runs, hrun⟩ : ∃ result runs, performAll executor inherited branches [] = (result, runs) := ⟨_, _, rfl⟩
  rw [hrun]
  have hfailure (e : ScriptError) : result = .error e ↔ ∃ before branch after ran, branches = before ++ branch :: after ∧
      Succeeded executor inherited [] before ran ∧ branch.FailsAfter executor inherited ran e runs := by
    rw [← failure_iff, hrun]
    exact ⟨fun h => Prod.ext h rfl, fun h => congrArg Prod.fst h⟩
  refine ⟨?_, ?_, fun names => ?_, hfailure⟩
  · cases hresult : result with
    | ok _ =>
      rw [hresult] at hrun
      exact ⟨branches, [], (List.append_nil _).symm, (succeeded_iff.mpr hrun).order⟩
    | error e =>
      obtain ⟨before, branch, after, ran, rfl, ⟨horder, -⟩, hfails⟩ := (hfailure e).mp hresult
      cases hfails with
      | refused _ => exact ⟨before, branch :: after, rfl, horder⟩
      | stopped _ _ => exact ⟨before, branch :: after, rfl, horder⟩
      | failed hleaf _ _ =>
        exact ⟨before ++ [branch], after, List.append_cons .., List.rel_append horder (.cons hleaf .nil)⟩
  · rw [succeeded_iff, hrun]
    exact ⟨fun h => Prod.ext h rfl, fun h => congrArg Prod.fst h⟩
  · rw [hfailure]
    constructor
    · rintro ⟨before, branch, after, ran, hsplit, hbefore, hfails⟩
      cases hfails with
      | refused h => exact absurd rfl (context_ne_cycle h names)
      | @stopped _ context hcontext h => exact ⟨before, branch, after, context, hsplit, hbefore, hcontext, h⟩
    · rintro ⟨before, branch, after, context, hsplit, hbefore, hcontext, h⟩
      exact ⟨before, branch, after, runs, hsplit, hbefore, .stopped hcontext h⟩

/-- **Executing a script that is accepted** returns, runs the branches of its expansion in
their order and stops at the first that fails. -/
theorem execute_runsInOrder (executor : ScriptExecutor) (inherited : ScriptExecutionContext) (name : String)
    (arguments : List OsString) (hvalid : validateScripts executor.scripts = .ok ()) (hname : name ∈ executor.scripts) :
    (∀ branch ∈ expand executor [] name arguments, branch.ending.Expected name arguments) ∧
      ∃ fuel, ∀ more ≥ fuel, ∃ result state, execute executor more name arguments inherited ⟨[], []⟩ = some (result, state) ∧
        RunsInOrder executor inherited (expand executor [] name arguments) result state.runs := by
  refine ⟨expected_of_validateScripts hvalid [] arguments hname, (remaining executor []).length + 1, fun more hmore => ?_⟩
  obtain ⟨stack, hexecuted, -⟩ := execute_agrees more name arguments inherited [] [] (Nat.lt_of_succ_le hmore)
  exact ⟨_, _, hexecuted, runsInOrder_performAll _⟩

end Runs

-- A step that fails
-- ---

def bothSteps : ScriptDefinition := { steps := ["lint", "test"] }

def failingExecutor : ScriptExecutor where
  root := ["project"]
  scripts := .ofList [("check", Script.structured bothSteps), ("lint", Script.shell "false"), ("test", Script.shell "true")]
  dryRun := false
  canonicalize := .ok
  isDir _ := true
  runProcess _ leaf := if leaf.name = "lint" then .error "exited with exit status: 1" else .ok ()

def rootContext : ScriptExecutionContext := ⟨["project"], ∅⟩

theorem failingExecutor_valid : validateScripts failingExecutor.scripts = .ok () :=
  Fallible.eq_ok_of_toOption (by decide +kernel)

theorem failingExecutor_check : failingExecutor.scripts["check"]? = some (.structured bothSteps) := by decide +kernel

theorem failingExecutor_expand : expand failingExecutor [] "check" [] =
    [⟨[("check", bothSteps)], .leaf "lint" (.shell "false") []⟩,
      ⟨[("check", bothSteps)], .leaf "test" (.shell "true") []⟩] := by
  have hlint : failingExecutor.scripts["lint"]? = some (.shell "false") := by decide +kernel
  have htest : failingExecutor.scripts["test"]? = some (.shell "true") := by decide +kernel
  rw [expand_structured List.not_mem_nil failingExecutor_check, if_pos (by decide), if_neg (by decide)]
  show (expand failingExecutor ["check"] "lint" [] ++ (expand failingExecutor ["check"] "test" [] ++ [])).map _ = _
  rw [expand_shell (by decide) hlint, expand_shell (by decide) htest]
  rfl

theorem check_runs_in_order : ∃ fuel, ∀ more ≥ fuel, ∃ result state,
    execute failingExecutor more "check" [] rootContext ⟨[], []⟩ = some (result, state) ∧
      RunsInOrder failingExecutor rootContext (expand failingExecutor [] "check" []) result state.runs := by
  have hname : "check" ∈ failingExecutor.scripts := by
    rw [← Std.ExtTreeMap.isSome_getElem?_iff_mem, failingExecutor_check]
    rfl
  exact (execute_runsInOrder failingExecutor rootContext "check" [] failingExecutor_valid hname).2

theorem failing_step_ends_run :
    (∀ branch ∈ expand failingExecutor [] "check" [], ∀ names, branch.ending ≠ .stop (.cycle names)) ∧
      ∃ result state, execute failingExecutor 2 "check" [] rootContext ⟨[], []⟩ = some (result, state) ∧
        ¬ List.Forall₂ (Branch.RunsAs failingExecutor rootContext) (expand failingExecutor [] "check" []) state.runs := by
  rw [failingExecutor_expand]
  refine ⟨?_, ?_⟩
  · intro branch hbranch names hending
    obtain rfl | rfl := List.mem_pair.mp hbranch
    · cases hending
    · cases hending
  · have hruns : (execute failingExecutor 2 "check" [] rootContext ⟨[], []⟩).map (·.2.runs.length) = some 1 := by
      decide +kernel
    obtain ⟨⟨result, state⟩, hexecuted, hlength⟩ := Option.map_eq_some_iff.mp hruns
    refine ⟨result, state, hexecuted, fun hall => ?_⟩
    exact absurd (hall.length_eq.trans hlength) (by decide)

end JMan.Cli
