import Mathlib
import JMan.Cli.Workspace
import JMan.Lib.Faults

/-!
# JMan — the global Java

`select_global_java` of `jman-cli/src/main.rs`, with `replace_symlink`, `write_user_config`
and `read_user_config` and `user_config_toml` of `jman-build/src/toolchain.rs`. The link to
the current JDK is moved before the configuration is read, rendered and written. Only where
the writing fails is the link put back.

* `selectGlobalJava_atomic_iff` — when a failure leaves the link and the configuration
  as they were, and a success has both name one installation.
-/

namespace JMan.Cli

open Paths (Path)
open FileStore

-- The configuration and the link
-- ---

structure GlobalJavaSelection where
  jdk : String
  vendor : String
deriving DecidableEq

structure JavaSelections where
  global : Option GlobalJavaSelection := none
deriving DecidableEq

structure UserJavaConfig where
  java : JavaSelections := {}
deriving DecidableEq

/-- `toml`, as far as it is used here: a configuration that is written is read again. -/
structure UserConfigFormat where
  parse : String → Except String UserJavaConfig
  toStringPretty : UserJavaConfig → Except String String
  parse_toStringPretty : ∀ {config text}, toStringPretty config = .ok text → parse text = .ok config

/-- A `PathBuf`, by its components. -/
structure PathBuf where
  isAbsolute : Bool
  components : Path
deriving DecidableEq

def PathBuf.join (path : PathBuf) (name : String) : PathBuf := ⟨path.isAbsolute, path.components ++ [name]⟩

def PathBuf.parent (path : PathBuf) : Option PathBuf :=
  if path.components = [] then none else some ⟨path.isAbsolute, path.components.dropLast⟩

def PathBuf.display (path : PathBuf) : String :=
  (if path.isAbsolute then "/" else "") ++ "/".intercalate path.components

structure ManagedJdk where
  vendor : String
  version : String
  home : PathBuf

/-- The files the selection works on: `current` and its temporary in the data directory,
`config.toml` and its temporary in the configuration directory. -/
inductive JavaFile where
  | current
  | currentTemporary
  | config
  | configTemporary
deriving DecidableEq

inductive Entry where
  | link (target : PathBuf)
  | file (contents : ByteArray)
deriving DecidableEq

/-- What the command asks of the machine it runs on. -/
structure JavaMachine where
  dataDir : PathBuf
  configDir : PathBuf
  currentDir : Except String PathBuf
  isDir : PathBuf → Bool
  /-- The file a link leads to. -/
  follow : PathBuf → Option ByteArray
  processId : Nat
  format : UserConfigFormat

abbrev JavaCommand (α : Type) := Program JavaFile Entry Failure α

abbrev JavaWorld := World JavaFile Entry

-- The command
-- ---

section Command

variable (machine : JavaMachine)

def absolutePath (path : PathBuf) : Except Failure PathBuf :=
  if path.isAbsolute then .ok path
  else
    match machine.currentDir with
    | .ok directory => .ok ⟨directory.isAbsolute, directory.components ++ path.components⟩
    | .error source => .error (.context "could not determine current directory" (.io source))

def managedHome (jdk : ManagedJdk) : Except Failure PathBuf := do
  let dataDir ← absolutePath machine machine.dataDir
  let installationRoot := dataDir.join "jdks"
  let jdkHome ← absolutePath machine jdk.home
  if jdkHome.parent ≠ some installationRoot ∨ machine.isDir jdkHome = false then
    .error (.message ("refusing to select JDK outside the managed store " ++ installationRoot.display))
  else .ok jdkHome

def linkTarget : Option Entry → Option PathBuf
  | some (.link target) => some target
  | _ => none

/-- `std::fs::read_link(&current).ok()` -/
def readLink : JavaCommand (Option PathBuf) :=
  .perform (.look .current) fun report => .done (report.bind linkTarget)

def replaceSymlink (target : PathBuf) : JavaCommand Unit := do
  let temporary := (machine.dataDir.join (".current-" ++ toString machine.processId ++ ".tmp")).display
  act (.context ("could not create " ++ machine.dataDir.display) (.io "input/output error")) .step
  act (.context ("could not replace " ++ temporary) (.io "input/output error")) (.remove .currentTemporary)
  install (.context ("could not create " ++ temporary) (.io "input/output error"))
    (.context ("could not install " ++ (machine.dataDir.join "current").display) (.io "input/output error"))
    .currentTemporary .current (.link target)

def configPath : String := (machine.configDir.join "config.toml").display

/-- What `read_to_string` finds at `config.toml`. -/
def configContents : Option Entry → Option ByteArray
  | none => none
  | some (.file contents) => some contents
  | some (.link target) => machine.follow target

def userConfig (found : Option Entry) : Except Failure UserJavaConfig :=
  match configContents machine found with
  | none => .ok {}
  | some bytes =>
    match String.fromUTF8? bytes with
    | none => .error (.message ("could not read " ++ configPath machine ++ ": stream did not contain valid UTF-8"))
    | some text =>
      (machine.format.parse text).mapError fun error =>
        .message ("could not parse user configuration " ++ configPath machine ++ ": " ++ error)

def readUserConfig : JavaCommand UserJavaConfig := do
  let found ← read (.message ("could not read " ++ configPath machine ++ ": input/output error")) .config
  match userConfig machine found with
  | .ok config => pure config
  | .error failure => throw failure

def userConfigToml (config : UserJavaConfig) : Except Failure String :=
  (machine.format.toStringPretty config).mapError fun error =>
    .message ("could not encode user configuration: " ++ error)

def writeUserConfig (text : String) : JavaCommand Unit := do
  let temporary := (machine.configDir.join ("config.tmp-" ++ toString machine.processId)).display
  act (.context ("could not create " ++ machine.configDir.display) (.io "input/output error")) .step
  install (.context ("could not write " ++ temporary) (.io "input/output error"))
    (.context ("could not install " ++ configPath machine) (.io "input/output error"))
    .configTemporary .config (.file text.toUTF8)

def selected (jdk : ManagedJdk) (config : UserJavaConfig) : UserJavaConfig :=
  { config with java := { config.java with global := some ⟨jdk.version, jdk.vendor⟩ } }

/-- What is done to the link when the configuration could not be written. -/
def restoreLink (previousTarget : Option PathBuf) : JavaCommand Unit :=
  match previousTarget with
  | some previous => tryCatch (replaceSymlink machine previous) fun _ => pure ()
  | none => attempt (.remove .current)

def selectHome (jdk : ManagedJdk) (jdkHome : PathBuf) : JavaCommand Unit := do
  let previousTarget ← readLink
  replaceSymlink machine jdkHome
  let config ← readUserConfig machine
  match userConfigToml machine (selected jdk config) with
  | .error failure => throw failure
  | .ok text =>
    tryCatch (writeUserConfig machine text) fun error => do
      restoreLink machine previousTarget
      throw error

def selectGlobalJava (jdk : ManagedJdk) : JavaCommand Unit :=
  match managedHome machine jdk with
  | .error failure => throw failure
  | .ok jdkHome => selectHome machine jdk jdkHome

end Command

-- The transaction
-- ---

section Transaction

variable (machine : JavaMachine) (jdk : ManagedJdk)

/-- The link leads to the installation and the configuration names it. -/
structure NamesSame (files : JavaFile → Option Entry) : Prop where
  link : ∃ home, managedHome machine jdk = .ok home ∧ files .current = some (.link home)
  config : ∃ config, userConfig machine (files .config) = .ok config ∧
    config.java.global = some ⟨jdk.version, jdk.vendor⟩

/-- A run that fails leaves both as they were, one that succeeds has both name the
installation. -/
structure SelectsAtomically (w : JavaWorld) : Prop where
  fails : ∀ e w', exec (selectGlobalJava machine jdk) w = (.error e, w') →
    w'.files .current = w.files .current ∧ w'.files .config = w.files .config
  succeeds : ∀ w', exec (selectGlobalJava machine jdk) w = (.ok (), w') → NamesSame machine jdk w'.files

def previousTarget (w : JavaWorld) : Option PathBuf :=
  if w.SucceedsAt 0 then linkTarget (w.files .current) else none

/-- The configuration can be read, parsed and rendered. -/
def Renders (w : JavaWorld) : Prop :=
  w.SucceedsAt 5 ∧ ∃ config text, userConfig machine (w.files .config) = .ok config ∧
    userConfigToml machine (selected jdk config) = .ok text

/-- Putting the link back from the operation after `k` others on is no change to what it was. -/
def Restores (w : JavaWorld) (home : PathBuf) (k : Nat) : Prop :=
  match previousTarget w with
  | some target => target = home ∨ w.CalmFrom k 4
  | none => w.files .current = if w.SucceedsAt k then none else some (.link home)

/-- No fault does harm: the link is not replaced, or it was there already, or the
configuration is written, or the link is put back. -/
def Harmless (w : JavaWorld) (home : PathBuf) : Prop :=
  ¬ w.CalmFrom 1 4 ∨
    (¬ Renders machine jdk w ∧ w.files .current = some (.link home)) ∨
    (Renders machine jdk w ∧ (w.CalmFrom 6 3 ∨ ∃ i < 3, w.FaultAt 6 i ∧ Restores w home (7 + i)))

-- The steps
-- ---

variable {machine jdk} {w w' : JavaWorld} {target home : PathBuf} {text : String}

theorem exec_readLink (w : JavaWorld) :
    exec readLink w = (.ok (previousTarget w), ⟨w.files, w.outcomes.tail, w.trace ++ [.reads .current]⟩) := by
  cases hnext : w.next with
  | succeeds =>
    have hzero : w.SucceedsAt 0 := hnext
    simp [readLink, exec, Operation.perform, hnext, previousTarget, hzero, Operation.report, Operation.succeed,
      Operation.accesses]
  | fails left =>
    have hzero : ¬ w.SucceedsAt 0 := fun h => by cases hnext.symm.trans h
    simp [readLink, exec, Operation.perform, hnext, previousTarget, hzero, Operation.fail, Operation.accesses]

theorem takes_replaceSymlink (target : PathBuf) (w : JavaWorld) : Takes 4 (replaceSymlink machine target) w :=
  (takes_act _ rfl).bind fun _ _ _ => (takes_act _ rfl).bind fun _ _ _ => takes_install ..

theorem keepsOnError_replaceSymlink (target : PathBuf) :
    KeepsOnError {.currentTemporary} (replaceSymlink machine target) :=
  .bind (.step _) fun _ => .bind (.remove _ rfl) fun _ => .install _ _ _ _ _

theorem touches_replaceSymlink (target : PathBuf) :
    Touches {.currentTemporary, .current} (replaceSymlink machine target) :=
  (Touches.step _).bind fun _ => (Touches.remove _ (.inl rfl)).bind fun _ =>
    Touches.install _ _ _ (.inl rfl) (.inr rfl)

theorem exec_replaceSymlink_eq_ok (h : exec (replaceSymlink machine target) w = (.ok (), w')) :
    w'.files .current = some (.link target) := by
  obtain ⟨⟨⟩, v, -, h⟩ := exec_bind_eq_ok.mp h
  obtain ⟨⟨⟩, u, -, h⟩ := exec_bind_eq_ok.mp h
  exact exec_install_eq_ok h

theorem takes_writeUserConfig (text : String) (w : JavaWorld) : Takes 3 (writeUserConfig machine text) w :=
  (takes_act _ rfl).bind fun _ _ _ => takes_install ..

theorem keepsOnError_writeUserConfig (text : String) :
    KeepsOnError {.configTemporary} (writeUserConfig machine text) :=
  .bind (.step _) fun _ => .install _ _ _ _ _

theorem touches_writeUserConfig (text : String) :
    Touches {.configTemporary, .config} (writeUserConfig machine text) :=
  (Touches.step _).bind fun _ => Touches.install _ _ _ (.inl rfl) (.inr rfl)

theorem exec_writeUserConfig_eq_ok (h : exec (writeUserConfig machine text) w = (.ok (), w')) :
    w'.files .config = some (.file text.toUTF8) := by
  obtain ⟨⟨⟩, v, -, h⟩ := exec_bind_eq_ok.mp h
  exact exec_install_eq_ok h

theorem exec_readUserConfig_cases {result : Except Failure UserJavaConfig}
    (h : exec (readUserConfig machine) w = (result, w')) :
    (w.SucceedsAt 0 ∧ result = userConfig machine (w.files .config) ∧ w'.files = w.files ∧
      w'.outcomes = w.outcomes.drop 1) ∨
    (¬ w.SucceedsAt 0 ∧ (∃ e, result = .error e) ∧ w'.files = w.files) := by
  obtain ⟨e, herror, rfl⟩ | ⟨found, v, hread, hrest⟩ := exec_bind_cases h
  · obtain ⟨i, hi, hfault, -⟩ := (takes_read ..).fault herror
    obtain rfl := Nat.lt_one_iff.mp hi
    exact .inr ⟨hfault.2, ⟨e, rfl⟩, (Touches.read _ _).files_eq herror⟩
  · obtain ⟨hcalm, hdrop⟩ := (takes_read ..).calm hread
    obtain ⟨rfl, hfiles⟩ := exec_read_eq_ok hread
    refine .inl ⟨hcalm 0 Nat.one_pos, ?_⟩
    cases hconfig : userConfig machine (w.files .config) with
    | ok config =>
      rw [hconfig] at hrest
      cases hrest
      exact ⟨rfl, hfiles, hdrop⟩
    | error failure =>
      rw [hconfig] at hrest
      cases hrest
      exact ⟨rfl, hfiles, hdrop⟩

theorem exec_restoreLink (previous : Option PathBuf) (w : JavaWorld) : ∃ w',
    exec (restoreLink machine previous) w = (.ok (), w') ∧ w'.files .config = w.files .config ∧
      w'.files .current =
        match previous with
        | some target => if w.CalmFrom 0 4 then some (.link target) else w.files .current
        | none => if w.SucceedsAt 0 then none else w.files .current := by
  cases previous with
  | some target =>
    obtain ⟨⟨⟩, v, hv, hcalm, -⟩ | ⟨i, hi, hfault, e, v, hv, -⟩ := @takes_replaceSymlink machine target w
    · refine ⟨v, exec_tryCatch_ok hv, (touches_replaceSymlink target).of_exec hv _ (by simp), ?_⟩
      exact (exec_replaceSymlink_eq_ok hv).trans (if_pos hcalm).symm
    · have hkeep := (keepsOnError_replaceSymlink target).of_exec hv
      refine ⟨v, exec_tryCatch_error hv, hkeep _ (by simp), ?_⟩
      exact (hkeep _ (by simp)).trans (if_neg (hfault.not_calm hi)).symm
  | none =>
    cases hnext : w.next with
    | succeeds =>
      refine ⟨⟨Function.update w.files .current none, w.outcomes.tail, w.trace ++ [.changes .current]⟩, ?_, ?_, ?_⟩
      · simp [restoreLink, attempt, exec, Operation.perform, hnext, Operation.succeed, Operation.accesses]
      · rfl
      · simp only [if_pos (succeedsAt_zero.mpr hnext), Function.update_self]
    | fails left =>
      refine ⟨⟨w.files, w.outcomes.tail, w.trace ++ [.changes .current]⟩, ?_, rfl, ?_⟩
      · simp [restoreLink, attempt, exec, Operation.perform, hnext, Operation.fail, Operation.accesses]
      · exact (if_neg fun h => by cases hnext.symm.trans (succeedsAt_zero.mp h)).symm

-- How a selection ends
-- ---

/-- The link after it was put back from the operation after `k` others on. -/
def linkAfter (w : JavaWorld) (home : PathBuf) (k : Nat) : Option Entry :=
  match previousTarget w with
  | some target => if w.CalmFrom k 4 then some (.link target) else some (.link home)
  | none => if w.SucceedsAt k then none else some (.link home)

variable (machine jdk w home) in
/-- How the steps behind the checks end, by the first fault. -/
inductive Ends : Except Failure Unit → (JavaFile → Option Entry) → Prop
  | unreplaced {e : Failure} {files : JavaFile → Option Entry} (hfault : ¬ w.CalmFrom 1 4)
      (hcurrent : files .current = w.files .current) (hconfig : files .config = w.files .config) :
      Ends (.error e) files
  | unrendered {e : Failure} {files : JavaFile → Option Entry} (hcalm : w.CalmFrom 1 4)
      (hrenders : ¬ Renders machine jdk w) (hcurrent : files .current = some (.link home))
      (hconfig : files .config = w.files .config) : Ends (.error e) files
  | unwritten {e : Failure} {files : JavaFile → Option Entry} {i : Nat} (hcalm : w.CalmFrom 1 4)
      (hrenders : Renders machine jdk w) (hi : i < 3) (hfault : w.FaultAt 6 i)
      (hcurrent : files .current = linkAfter w home (7 + i)) (hconfig : files .config = w.files .config) :
      Ends (.error e) files
  | written {config : UserJavaConfig} {text : String} {files : JavaFile → Option Entry} (hcalm : w.CalmFrom 1 4)
      (hrenders : Renders machine jdk w) (hwrite : w.CalmFrom 6 3)
      (htext : userConfigToml machine (selected jdk config) = .ok text)
      (hcurrent : files .current = some (.link home)) (hconfig : files .config = some (.file text.toUTF8)) :
      Ends (.ok ()) files

theorem ends_of_rendered {v : JavaWorld} {config : UserJavaConfig} {result : Except Failure Unit}
    (hcalm : w.CalmFrom 1 4) (hrenders : Renders machine jdk w) (hcurrent : v.files .current = some (.link home))
    (hconfig : v.files .config = w.files .config) (hdrop : v.outcomes = w.outcomes.drop 6)
    (htext : userConfigToml machine (selected jdk config) = .ok text)
    (h : exec (tryCatch (writeUserConfig machine text) fun error => do
      restoreLink machine (previousTarget w)
      throw error) v = (result, w')) : Ends machine jdk w home result w'.files := by
  obtain ⟨⟨⟩, hwrite, rfl⟩ | ⟨e, u, hwrite, hrest⟩ := exec_tryCatch_cases h
  · have hcurrent' := (touches_writeUserConfig text).of_exec hwrite .current (by simp)
    have hcalm' := ((takes_writeUserConfig text v).calm hwrite).1
    exact .written hcalm hrenders ((calmFrom_of_drop hdrop 0 3).mp hcalm') htext (hcurrent'.trans hcurrent)
      (exec_writeUserConfig_eq_ok hwrite)
  · obtain ⟨i, hi, ⟨hbefore, hfault⟩, hleft⟩ := (takes_writeUserConfig text v).fault hwrite
    have hkeep := (keepsOnError_writeUserConfig text).of_exec hwrite
    have hu : u.outcomes = w.outcomes.drop (7 + i) := by
      rw [hleft, hdrop, List.drop_drop, Nat.add_left_comm, Nat.add_comm i]
    obtain ⟨u', hrestore, hconfig', hcurrent'⟩ := @exec_restoreLink machine (previousTarget w) u
    rw [exec_bind_ok hrestore] at hrest
    cases hrest
    have hhome : u.files .current = some (.link home) := (hkeep _ (by simp)).trans hcurrent
    refine .unwritten hcalm hrenders hi ⟨(calmFrom_of_drop hdrop 0 i).mp hbefore, ?_⟩ ?_
      (hconfig'.trans ((hkeep _ (by simp)).trans hconfig))
    · rwa [succeedsAt_of_drop hdrop, Nat.zero_add] at hfault
    · rw [hcurrent', linkAfter, hhome]
      simp only [calmFrom_of_drop hu, succeedsAt_of_drop hu, Nat.add_zero]

/-- **Every run of the steps ends in one of these ways.** -/
theorem ends_selectHome {result : Except Failure Unit}
    (h : exec (selectHome machine jdk home) w = (result, w')) : Ends machine jdk w home result w'.files := by
  rw [selectHome, exec_bind_ok (exec_readLink w)] at h
  have hdrop : w.outcomes.tail = w.outcomes.drop 1 := List.drop_one.symm
  obtain ⟨e, hreplace, rfl⟩ | ⟨⟨⟩, v, hreplace, h⟩ := exec_bind_cases h
  · obtain ⟨i, hi, hfault, -⟩ := (takes_replaceSymlink home _).fault hreplace
    have hkeep := (keepsOnError_replaceSymlink home).of_exec hreplace
    refine .unreplaced (fun hcalm => ?_) (hkeep _ (by simp)) (hkeep _ (by simp))
    exact hfault.not_calm hi ((calmFrom_of_drop hdrop 0 4).mpr hcalm)
  obtain ⟨hcalm, hleft⟩ := (takes_replaceSymlink home _).calm hreplace
  replace hcalm : w.CalmFrom 1 4 := (calmFrom_of_drop hdrop 0 4).mp hcalm
  replace hleft : v.outcomes = w.outcomes.drop 5 := by rw [hleft, hdrop, List.drop_drop]
  have hcurrent := exec_replaceSymlink_eq_ok hreplace
  have hconfig : v.files .config = w.files .config := (touches_replaceSymlink home).of_exec hreplace _ (by simp)
  obtain ⟨read, u, hread⟩ : ∃ read u, exec (readUserConfig machine) v = (read, u) := ⟨_, _, rfl⟩
  obtain ⟨hfive, rfl, hu, hleft'⟩ | ⟨hfive, ⟨e, rfl⟩, hu⟩ := exec_readUserConfig_cases hread
  · rw [succeedsAt_of_drop hleft] at hfive
    rw [hleft, List.drop_drop] at hleft'
    rw [hconfig] at hread
    cases hfound : userConfig machine (w.files .config) with
    | error failure =>
      rw [hfound] at hread
      rw [exec_bind_error hread] at h
      cases h
      refine .unrendered hcalm (fun hrenders => ?_) (hu ▸ hcurrent) (hu ▸ hconfig)
      obtain ⟨-, config, -, hok, -⟩ := hrenders
      cases hfound.symm.trans hok
    | ok config =>
      rw [hfound] at hread
      rw [exec_bind_ok hread] at h
      cases htext : userConfigToml machine (selected jdk config) with
      | error failure =>
        rw [htext] at h
        cases h
        refine .unrendered hcalm (fun hrenders => ?_) (hu ▸ hcurrent) (hu ▸ hconfig)
        obtain ⟨-, config', text', hok, hrender⟩ := hrenders
        cases hfound.symm.trans hok
        cases htext.symm.trans hrender
      | ok text =>
        rw [htext] at h
        exact ends_of_rendered hcalm ⟨hfive, config, text, hfound, htext⟩ (hu ▸ hcurrent) (hu ▸ hconfig) hleft'
          htext h
  · rw [exec_bind_error hread] at h
    cases h
    refine .unrendered hcalm (fun hrenders => hfive ?_) (hu ▸ hcurrent) (hu ▸ hconfig)
    exact (succeedsAt_of_drop hleft 0).mpr hrenders.1

theorem restores_iff {k : Nat} : Restores w home k ↔ linkAfter w home k = w.files .current := by
  unfold Restores linkAfter
  cases hprevious : previousTarget w with
  | none => exact eq_comm
  | some target =>
    have hcurrent : w.files .current = some (.link target) := by
      unfold previousTarget at hprevious
      split at hprevious
      · unfold linkTarget at hprevious
        split at hprevious
        · rw [‹w.files .current = _›, Option.some.inj hprevious]
        · cases hprevious
      · cases hprevious
    rw [hcurrent]
    simp only
    split
    · simp [*]
    · simp [*, eq_comm]

theorem exec_selectGlobalJava (hhome : managedHome machine jdk = .ok home) :
    selectGlobalJava machine jdk = selectHome machine jdk home := by
  rw [selectGlobalJava, hhome]

theorem kept_of_harmless {e : Failure} {files : JavaFile → Option Entry} (h : Harmless machine jdk w home)
    (hends : Ends machine jdk w home (.error e) files) :
    files .current = w.files .current ∧ files .config = w.files .config := by
  cases hends with
  | unreplaced _ hcurrent hconfig => exact ⟨hcurrent, hconfig⟩
  | unrendered hcalm hrenders hcurrent hconfig =>
    obtain hfault | ⟨-, hthere⟩ | ⟨hrenders', -⟩ := h
    · exact absurd hcalm hfault
    · exact ⟨hcurrent.trans hthere.symm, hconfig⟩
    · exact absurd hrenders' hrenders
  | unwritten hcalm hrenders hi hfault hcurrent hconfig =>
    obtain hfault' | ⟨hrenders', -⟩ | ⟨-, hwrite | ⟨j, hj, hfault', hrestores⟩⟩ := h
    · exact absurd hcalm hfault'
    · exact absurd hrenders hrenders'
    · exact absurd hwrite (hfault.not_calm hi)
    · obtain rfl := hfault.unique hfault'
      exact ⟨hcurrent.trans (restores_iff.mp hrestores), hconfig⟩

theorem namesSame_of_ends {files : JavaFile → Option Entry} (hhome : managedHome machine jdk = .ok home)
    (hends : Ends machine jdk w home (.ok ()) files) : NamesSame machine jdk files := by
  cases hends with
  | @written config text _ _ _ _ htext hcurrent hconfig =>
    refine ⟨⟨home, hhome, hcurrent⟩, selected jdk config, ?_, rfl⟩
    rw [hconfig, userConfig, configContents]
    simp only [Config.fromUTF8?_toUTF8]
    rw [machine.format.parse_toStringPretty (Fallible.mapError_eq_ok.mp htext)]
    rfl

/-- **A selection is transactional exactly when no fault does harm.** -/
theorem selectGlobalJava_atomic_iff (machine : JavaMachine) (jdk : ManagedJdk) (w : JavaWorld) :
    SelectsAtomically machine jdk w ↔
      ∀ home, managedHome machine jdk = .ok home → Harmless machine jdk w home := by
  constructor
  · intro hatomic home hhome
    obtain ⟨result, w', hrun⟩ : ∃ result w', exec (selectHome machine jdk home) w = (result, w') := ⟨_, _, rfl⟩
    have hrun' := hrun
    rw [← exec_selectGlobalJava hhome] at hrun'
    cases ends_selectHome hrun with
    | unreplaced hfault _ _ => exact .inl hfault
    | unrendered _ hrenders hcurrent _ =>
      exact .inr (.inl ⟨hrenders, (hatomic.fails _ _ hrun').1.symm.trans hcurrent⟩)
    | unwritten _ hrenders hi hfault hcurrent _ =>
      refine .inr (.inr ⟨hrenders, .inr ⟨_, hi, hfault, restores_iff.mpr ?_⟩⟩)
      exact hcurrent.symm.trans (hatomic.fails _ _ hrun').1
    | written _ hrenders hwrite _ _ _ => exact .inr (.inr ⟨hrenders, .inl hwrite⟩)
  · intro hharmless
    cases hhome : managedHome machine jdk with
    | error failure =>
      have hthrow : exec (selectGlobalJava machine jdk) w = (.error failure, w) := by
        rw [selectGlobalJava, hhome]
        rfl
      refine ⟨fun e w' hrun => ?_, fun w' hrun => ?_⟩
      · cases hthrow.symm.trans hrun
        exact ⟨rfl, rfl⟩
      · cases hthrow.symm.trans hrun
    | ok home =>
      refine ⟨fun e w' hrun => ?_, fun w' hrun => ?_⟩
      · rw [exec_selectGlobalJava hhome] at hrun
        exact kept_of_harmless (hharmless home hhome) (ends_selectHome hrun)
      · rw [exec_selectGlobalJava hhome] at hrun
        exact namesSame_of_ends hhome (ends_selectHome hrun)

end Transaction

-- A configuration that does not parse
-- ---

def selectedJdk : ManagedJdk := ⟨"temurin", "21", ⟨true, ["data", "jdks", "temurin-21"]⟩⟩

def selectedFormat : UserConfigFormat where
  parse text :=
    if text = "21" then .ok ⟨⟨some ⟨"21", "temurin"⟩⟩⟩ else .error "expected a table"
  toStringPretty config :=
    if config = ⟨⟨some ⟨"21", "temurin"⟩⟩⟩ then .ok "21" else .error "unsupported value"
  parse_toStringPretty := by
    intro config text h
    split at h
    · cases h
      rw [‹config = _›]
      rfl
    · cases h

def javaMachine : JavaMachine where
  dataDir := ⟨true, ["data"]⟩
  configDir := ⟨true, ["config"]⟩
  currentDir := .error "No such file or directory (os error 2)"
  isDir _ := true
  follow _ := none
  processId := 1
  format := selectedFormat

def corruptConfig : JavaWorld :=
  .calm fun
    | .config => some (.file "[".toUTF8)
    | _ => none

theorem corrupt_config_moves_link : ¬ SelectsAtomically javaMachine selectedJdk corruptConfig := by
  intro h
  obtain ⟨hcurrent, -⟩ := h.fails _ _ rfl
  cases hcurrent

end JMan.Cli
