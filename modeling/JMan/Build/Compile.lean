import JMan.Build.Publish
import Mathlib.Logic.Relation

/-!
# JMan — compiling a module again

`compile_module` of `jman-build/src/lib.rs` over the files it keeps for a module:
the output tree, the recorded fingerprint, and what it prepares the output in.
The tree is published first and the fingerprint recorded after it. Between the
two steps the recorded fingerprint is that of an earlier output.

What a compilation makes of its inputs is a parameter (`Compilation`).
-/

namespace JMan.Build

open JMan.Config
open FileStore (Operation Access Outcome World LeftBefore Runs Within exec act attempt lookFails)
open Relation (ReflTransGen)
open Paths (Path)

-- The function
-- ---

/-- What is at a path: a directory with all it holds, or a file. -/
inductive Stored (β : Type) where
  | tree (contents : β)
  | text (text : String)
deriving DecidableEq

def Stored.text? {β : Type} : Stored β → Option String
  | .tree _ => none
  | .text contents => some contents

def Stored.isTree {β : Type} : Stored β → Bool
  | .tree _ => true
  | .text _ => false

/-- What compilation is of the inputs of a module: the fingerprint, which
identifies them; whether there are sources; the tree with the resources; and what
`javac` makes of it, or its diagnostics. -/
structure Compilation (α β : Type) where
  fingerprint : α → String
  hasSources : α → Bool
  prepared : α → β
  javac : α → Except String β
  identifies : Function.Injective fingerprint
  isTrimmed : ∀ inputs, trim (fingerprint inputs ++ "\n") = fingerprint inputs

def Compilation.classes {α β : Type} (c : Compilation α β) (inputs : α) : Except String β :=
  if c.hasSources inputs then c.javac inputs else .ok (c.prepared inputs)

/-- `.jman/output` -/
def moduleOutput (directory : Path) : Path := directory ++ [".jman", "output"]

/-- `.jman/check.sha256` -/
def stateFile (directory : Path) : Path := directory ++ [".jman", "check.sha256"]

/-- `.jman/output.tmp.{pid}` -/
def moduleTemporary (pid : String) (directory : Path) : Path :=
  directory ++ [".jman", "output.tmp." ++ pid]

section Compile

variable {α β : Type} (c : Compilation α β)

/-- `read_to_string(path).is_ok_and(|current| current.trim() == fingerprint)` -/
def recordedIs (path : Path) (fingerprint : String) : Action (Stored β) Bool :=
  .perform (.read path) fun report =>
    .done (((report.bind id).bind Stored.text?).any fun current => trim current = fingerprint)

/-- `path.is_dir()` -/
def isDirectory (path : Path) : Action (Stored β) Bool :=
  .perform (.look path) fun report => .done ((report.bind id).any Stored.isTree)

def upToDate (directory : Path) (rebuild : Bool) (fingerprint : String) : Action (Stored β) Bool := do
  if rebuild then return false
  if ← recordedIs (stateFile directory) fingerprint then isDirectory (moduleOutput directory)
  else return false

/-- The output is prepared: the directories and resources, and then `javac`. -/
def prepareOutput (pid name : String) (directory : Path) (inputs : α) : Action (Stored β) Unit := do
  let temporary := moduleTemporary pid directory
  whenThere temporary (.clear temporary)
  act (ioError temporary) (.write temporary (.tree (c.prepared inputs)))
  if c.hasSources inputs then
    match c.javac inputs with
    | .error diagnostics => do
      attempt (.clear temporary)
      throw (.compilation name diagnostics)
    | .ok classes =>
      act (.javac "javac" "input/output error") (.write temporary (.tree classes))

/-- `compile_module`, after what it has read of its inputs: whether it built the
output, and the fingerprint. -/
def compileModule (pid name : String) (directory : Path) (rebuild : Bool) (inputs : α) :
    Action (Stored β) (Bool × String) := do
  let fingerprint := c.fingerprint inputs
  if ← upToDate directory rebuild fingerprint then return (false, fingerprint)
  prepareOutput c pid name directory inputs
  replaceDirectory pid (moduleTemporary pid directory) (moduleOutput directory)
  act (ioError (stateFile directory)) (.write (stateFile directory) (.text (fingerprint ++ "\n")))
  return (true, fingerprint)

end Compile

-- The paths of a module
-- ---

section Paths

variable {pid : String} {directory : Path}

theorem stateName_ne {name name' : String} (h : name ≠ name') :
    directory ++ [".jman", name] ≠ directory ++ [".jman", name'] := by
  intro heq
  have hnames := List.append_cancel_left heq
  rw [List.cons.injEq, List.cons.injEq] at hnames
  exact h hnames.2.1

theorem moduleOutput_ne_nil : moduleOutput directory ≠ [] :=
  List.append_ne_nil_of_right_ne_nil _ (List.cons_ne_nil _ _)

theorem backupOf_moduleOutput :
    backupOf pid (moduleOutput directory) = directory ++ [".jman", "output.old." ++ pid] := by
  have hlast : (moduleOutput directory).getLast? = some "output" := by
    rw [moduleOutput, List.getLast?_append]
    rfl
  have hinit : (moduleOutput directory).dropLast = directory ++ [".jman"] := by
    rw [moduleOutput, List.dropLast_append_of_ne_nil (List.cons_ne_nil _ _)]
    rfl
  have hstem : Paths.fileStem "output".toList = "output".toList := by decide
  rw [backupOf, Paths.withExtension, hlast]
  show (moduleOutput directory).dropLast ++ _ = _
  rw [hinit, hstem, List.append_assoc]
  have hname : String.ofList ("output".toList ++ '.' :: ("old." ++ pid).toList) =
      "output.old." ++ pid := by
    rw [← String.toList_inj, String.toList_ofList, String.toList_append, String.toList_append]
    rfl
  rw [hname]
  rfl

theorem moduleTemporary_ne_output : moduleTemporary pid directory ≠ moduleOutput directory := by
  refine stateName_ne fun h => ?_
  have hlength := congrArg String.length h
  rw [String.length_append] at hlength
  have hbound : "output.tmp.".length = 11 ∧ "output".length = 6 := by decide
  omega

theorem moduleTemporary_ne_backup :
    moduleTemporary pid directory ≠ backupOf pid (moduleOutput directory) := by
  rw [backupOf_moduleOutput]
  refine stateName_ne fun h => ?_
  rw [String.append_left_inj] at h
  exact absurd h (by decide)

theorem stateFile_notMem : stateFile directory ∉
    ({moduleTemporary pid directory, moduleOutput directory,
      backupOf pid (moduleOutput directory)} : Set Path) := by
  have hne : ∀ start suffix : String, start.toList.head? = some 'o' →
      "check.sha256" ≠ start ++ suffix := by
    intro start suffix hstart h
    have hhead := congrArg (fun name => name.toList.head?) h
    simp only [String.toList_append, List.head?_append, hstart, Option.some_or] at hhead
    exact absurd hhead (by decide)
  rw [backupOf_moduleOutput]
  rintro (h | h | h)
  · exact stateName_ne (hne _ _ (by decide)) h
  · exact stateName_ne (by decide) h
  · exact stateName_ne (hne _ _ (by decide)) h

end Paths

-- One run
-- ---

section Run

variable {α β : Type} {c : Compilation α β} {pid name : String} {directory : Path} {rebuild : Bool}
  {inputs : α} {fingerprint : String} {w w' : World Path (Stored β)}

theorem within_recordedIs (S : Set Path) (path : Path) :
    Within S (recordedIs path fingerprint : Action (Stored β) Bool) :=
  ⟨fun p hp => by simp [Operation.accesses] at hp, fun _ => trivial⟩

theorem within_upToDate (S : Set Path) :
    Within S (upToDate directory rebuild fingerprint : Action (Stored β) Bool) := by
  unfold upToDate
  split
  · trivial
  · refine .bind (within_recordedIs S _) fun recorded => ?_
    split
    · exact ⟨fun p hp => by simp [Operation.accesses] at hp, fun _ => trivial⟩
    · trivial

theorem exec_recordedIs_eq_ok {path : Path}
    (h : exec (recordedIs path fingerprint : Action (Stored β) Bool) w = (.ok true, w')) :
    ∃ text, w.files path = some (.text text) ∧ trim text = fingerprint := by
  unfold recordedIs exec Operation.perform at h
  cases hnext : w.next with
  | succeeds =>
    simp only [hnext, Operation.report, exec] at h
    have h := Except.ok.inj (Prod.mk.inj h).1
    obtain ⟨text, htext, htrim⟩ := (Option.any_eq_true _ _).mp h
    obtain ⟨stored, hstored, ht⟩ := Option.bind_eq_some_iff.mp htext
    cases stored with
    | tree contents => cases ht
    | text contents =>
      cases ht
      exact ⟨_, hstored, of_decide_eq_true htrim⟩
  | fails left =>
    simp only [hnext, exec] at h
    cases h

theorem exec_isDirectory_eq_ok {path : Path}
    (h : exec (isDirectory path : Action (Stored β) Bool) w = (.ok true, w')) :
    ∃ contents, w.files path = some (.tree contents) := by
  unfold isDirectory exec Operation.perform at h
  cases hnext : w.next with
  | succeeds =>
    simp only [hnext, Operation.report, exec] at h
    obtain ⟨stored, hstored, htree⟩ :=
      (Option.any_eq_true _ _).mp (Except.ok.inj (Prod.mk.inj h).1)
    cases stored with
    | tree contents => exact ⟨contents, hstored⟩
    | text contents => cases htree
  | fails left =>
    simp only [hnext, exec] at h
    cases h

theorem exec_upToDate_eq_ok
    (h : exec (upToDate directory rebuild fingerprint) w = (.ok true, w')) :
    ∃ text classes, w.files (stateFile directory) = some (.text text) ∧ trim text = fingerprint ∧
      w.files (moduleOutput directory) = some (.tree classes) := by
  unfold upToDate at h
  split at h
  · cases h
  obtain ⟨recorded, v, hrecorded, h⟩ := FileStore.exec_bind_eq_ok.mp h
  have hv : v.files (moduleOutput directory) = w.files (moduleOutput directory) :=
    (within_recordedIs ∅ _).exec hrecorded (Set.notMem_empty _)
  cases recorded with
  | false => cases h
  | true =>
    obtain ⟨text, htext, htrim⟩ := exec_recordedIs_eq_ok hrecorded
    obtain ⟨classes, hclasses⟩ := exec_isDirectory_eq_ok h
    exact ⟨text, classes, htext, htrim, hv ▸ hclasses⟩

theorem within_prepareOutput :
    Within {moduleTemporary pid directory} (prepareOutput c pid name directory inputs) := by
  have hclear : ∀ p, Access.changes p ∈
      (Operation.clear (moduleTemporary pid directory) : Operation Path (Stored β)).accesses →
        p ∈ ({moduleTemporary pid directory} : Set Path) := fun p hp => by
    simpa [Operation.accesses] using hp
  have hwrite : ∀ (stored : Stored β) (p : Path), Access.changes p ∈
      (Operation.write (moduleTemporary pid directory) stored).accesses →
        p ∈ ({moduleTemporary pid directory} : Set Path) := fun stored p hp => by
    simpa [Operation.accesses] using hp
  refine .bind (within_whenThere _ hclear) fun _ => .bind (.act (hwrite _)) fun _ => ?_
  split
  · split
    · exact .bind (.attempt hclear) fun _ => trivial
    · exact .act (hwrite _)
  · trivial

theorem exec_prepareOutput_eq_ok
    (h : exec (prepareOutput c pid name directory inputs) w = (.ok (), w')) :
    ∃ classes, c.classes inputs = .ok classes ∧
      w'.files (moduleTemporary pid directory) = some (.tree classes) := by
  obtain ⟨⟨⟩, w₁, -, h⟩ := FileStore.exec_bind_eq_ok.mp h
  obtain ⟨⟨⟩, w₂, hprepared, h⟩ := FileStore.exec_bind_eq_ok.mp h
  have hfiles₂ := (FileStore.exec_act_eq_ok hprepared).2
  split at h
  · next hsources =>
    rw [Compilation.classes, if_pos hsources]
    split at h
    · obtain ⟨⟨⟩, w₃, -, hthrow⟩ := FileStore.exec_bind_eq_ok.mp h
      cases hthrow
    · next classes hclasses =>
      refine ⟨classes, hclasses, ?_⟩
      rw [(FileStore.exec_act_eq_ok h).2]
      exact Function.update_self ..
  · next hsources =>
    cases h
    rw [Compilation.classes, if_neg hsources]
    refine ⟨c.prepared inputs, rfl, ?_⟩
    rw [hfiles₂]
    exact Function.update_self ..

theorem exec_compileModule_eq_ok {built : Bool}
    (h : exec (compileModule c pid name directory rebuild inputs) w =
      (.ok (built, fingerprint), w')) :
    (built = false ∧ w'.files (stateFile directory) = w.files (stateFile directory) ∧
      w'.files (moduleOutput directory) = w.files (moduleOutput directory) ∧
      ∃ text classes, w.files (stateFile directory) = some (.text text) ∧
        trim text = c.fingerprint inputs ∧
        w.files (moduleOutput directory) = some (.tree classes)) ∨
    (built = true ∧
      w'.files (stateFile directory) = some (.text (c.fingerprint inputs ++ "\n")) ∧
      ∃ classes, c.classes inputs = .ok classes ∧
        w'.files (moduleOutput directory) = some (.tree classes)) := by
  obtain ⟨current, w₁, hcurrent, h⟩ := FileStore.exec_bind_eq_ok.mp h
  have hw₁ : ∀ p, w₁.files p = w.files p := fun p =>
    (within_upToDate ∅).exec hcurrent (Set.notMem_empty p)
  cases current with
  | true =>
    cases h
    exact Or.inl ⟨rfl, hw₁ _, hw₁ _, exec_upToDate_eq_ok hcurrent⟩
  | false =>
    obtain ⟨⟨⟩, w₂, hprepare, h⟩ := FileStore.exec_bind_eq_ok.mp h
    obtain ⟨⟨⟩, w₃, hreplace, h⟩ := FileStore.exec_bind_eq_ok.mp h
    obtain ⟨⟨⟩, w₄, hrecord, h⟩ := FileStore.exec_bind_eq_ok.mp h
    cases h
    obtain ⟨classes, hclasses, htemporary⟩ := exec_prepareOutput_eq_ok hprepare
    have houtput := (exec_replaceBy_eq_ok moduleOutput_ne_nil moduleTemporary_ne_backup
      moduleTemporary_ne_output hreplace).2
    have hstate : stateFile directory ∉ ({moduleTemporary pid directory, moduleOutput directory,
        backupOf pid (moduleOutput directory)} : Set Path) := stateFile_notMem
    have hne : moduleOutput directory ≠ stateFile directory := fun heq =>
      hstate (Or.inr (Or.inl heq.symm))
    rw [(FileStore.exec_act_eq_ok hrecord).2]
    refine Or.inr ⟨rfl, Function.update_self .., classes, hclasses, ?_⟩
    show Function.update w₃.files (stateFile directory) _ (moduleOutput directory) = _
    rw [Function.update_of_ne hne, houtput, htemporary]

/-- The new output has been moved in, or a look has failed. -/
def publishes (directory : Path) (pid : String) (operation : Operation Path (Stored β))
    (w : World Path (Stored β)) : Prop :=
  lookFails operation w ∨
    operation = .rename (moduleTemporary pid directory) (moduleOutput directory) ∧
      w.next = .succeeds

theorem leftBefore_compileModule {files : Path → Option (Stored β)}
    (h : LeftBefore (publishes directory pid)
      (compileModule c pid name directory rebuild inputs) w files) :
    files (stateFile directory) = w.files (stateFile directory) ∧
      (files (moduleOutput directory) = w.files (moduleOutput directory) ∨
        files (moduleOutput directory) = none) := by
  have hstate : stateFile directory ≠ moduleTemporary pid directory := fun heq =>
    stateFile_notMem (Or.inl heq)
  have houtput : moduleOutput directory ≠ moduleTemporary pid directory :=
    moduleTemporary_ne_output.symm
  rcases h.of_bind with hleft | ⟨current, w₁, hcurrent, -, hleft⟩
  · have hkept : ∀ p, files p = w.files p := fun p =>
      (within_upToDate ∅).leftBy hleft.leftBy (Set.notMem_empty p)
    exact ⟨hkept _, Or.inl (hkept _)⟩
  have hw₁ : ∀ p, w₁.files p = w.files p := fun p =>
    (within_upToDate ∅).exec hcurrent (Set.notMem_empty p)
  cases current with
  | true =>
    obtain rfl : files = w₁.files := hleft
    exact ⟨hw₁ _, Or.inl (hw₁ _)⟩
  | false =>
    rcases hleft.of_bind with hleft | ⟨⟨⟩, w₂, hprepare, -, hleft⟩
    · have hkept : ∀ p, p ≠ moduleTemporary pid directory → files p = w.files p := fun p hp =>
        (within_prepareOutput.leftBy hleft.leftBy hp).trans (hw₁ p)
      exact ⟨hkept _ hstate, Or.inl (hkept _ houtput)⟩
    have hw₂ : ∀ p, p ≠ moduleTemporary pid directory → w₂.files p = w.files p := fun p hp =>
      (within_prepareOutput.exec hprepare hp).trans (hw₁ p)
    -- the replacement can move the output away and cannot publish
    have hruns : Runs (publishes directory pid) _ _ _
        (replaceDirectory pid (moduleTemporary pid directory) (moduleOutput directory)) w₂ :=
      runs_replaceBy True False moduleOutput_ne_nil moduleTemporary_ne_backup
        moduleTemporary_ne_output (fun _ _ => Or.inl)
        (fun _ _ _ _ => trivial) fun v hnext hgood => hgood (Or.inr ⟨rfl, hnext⟩)
    rcases hleft.of_bind with hleft | ⟨⟨⟩, w₃, hreplace, havoids, -⟩
    · refine ⟨?_, ?_⟩
      · rw [within_replaceBy.leftBy hleft.leftBy stateFile_notMem, hw₂ _ hstate]
      · rw [← hw₂ _ houtput]
        rcases hruns.during files hleft with hold | hnone | hnew
        · exact Or.inl hold
        · exact Or.inr hnone.2
        · exact hnew.1.elim
    · exact (hruns.done () w₃ hreplace havoids).1.elim

end Run

-- Histories
-- ---

structure ModuleState (α β : Type) where
  inputs : α
  files : Path → Option (Stored β)

section History

variable {α β : Type}

/-- The inputs are edited, a compilation returns, or one ends somewhere: it fails
or is cut off, before a bad operation of its process. -/
inductive BuildStep (c : Compilation α β) (directory : Path)
    (bad : String → Operation Path (Stored β) → World Path (Stored β) → Prop) :
    ModuleState α β → ModuleState α β → Prop where
  | edit (s : ModuleState α β) (inputs : α) : BuildStep c directory bad s ⟨inputs, s.files⟩
  | returned (s : ModuleState α β) (pid name : String) (rebuild : Bool)
      (outcomes : List (Outcome (Stored β))) {result : Bool × String} {w' : World Path (Stored β)}
      (h : exec (compileModule c pid name directory rebuild s.inputs) ⟨s.files, outcomes, []⟩ =
        (.ok result, w')) : BuildStep c directory bad s ⟨s.inputs, w'.files⟩
  | ended (s : ModuleState α β) (pid name : String) (rebuild : Bool)
      (outcomes : List (Outcome (Stored β))) {files : Path → Option (Stored β)}
      (h : LeftBefore (bad pid) (compileModule c pid name directory rebuild s.inputs)
        ⟨s.files, outcomes, []⟩ files) : BuildStep c directory bad s ⟨s.inputs, files⟩

variable {c : Compilation α β} {directory : Path} {s s' start : ModuleState α β}

/-- A recorded fingerprint is that of the output, if there is one. -/
def Recorded (c : Compilation α β) (directory : Path) (files : Path → Option (Stored β)) : Prop :=
  ∀ text inputs, files (stateFile directory) = some (.text text) →
    trim text = c.fingerprint inputs → files (moduleOutput directory) = none ∨
      ∃ classes, c.classes inputs = .ok classes ∧
        files (moduleOutput directory) = some (.tree classes)

theorem recorded_step (h : BuildStep c directory (publishes directory) s s')
    (hs : Recorded c directory s.files) : Recorded c directory s'.files := by
  cases h with
  | edit inputs => exact hs
  | returned pid name rebuild outcomes h =>
    intro text inputs htext htrim
    have hreturned := exec_compileModule_eq_ok h
    rcases hreturned with ⟨-, hstate, houtput, -⟩ | ⟨-, hstate, classes, hclasses, hout⟩
    · exact (hs text inputs (hstate.symm.trans htext) htrim).imp houtput.trans
        fun ⟨classes, hclasses, hout⟩ => ⟨classes, hclasses, houtput.trans hout⟩
    · obtain rfl := Stored.text.inj (Option.some.inj (hstate.symm.trans htext))
      rw [c.isTrimmed] at htrim
      obtain rfl := c.identifies htrim
      exact Or.inr ⟨classes, hclasses, hout⟩
  | ended pid name rebuild outcomes h =>
    intro text inputs htext htrim
    obtain ⟨hstate, houtput⟩ := leftBefore_compileModule h
    rcases houtput with houtput | houtput
    · exact (hs text inputs (hstate.symm.trans htext) htrim).imp houtput.trans
        fun ⟨classes, hclasses, hout⟩ => ⟨classes, hclasses, houtput.trans hout⟩
    · exact Or.inl houtput

theorem recorded_run (hfresh : start.files (stateFile directory) = none)
    (h : ReflTransGen (BuildStep c directory (publishes directory)) start s) :
    Recorded c directory s.files := by
  induction h with
  | refl =>
    intro text inputs htext
    rw [hfresh] at htext
    cases htext
  | tail _ hstep ih => exact recorded_step hstep ih

/-- **What is reported up to date is what would be built**, in every history in
which a run that does not return ends before it publishes. -/
theorem up_to_date_is_current (hfresh : start.files (stateFile directory) = none)
    (hrun : ReflTransGen (BuildStep c directory (publishes directory)) start s)
    {pid name fingerprint : String} {rebuild : Bool} {outcomes : List (Outcome (Stored β))}
    {w' : World Path (Stored β)}
    (h : exec (compileModule c pid name directory rebuild s.inputs) ⟨s.files, outcomes, []⟩ =
      (.ok (false, fingerprint), w')) :
    ∃ classes, c.classes s.inputs = .ok classes ∧
      w'.files (moduleOutput directory) = some (.tree classes) := by
  rcases exec_compileModule_eq_ok h with ⟨-, -, houtput, text, found, htext, htrim, hfound⟩ | ⟨h, -⟩
  · rw [houtput]
    refine (recorded_run hfresh hrun text s.inputs htext htrim).resolve_left ?_
    show s.files (moduleOutput directory) ≠ none
    have hfound : s.files (moduleOutput directory) = some (.tree found) := hfound
    rw [hfound]
    exact Option.some_ne_none _
  · cases h

end History

-- An edit that is reverted
-- ---

inductive Revision where
  | first
  | second
deriving DecidableEq

def sampleCompilation : Compilation Revision String where
  fingerprint
    | .first => "sha256:1"
    | .second => "sha256:2"
  hasSources _ := true
  prepared _ := ""
  javac
    | .first => .ok "first"
    | .second => .ok "second"
  identifies left right h := by
    cases left <;> cases right <;> first | rfl | exact absurd h (by decide)
  isTrimmed inputs := by cases inputs <;> decide +kernel

def firstWorld : World Path (Stored String) :=
  (exec (compileModule sampleCompilation "7" "m" ["m"] false .first) (.calm fun _ => none)).2

def secondOutcomes : List (Outcome (Stored String)) :=
  List.replicate 10 .succeeds ++ [.fails (some (.text "sha256:1\n"))]

def secondWorld : World Path (Stored String) :=
  (exec (compileModule sampleCompilation "8" "m" ["m"] false .second)
    ⟨firstWorld.files, secondOutcomes, []⟩).2

/-- The second revision is published and not recorded, and the edit is reverted. -/
theorem reverted_is_stale :
    ∃ s, ReflTransGen (BuildStep sampleCompilation ["m"] fun _ _ _ => False)
        ⟨.first, fun _ => none⟩ s ∧ s.inputs = .first ∧
      ∃ w', exec (compileModule sampleCompilation "9" "m" ["m"] false .first) (.calm s.files) =
          (.ok (false, "sha256:1"), w') ∧
        sampleCompilation.classes .first = .ok "first" ∧
        w'.files (moduleOutput ["m"]) = some (.tree "second") := by
  have hfirst : BuildStep sampleCompilation ["m"] (fun _ _ _ => False)
      ⟨Revision.first, fun _ => none⟩ ⟨.first, firstWorld.files⟩ := .returned _ "7" "m" false [] rfl
  have hsecond : BuildStep sampleCompilation ["m"] (fun _ _ _ => False)
      ⟨.second, firstWorld.files⟩ ⟨.second, secondWorld.files⟩ :=
    .ended _ "8" "m" false secondOutcomes (FileStore.leftBy_exec _ _)
  refine ⟨⟨.first, secondWorld.files⟩, ?_, rfl, _, rfl, rfl, rfl⟩
  have hrun := (ReflTransGen.single hfirst).tail (.edit _ .second) |>.tail hsecond
  exact hrun.tail (.edit _ Revision.first)

theorem first_is_current :
    ∃ classes, sampleCompilation.classes .first = .ok classes ∧
      firstWorld.files (moduleOutput ["m"]) = some (.tree classes) := by
  have hrun : ReflTransGen (BuildStep sampleCompilation ["m"] (publishes ["m"]))
      ⟨Revision.first, fun _ => none⟩ ⟨Revision.first, firstWorld.files⟩ :=
    .single (.returned _ "7" "m" false [] rfl)
  have hagain : ∃ w', exec (compileModule sampleCompilation "8" "m" ["m"] false .first)
        ⟨firstWorld.files, [], []⟩ = (.ok (false, "sha256:1"), w') ∧
      w'.files = firstWorld.files := ⟨_, rfl, rfl⟩
  obtain ⟨w', hagain, hfiles⟩ := hagain
  rw [← hfiles]
  exact up_to_date_is_current rfl hrun hagain

end JMan.Build
