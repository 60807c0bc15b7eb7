import Mathlib.Data.Finset.Basic
import Mathlib.Data.Finset.Erase
import Mathlib.Data.Finset.Insert
import Mathlib.Logic.Function.Basic
import JMan.Lib.Loop

/-!
# JMan — the lock of a cache file

`FileLock` of `cache.rs` on Unix, as steps of any number of processes each of which may stop
between two steps: a lock file is created exclusively, gets the id of its process, is judged
by those that find it, and is removed by its path.

* `lock_is_exclusive` — in every run of such steps one process at most holds the lock, and
  a process drops no lock but its own.
* `recovered_lock_is_removed` — three processes, two of which recover the lock of the first.
-/

namespace JMan.Lsp.CacheLock

-- States
-- ---

abbrev Process := Nat

/-- What `std::process::id()` is on Unix. -/
abbrev Pid := { n : Nat // 0 < n ∧ n < 2147483648 }

/-- A file under the path of the lock. The first two fields are not in the file system. -/
structure LockFile where
  id : Nat
  creator : Process
  /-- The process id that can be read from it. -/
  owner : Option Nat
  modified : Nat
deriving DecidableEq

/-- Where a process stands in `acquire`, with the attempts that are left. -/
inductive Phase where
  | unstarted
  | idle
  | trying (left : Nat)
  /-- The lock file is there already. -/
  | found (left : Nat)
  /-- `lock_is_stale`, with the owner read from the file -/
  | suspects (left owner id : Nat)
  /-- `lock_is_stale`, where no owner could be read -/
  | ownerless (left : Nat)
  | stale (left id : Nat)
  /-- The lock file is created, and not written yet. -/
  | created (id : Nat)
  | holding (id : Nat)
deriving DecidableEq

structure State where
  file : Option LockFile
  nextId : Nat
  live : Finset Process
  phase : Process → Phase
  now : Nat

def start : State := ⟨none, 0, ∅, fun _ => .unstarted, 0⟩

/-- `Duration::from_secs(60 * 60)`, in nanoseconds -/
def maxAge : Nat := 60 * 60 * 1000000000

/-- `elapsed`, which is an error for a time that is yet to come -/
def elapsed (now modified : Nat) : Option Nat := if modified ≤ now then some (now - modified) else none

def isOld (now : Nat) (file : LockFile) : Bool := (elapsed now file.modified).any fun age => maxAge < age

/-- `process_is_alive`, with the answer of the system to a test signal -/
def processIsAlive (owner : Nat) (answer : Bool) : Bool := owner < 2147483648 && owner ≠ 0 && answer

-- Steps
-- ---

inductive Act where
  | spawn (p : Process)
  | crash (p : Process)
  | clock (now : Nat)
  | acquire (p : Process)
  | create (p : Process)
  /-- The file cannot be created for another reason than that it exists. -/
  | refuse (p : Process)
  | write (p : Process) (succeeds : Bool)
  | read (p : Process)
  | test (p : Process) (answer : Bool)
  | inspect (p : Process)
  | remove (p : Process) (succeeds : Bool)
  | drop (p : Process) (succeeds : Bool)
deriving Repr

namespace State

variable (pid : Process → Pid) (s : State)

def running (p : Process) : Option Phase := if p ∈ s.live then some (s.phase p) else none

def enter (p : Process) (phase : Phase) : State := { s with phase := Function.update s.phase p phase }

/-- The next attempt, or the error after the last. -/
def again (p : Process) : Nat → State
  | 0 => s.enter p .idle
  | left + 1 => s.enter p (.trying left)

/-- `remove_file` -/
def unlink (succeeds : Bool) : State := if succeeds then { s with file := none } else s

def createNew (p : Process) (left : Nat) : State :=
  match s.file with
  | none =>
    { s with
      file := some ⟨s.nextId, p, none, s.now⟩
      nextId := s.nextId + 1
      phase := Function.update s.phase p (.created s.nextId) }
  | some _ => s.enter p (.found left)

/-- The file that was created is written, also if it is not under the path any more. -/
def writeOwner (p : Process) (id : Nat) (succeeds : Bool) : State :=
  if succeeds then
    { s with
      file := s.file.map fun file =>
        if file.id = id then { file with owner := some (pid p).1, modified := s.now } else file }
  else s

def readOwner (p : Process) (left : Nat) : State :=
  match s.file with
  | none => s.enter p (.ownerless left)
  | some file =>
    match file.owner with
    | none => s.enter p (.ownerless left)
    | some owner => s.enter p (.suspects left owner file.id)

def inspectAge (p : Process) (left : Nat) : State :=
  match s.file with
  | none => s.again p left
  | some file => if isOld s.now file then s.enter p (.stale left file.id) else s.again p left

def step : Act → Option State
  | .spawn p =>
    if s.phase p = .unstarted then some { s.enter p .idle with live := insert p s.live } else none
  | .crash p => some { s with live := s.live.erase p }
  | .clock now => some { s with now := now }
  | .acquire p =>
    match s.running p with
    | some .idle => some (s.enter p (.trying 29999))
    | _ => none
  | .create p =>
    match s.running p with
    | some (.trying left) => some (s.createNew p left)
    | _ => none
  | .refuse p =>
    match s.running p with
    | some (.trying _) => some (s.enter p .idle)
    | _ => none
  | .write p succeeds =>
    match s.running p with
    | some (.created id) => some ((s.writeOwner pid p id succeeds).enter p (.holding id))
    | _ => none
  | .read p =>
    match s.running p with
    | some (.found left) => some (s.readOwner p left)
    | _ => none
  | .test p answer =>
    match s.running p with
    | some (.suspects left owner id) =>
      -- the system knows every process that is alive
      if answer ∨ ∀ q ∈ s.live, (pid q).1 ≠ owner then
        if processIsAlive owner answer then some (s.again p left) else some (s.enter p (.stale left id))
      else none
    | _ => none
  | .inspect p =>
    match s.running p with
    | some (.ownerless left) => some (s.inspectAge p left)
    | _ => none
  | .remove p succeeds =>
    match s.running p with
    | some (.stale left _) => some ((s.unlink succeeds).again p left)
    | _ => none
  | .drop p succeeds =>
    match s.running p with
    | some (.holding _) => some ((s.unlink succeeds).enter p .idle)
    | _ => none

def next (act : Act) : State := (s.step pid act).getD s

end State

def run (pid : Process → Pid) (acts : List Act) : State := acts.foldl (State.next pid) start

-- What should hold
-- ---

/-- A process has the lock from when it has created the file. -/
def Phase.owns : Phase → Bool
  | .created _ | .holding _ => true
  | _ => false

def Holds (s : State) (p : Process) : Prop := p ∈ s.live ∧ (s.phase p).owns

def Exclusive (s : State) : Prop := ∀ p q, Holds s p → Holds s q → p = q

/-- No lock of another live process is dropped. -/
def DropsOwn (s : State) (act : Act) : Prop :=
  ∀ p succeeds id file, act = .drop p succeeds → s.running p = some (.holding id) →
    s.file = some file → file.creator ≠ p → file.creator ∉ s.live

/-- A lock that was found stale is removed while it is there, and a lock that no process id
can be read from gets old only if its process has died. -/
def Recovers (s : State) : Act → Prop
  | .remove p _ => ∀ left id file, s.running p = some (.stale left id) → s.file = some file → file.id = id
  | .inspect p => ∀ left file, s.running p = some (.ownerless left) → s.file = some file →
      isOld s.now file → file.creator ∉ s.live
  | _ => True

-- The invariant
-- ---

section Soundness

variable (pid : Process → Pid) (s : State)

def Relies (p : Process) : Phase → Prop
  | .unstarted => p ∉ s.live
  | .suspects _ owner id =>
    id < s.nextId ∧ ∀ file, s.file = some file → file.id = id → owner = (pid file.creator).1
  | .stale _ id => id < s.nextId ∧ ∀ file, s.file = some file → file.id = id → file.creator ∉ s.live
  | .created id | .holding id => p ∈ s.live → ∃ file, s.file = some file ∧ file.id = id ∧ file.creator = p
  | _ => True

structure WellWritten (file : LockFile) : Prop where
  id_lt : file.id < s.nextId
  started : s.phase file.creator ≠ .unstarted
  owner : ∀ owner, file.owner = some owner → owner = (pid file.creator).1

structure Sound : Prop where
  relies : ∀ p, Relies pid s p (s.phase p)
  file : ∀ file, s.file = some file → WellWritten pid s file

variable {pid s} {p q : Process} {act : Act} {phase : Phase}

theorem running_iff : s.running p = some phase ↔ p ∈ s.live ∧ s.phase p = phase := by
  unfold State.running
  split
  · next hlive => simp [hlive]
  · next hdead => simp [hdead]

theorem Sound.creator (h : Sound pid s) (hp : Holds s p) :
    ∃ file, s.file = some file ∧ file.creator = p := by
  obtain ⟨hlive, howns⟩ := hp
  have hrelies := h.relies p
  cases hphase : s.phase p with
  | created id =>
    rw [hphase] at hrelies
    obtain ⟨file, hfile, -, hcreator⟩ := hrelies hlive
    exact ⟨file, hfile, hcreator⟩
  | holding id =>
    rw [hphase] at hrelies
    obtain ⟨file, hfile, -, hcreator⟩ := hrelies hlive
    exact ⟨file, hfile, hcreator⟩
  | _ =>
    rw [hphase] at howns
    cases howns

theorem Sound.exclusive (h : Sound pid s) : Exclusive s := by
  intro p q hp hq
  obtain ⟨file, hfile, rfl⟩ := h.creator hp
  obtain ⟨other, hother, rfl⟩ := h.creator hq
  rw [hfile] at hother
  cases hother
  rfl

theorem Sound.dropsOwn (h : Sound pid s) : DropsOwn s act := by
  intro p succeeds id file hact hrunning hfile hother
  obtain ⟨hlive, hphase⟩ := running_iff.mp hrunning
  obtain ⟨own, hown, hcreator⟩ := h.creator ⟨hlive, by rw [hphase]; rfl⟩
  rw [hfile] at hown
  cases hown
  exact absurd hcreator hother

theorem sound_start : Sound pid start := by
  constructor
  · intro p
    show p ∉ (∅ : Finset Process)
    simp
  · intro file hfile
    cases hfile

/-- What a process relies on survives a change of the state that keeps the file it holds,
puts no file in the place of one it has seen, and revives no creator. -/
theorem Relies.mono {s' : State} (h : Relies pid s p phase) (hlive : p ∈ s'.live → p ∈ s.live)
    (hid : s.nextId ≤ s'.nextId)
    (hseen : ∀ file', s'.file = some file' → file'.id < s.nextId →
      ∃ file, s.file = some file ∧ file.id = file'.id ∧ file.creator = file'.creator)
    (hdead : ∀ file, s.file = some file → file.creator ∉ s.live → file.creator ∉ s'.live)
    (hkept : phase.owns → p ∈ s'.live → ∀ file, s.file = some file → file.creator = p →
      ∃ file', s'.file = some file' ∧ file'.id = file.id ∧ file'.creator = p) :
    Relies pid s' p phase := by
  cases phase with
  | unstarted => exact fun hp => h (hlive hp)
  | suspects left owner id =>
    refine ⟨lt_of_lt_of_le h.1 hid, ?_⟩
    intro file' hfile' hsame
    obtain ⟨file, hfile, hfileId, hcreator⟩ := hseen file' hfile' (hsame ▸ h.1)
    rw [← hcreator]
    exact h.2 file hfile (hfileId.trans hsame)
  | stale left id =>
    refine ⟨lt_of_lt_of_le h.1 hid, ?_⟩
    intro file' hfile' hsame
    obtain ⟨file, hfile, hfileId, hcreator⟩ := hseen file' hfile' (hsame ▸ h.1)
    rw [← hcreator]
    exact hdead file hfile (h.2 file hfile (hfileId.trans hsame))
  | created id =>
    intro hp
    obtain ⟨file, hfile, rfl, hcreator⟩ := h (hlive hp)
    exact hkept rfl hp file hfile hcreator
  | holding id =>
    intro hp
    obtain ⟨file, hfile, rfl, hcreator⟩ := h (hlive hp)
    exact hkept rfl hp file hfile hcreator
  | _ => trivial

-- Steps that change where one process stands

theorem Sound.enter (h : Sound pid s) (hstarted : phase ≠ .unstarted) (hrelies : Relies pid s p phase) :
    Sound pid (s.enter p phase) := by
  have hsame (q : Process) (phase' : Phase) : Relies pid (s.enter p phase) q phase' = Relies pid s q phase' := by
    cases phase' <;> rfl
  constructor
  · intro q
    rw [hsame]
    by_cases hqp : q = p
    · subst hqp
      simpa [State.enter] using hrelies
    · simpa [State.enter, Function.update_of_ne hqp] using h.relies q
  · intro file hfile
    obtain ⟨hid, hcreator, howner⟩ := h.file file hfile
    refine ⟨hid, ?_, howner⟩
    by_cases hp : file.creator = p
    · simpa [State.enter, hp] using hstarted
    · simpa [State.enter, Function.update_of_ne hp] using hcreator

theorem Sound.again (h : Sound pid s) (left : Nat) : Sound pid (s.again p left) := by
  cases left with
  | zero => exact h.enter (by simp) trivial
  | succ left => exact h.enter (by simp) trivial

theorem Sound.spawn (h : Sound pid s) (hp : s.phase p = .unstarted) :
    Sound pid { s.enter p .idle with live := insert p s.live } := by
  have hentered : Sound pid (s.enter p .idle) := h.enter (by simp) trivial
  constructor
  · intro q
    by_cases hqp : q = p
    · subst hqp
      simp [State.enter, Relies]
    · refine (hentered.relies q).mono ?_ le_rfl ?_ ?_ ?_
      · exact fun hq => (Finset.mem_insert.mp hq).resolve_left hqp
      · exact fun file hfile _ => ⟨file, hfile, rfl, rfl⟩
      · intro file hfile hdead hlive
        rcases Finset.mem_insert.mp hlive with hnew | hold
        · exact (h.file file hfile).started (hnew ▸ hp)
        · exact hdead hold
      · exact fun _ _ file hfile hcreator => ⟨file, hfile, rfl, hcreator⟩
  · intro file hfile
    obtain ⟨hid, hcreator, howner⟩ := hentered.file file hfile
    exact ⟨hid, hcreator, howner⟩

theorem Sound.crash (h : Sound pid s) : Sound pid { s with live := s.live.erase p } := by
  have hfewer {q : Process} (hq : q ∈ s.live.erase p) : q ∈ s.live := Finset.mem_of_mem_erase hq
  constructor
  · intro q
    refine (h.relies q).mono hfewer le_rfl ?_ ?_ ?_
    · exact fun file hfile _ => ⟨file, hfile, rfl, rfl⟩
    · exact fun file _ hdead hlive => hdead (hfewer hlive)
    · exact fun _ _ file hfile hcreator => ⟨file, hfile, rfl, hcreator⟩
  · intro file hfile
    obtain ⟨hid, hcreator, howner⟩ := h.file file hfile
    exact ⟨hid, hcreator, howner⟩

-- Steps that change the file

theorem Sound.createNew (h : Sound pid s) (left : Nat) : Sound pid (s.createNew p left) := by
  unfold State.createNew
  split
  · next hnone =>
    constructor
    · intro q
      by_cases hqp : q = p
      · subst hqp
        simp [Relies]
      · simp only [Function.update_of_ne hqp]
        refine (h.relies q).mono id (Nat.le_succ _) ?_ ?_ ?_
        · intro file hfile hlt
          cases hfile
          exact absurd hlt (lt_irrefl _)
        · intro file hfile
          rw [hnone] at hfile
          cases hfile
        · intro _ _ file hfile
          rw [hnone] at hfile
          cases hfile
    · intro file hfile
      cases hfile
      exact ⟨Nat.lt_succ_self _, by simp, by simp⟩
  · exact h.enter (by simp) trivial

theorem Sound.writeOwner {id : Nat} (h : Sound pid s) (hp : p ∈ s.live) (hphase : s.phase p = .created id)
    (succeeds : Bool) : Sound pid (s.writeOwner pid p id succeeds) := by
  unfold State.writeOwner
  cases succeeds with
  | false => exact h
  | true =>
    rw [if_pos rfl]
    set written : LockFile → LockFile := fun file =>
      if file.id = id then { file with owner := some (pid p).1, modified := s.now } else file
    have hid (file : LockFile) : (written file).id = file.id := by
      show (ite _ _ _ : LockFile).id = _
      split <;> rfl
    have hcreator (file : LockFile) : (written file).creator = file.creator := by
      show (ite _ _ _ : LockFile).creator = _
      split <;> rfl
    constructor
    · intro q
      refine (h.relies q).mono (fun hq => hq) le_rfl ?_ (fun _ _ hdead => hdead) ?_
      · intro file hfile _
        obtain ⟨old, hold, rfl⟩ := Option.map_eq_some_iff.mp hfile
        exact ⟨old, hold, (hid old).symm, (hcreator old).symm⟩
      · intro _ _ file hfile hown
        exact ⟨written file, by simp [hfile], hid file, (hcreator file).trans hown⟩
    · intro file hfile
      obtain ⟨old, hold, rfl⟩ := Option.map_eq_some_iff.mp hfile
      obtain ⟨hlt, hstarted, howner⟩ := h.file old hold
      refine ⟨by rw [hid]; exact hlt, by rw [hcreator]; exact hstarted, ?_⟩
      intro owner hnew
      rw [hcreator]
      by_cases hsame : old.id = id
      · -- it is the file this process has created
        have hrelies := h.relies p
        rw [hphase] at hrelies
        obtain ⟨mine, hmine, -, hown⟩ := hrelies hp
        rw [hold] at hmine
        cases hmine
        simp only [written, if_pos hsame] at hnew
        rw [hown]
        exact (Option.some.inj hnew).symm
      · simp only [written, if_neg hsame] at hnew
        exact howner owner hnew

theorem Sound.unlink (h : Sound pid s) (hnone : ∀ q, Holds s q → q = p) (succeeds : Bool) {phase : Phase}
    (hgoesOn : phase = .idle ∨ ∃ left, phase = .trying left) :
    Sound pid ((s.unlink succeeds).enter p phase) := by
  have hstarted : phase ≠ .unstarted := by
    rintro rfl
    simp at hgoesOn
  have hfree (s' : State) : Relies pid s' p phase := by
    rcases hgoesOn with rfl | ⟨left, rfl⟩
    · trivial
    · trivial
  cases succeeds with
  | false => exact h.enter hstarted (hfree s)
  | true =>
    constructor
    · intro q
      by_cases hqp : q = p
      · subst hqp
        simpa [State.enter] using hfree _
      · simp only [State.enter, Function.update_of_ne hqp]
        refine (h.relies q).mono (fun hq => hq) le_rfl ?_ (fun _ _ hdead => hdead) ?_
        · intro file hfile
          cases hfile
        · exact fun howns hlive => absurd (hnone q ⟨hlive, howns⟩) hqp
    · intro file hfile
      cases hfile

theorem Sound.clock (h : Sound pid s) (now : Nat) : Sound pid { s with now := now } := by
  constructor
  · intro q
    refine (h.relies q).mono (fun hq => hq) le_rfl ?_ (fun _ _ hdead => hdead) ?_
    · exact fun file hfile _ => ⟨file, hfile, rfl, rfl⟩
    · exact fun _ _ file hfile hcreator => ⟨file, hfile, rfl, hcreator⟩
  · intro file hfile
    obtain ⟨hid, hcreator, howner⟩ := h.file file hfile
    exact ⟨hid, hcreator, howner⟩

-- Steps of `acquire`

theorem Sound.write {id : Nat} (h : Sound pid s) (hp : p ∈ s.live) (hphase : s.phase p = .created id)
    (succeeds : Bool) : Sound pid ((s.writeOwner pid p id succeeds).enter p (.holding id)) := by
  have hwritten := h.writeOwner hp hphase succeeds
  have hsame : (s.writeOwner pid p id succeeds).phase p = .created id := by
    cases succeeds with
    | false => exact hphase
    | true => exact hphase
  have hrelies := hwritten.relies p
  rw [hsame] at hrelies
  exact hwritten.enter (by simp) hrelies

theorem Sound.readOwner (h : Sound pid s) (left : Nat) : Sound pid (s.readOwner p left) := by
  unfold State.readOwner
  split
  · exact h.enter (by simp) trivial
  · next file hfile =>
    split
    · exact h.enter (by simp) trivial
    · next owner howner =>
      obtain ⟨hid, -, hwritten⟩ := h.file file hfile
      refine h.enter (by simp) ⟨hid, ?_⟩
      intro other hother _
      rw [hfile] at hother
      cases hother
      exact hwritten owner howner

theorem processIsAlive_pid (answer : Bool) : processIsAlive (pid p).1 answer = answer := by
  have hpos := (pid p).2.1
  have hlt := (pid p).2.2
  have hne : (pid p).1 ≠ 0 := by omega
  simp [processIsAlive, hlt, hne]

theorem Sound.test {left owner id : Nat} {answer : Bool} (h : Sound pid s)
    (hphase : s.phase p = .suspects left owner id) (hanswer : answer ∨ ∀ q ∈ s.live, (pid q).1 ≠ owner)
    (hdead : ¬ processIsAlive owner answer) : Sound pid (s.enter p (.stale left id)) := by
  have hrelies := h.relies p
  rw [hphase] at hrelies
  obtain ⟨hid, howner⟩ := hrelies
  refine h.enter (by simp) ⟨hid, ?_⟩
  intro file hfile hsame hlive
  have hpid := howner file hfile hsame
  rw [hpid, processIsAlive_pid] at hdead
  exact hanswer.resolve_left hdead file.creator hlive hpid.symm

theorem Sound.inspectAge {left : Nat} (h : Sound pid s)
    (hold : ∀ file, s.file = some file → isOld s.now file → file.creator ∉ s.live) :
    Sound pid (s.inspectAge p left) := by
  unfold State.inspectAge
  split
  · exact h.again left
  · next file hfile =>
    split
    · next hage =>
      refine h.enter (by simp) ⟨(h.file file hfile).id_lt, ?_⟩
      intro other hother _
      rw [hfile] at hother
      cases hother
      exact hold file hfile hage
    · exact h.again left

theorem Sound.remove {left id : Nat} (h : Sound pid s) (hphase : s.phase p = .stale left id)
    (hthere : ∀ file, s.file = some file → file.id = id) (succeeds : Bool) :
    Sound pid ((s.unlink succeeds).again p left) := by
  have hnone : ∀ q, Holds s q → q = p := by
    intro q hq
    obtain ⟨file, hfile, rfl⟩ := h.creator hq
    have hrelies := h.relies p
    rw [hphase] at hrelies
    exact absurd hq.1 (hrelies.2 file hfile (hthere file hfile))
  cases left with
  | zero => exact h.unlink hnone succeeds (Or.inl rfl)
  | succ left => exact h.unlink hnone succeeds (Or.inr ⟨left, rfl⟩)

theorem Sound.drop {id : Nat} (h : Sound pid s) (hp : p ∈ s.live) (hphase : s.phase p = .holding id)
    (succeeds : Bool) : Sound pid ((s.unlink succeeds).enter p .idle) := by
  have hown : Holds s p := ⟨hp, by rw [hphase]; rfl⟩
  exact h.unlink (fun q hq => h.exclusive q p hq hown) succeeds (Or.inl rfl)

/-- **A step keeps what each process relies on**, if a lock is recovered only where it is
the one found stale. -/
theorem Sound.next (h : Sound pid s) (hrecovers : Recovers s act) : Sound pid (s.next pid act) := by
  cases hstep : s.step pid act with
  | none =>
    rw [State.next, hstep]
    exact h
  | some s' =>
    rw [State.next, hstep, Option.getD_some]
    cases act with
    | clock now =>
      cases hstep
      exact h.clock now
    | crash p =>
      cases hstep
      exact h.crash
    | spawn p =>
      simp only [State.step, Option.ite_none_right_eq_some] at hstep
      obtain ⟨hphase, hstep⟩ := hstep
      cases hstep
      exact h.spawn hphase
    | acquire p =>
      simp only [State.step] at hstep
      split at hstep
      · cases hstep
        exact h.enter (by simp) trivial
      · cases hstep
    | create p =>
      simp only [State.step] at hstep
      split at hstep
      · cases hstep
        exact h.createNew _
      · cases hstep
    | refuse p =>
      simp only [State.step] at hstep
      split at hstep
      · cases hstep
        exact h.enter (by simp) trivial
      · cases hstep
    | write p succeeds =>
      simp only [State.step] at hstep
      split at hstep
      · next id hrunning =>
        cases hstep
        obtain ⟨hlive, hphase⟩ := running_iff.mp hrunning
        exact h.write hlive hphase succeeds
      · cases hstep
    | read p =>
      simp only [State.step] at hstep
      split at hstep
      · cases hstep
        exact h.readOwner _
      · cases hstep
    | test p answer =>
      simp only [State.step] at hstep
      split at hstep
      · next left owner id hrunning =>
        rw [Option.ite_none_right_eq_some] at hstep
        obtain ⟨hanswer, hstep⟩ := hstep
        split at hstep
        · cases hstep
          exact h.again left
        · next hdead =>
          cases hstep
          exact h.test (running_iff.mp hrunning).2 hanswer hdead
      · cases hstep
    | inspect p =>
      simp only [State.step] at hstep
      split at hstep
      · next left hrunning =>
        cases hstep
        exact h.inspectAge fun file hfile hage => hrecovers left file hrunning hfile hage
      · cases hstep
    | remove p succeeds =>
      simp only [State.step] at hstep
      split at hstep
      · next left id hrunning =>
        cases hstep
        exact h.remove (running_iff.mp hrunning).2 (fun file hfile => hrecovers left id file hrunning hfile) succeeds
      · cases hstep
    | drop p succeeds =>
      simp only [State.step] at hstep
      split at hstep
      · next id hrunning =>
        cases hstep
        obtain ⟨hlive, hphase⟩ := running_iff.mp hrunning
        exact h.drop hlive hphase succeeds
      · cases hstep

end Soundness

-- Runs
-- ---

theorem sound_run {pid : Process → Pid} {acts : List Act}
    (h : Loop.Guarded Recovers (State.next pid) start acts) : Sound pid (run pid acts) :=
  h.invariant (Sound pid) (fun _ _ _ hsound hrecovers => hsound.next hrecovers) sound_start

/-- **The lock excludes.** In every run whose processes recover only what they found stale,
one process at most holds the lock at any time, and none drops the lock of another. -/
theorem lock_is_exclusive (pid : Process → Pid) (acts before after : List Act)
    (h : Loop.Guarded Recovers (State.next pid) start acts) (hacts : acts = before ++ after) :
    Exclusive (run pid before) ∧ ∀ act rest, after = act :: rest → DropsOwn (run pid before) act := by
  subst hacts
  have hsound : Sound pid (run pid before) := sound_run h.of_append
  exact ⟨hsound.exclusive, fun act _ _ => hsound.dropsOwn⟩

def pidOf (p : Process) : Pid := ⟨p % 1000 + 1, by omega, by omega⟩

def enterLock (p : Process) : List Act := [.create p, .write p true]

def findStale (p : Process) : List Act := [.spawn p, .acquire p, .create p, .read p, .test p false]

def recovery : List Act :=
  [.spawn 0, .acquire 0] ++ enterLock 0 ++ [.crash 0] ++ findStale 1 ++ [.remove 1 true] ++ enterLock 1

/-- Two processes find the lock of a third stale. The first of them recovers it, and the
second removes what the first has created. -/
def race : List Act :=
  [.spawn 0, .acquire 0] ++ enterLock 0 ++ [.crash 0] ++ findStale 1 ++ findStale 2 ++
    [.remove 1 true] ++ enterLock 1 ++ [.remove 2 true] ++ enterLock 2

theorem lock_is_exclusive_recovery : Exclusive (run pidOf recovery) := by
  refine (lock_is_exclusive pidOf recovery recovery [] ?_ (List.append_nil _).symm).1
  refine ⟨trivial, trivial, trivial, trivial, trivial, trivial, trivial, trivial, trivial, trivial, ?_,
    trivial, trivial, trivial⟩
  intro left id file hrunning hfile
  have hseen : some (Phase.stale left id) = some (.stale 29999 0) := hrunning.symm.trans (by decide)
  have hthere : some file = some ⟨0, 0, some 1, 0⟩ := hfile.symm.trans (by decide)
  cases hseen
  cases hthere
  rfl

/-- **A lock is removed after it has been recovered**: both processes hold it then, and the
first of them will drop the lock of the other. -/
theorem recovered_lock_is_removed :
    (run pidOf race).running 1 = some (.holding 1) ∧ (run pidOf race).running 2 = some (.holding 2) ∧
      ¬ Exclusive (run pidOf race) ∧ ¬ DropsOwn (run pidOf race) (.drop 1 true) := by
  have hfirst : (run pidOf race).running 1 = some (.holding 1) := by decide
  have hsecond : (run pidOf race).running 2 = some (.holding 2) := by decide
  have hfile : (run pidOf race).file = some ⟨2, 2, some 3, 0⟩ := by decide
  have hholds {p : Process} {id : Nat} (h : (run pidOf race).running p = some (.holding id)) :
      Holds (run pidOf race) p := by
    obtain ⟨hlive, hphase⟩ := running_iff.mp h
    exact ⟨hlive, by rw [hphase]; rfl⟩
  refine ⟨hfirst, hsecond, ?_, ?_⟩
  · intro h
    exact absurd (h 1 2 (hholds hfirst) (hholds hsecond)) (by decide)
  · intro h
    exact h 1 true 1 _ rfl hfirst hfile (by decide) (hholds hsecond).1

end JMan.Lsp.CacheLock
