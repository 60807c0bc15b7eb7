import Mathlib.Control.Lawful
import Mathlib.Data.List.Forall2
import Mathlib.Data.List.Nodup
import Mathlib.Data.Set.Insert
import Mathlib.Logic.Function.Basic
import Mathlib.Order.Defs.Unbundled

/-!
# File stores with faults

Programs over a store of files in which any operation can fail. A `Program` is
a tree of operations; a world is the files, what is still to happen to the
operations, and the accesses made so far. Running a program in a world leaves a
world, whether it succeeds or not, and a quantifier over worlds is a quantifier
over every point of failure.

* `Guarantees` — a relation between the worlds before and after, for a
  preorder: it composes along sequences, handlers and loops.
* `Touches` — the guarantee that no file outside a set changes.
* `Accesses` — the guarantee that only certain files are opened.
* `KeepsOnError` — no file outside a set changes in the runs that fail.
* `Avoids` — a run meets no operation in a world where it would do harm.
-/

namespace FileStore

variable {ι β ε α γ δ κ : Type}

-- Worlds

/-- What happens to an operation: a failing write or removal of a tree leaves
something behind. -/
inductive Outcome (β : Type) where
  | succeeds
  | fails (left : Option β)

inductive Operation (ι β : Type) where
  | read (path : ι)
  | look (path : ι)
  | write (path : ι) (contents : β)
  | rename (source target : ι)
  | remove (path : ι)
  /-- Removes a directory with all it holds. -/
  | clear (path : ι)
  /-- A step outside the store. -/
  | step

inductive Access (ι : Type) where
  | reads (path : ι)
  | changes (path : ι)
deriving DecidableEq

def Access.path : Access ι → ι
  | .reads path => path
  | .changes path => path

def Operation.accesses : Operation ι β → List (Access ι)
  | .read path => [.reads path]
  | .look path => [.reads path]
  | .write path _ => [.changes path]
  | .rename source target => [.changes source, .changes target]
  | .remove path => [.changes path]
  | .clear path => [.changes path]
  | .step => []

structure World (ι β : Type) where
  files : ι → Option β
  outcomes : List (Outcome β)
  trace : List (Access ι)

def World.calm (files : ι → Option β) : World ι β := ⟨files, [], []⟩

/-- What happens to the next operation; past the end of the list nothing fails. -/
def World.next (w : World ι β) : Outcome β := w.outcomes.headD .succeeds

section Perform

variable [DecidableEq ι]

def Operation.succeed (files : ι → Option β) : Operation ι β → ι → Option β
  | .write path contents => Function.update files path (some contents)
  | .rename source target =>
    match files source with
    | none => files
    | some contents => Function.update (Function.update files source none) target (some contents)
  | .remove path => Function.update files path none
  | .clear path => Function.update files path none
  | _ => files

def Operation.fail (files : ι → Option β) (left : Option β) : Operation ι β → ι → Option β
  | .write path _ => Function.update files path left
  | .clear path => Function.update files path left
  | _ => files

/-- What a succeeding operation reports: the file it found, or that there is
none. A rename without a source fails. -/
def Operation.report (files : ι → Option β) : Operation ι β → Option (Option β)
  | .read path => some (files path)
  | .look path => some (files path)
  | .rename source _ => (files source).map some
  | _ => some none

/-- One operation: what it reports, `none` if it failed, and the world after it. -/
def Operation.perform (operation : Operation ι β) (w : World ι β) :
    Option (Option β) × World ι β :=
  match w.next with
  | .succeeds =>
    (operation.report w.files,
      ⟨operation.succeed w.files, w.outcomes.tail, w.trace ++ operation.accesses⟩)
  | .fails left =>
    (none, ⟨operation.fail w.files left, w.outcomes.tail, w.trace ++ operation.accesses⟩)

end Perform

-- Programs

inductive Program (ι β ε : Type) (α : Type) where
  | done (a : α)
  | fail (e : ε)
  | perform (operation : Operation ι β) (next : Option (Option β) → Program ι β ε α)

namespace Program

protected def bind : Program ι β ε α → (α → Program ι β ε γ) → Program ι β ε γ
  | .done a, f => f a
  | .fail e, _ => .fail e
  | .perform operation next, f => .perform operation fun report => (next report).bind f

protected def tryCatch : Program ι β ε α → (ε → Program ι β ε α) → Program ι β ε α
  | .done a, _ => .done a
  | .fail e, handler => handler e
  | .perform operation next, handler =>
    .perform operation fun report => (next report).tryCatch handler

instance : Monad (Program ι β ε) where
  pure := .done
  bind := Program.bind

instance : MonadExcept ε (Program ι β ε) where
  throw := .fail
  tryCatch := Program.tryCatch

theorem bind_done (x : Program ι β ε α) : x.bind .done = x := by
  induction x with
  | done a => rfl
  | fail e => rfl
  | perform operation next ih => exact congrArg _ (funext ih)

theorem bind_assoc (x : Program ι β ε α) (f : α → Program ι β ε γ) (g : γ → Program ι β ε δ) :
    (x.bind f).bind g = x.bind fun a => (f a).bind g := by
  induction x with
  | done a => rfl
  | fail e => rfl
  | perform operation next ih => exact congrArg _ (funext ih)

instance : LawfulMonad (Program ι β ε) :=
  LawfulMonad.mk' _ bind_done (fun _ _ => rfl) bind_assoc

end Program

def read (error : ε) (path : ι) : Program ι β ε (Option β) :=
  .perform (.read path) fun
    | some contents => .done contents
    | none => .fail error

/-- Whether a file is there; a failing look finds nothing. -/
def isThere (path : ι) : Program ι β ε Bool :=
  .perform (.look path) fun report => .done (report.any Option.isSome)

def act (error : ε) (operation : Operation ι β) : Program ι β ε Unit :=
  .perform operation fun
    | some _ => .done ()
    | none => .fail error

def attempt (operation : Operation ι β) : Program ι β ε Unit :=
  .perform operation fun _ => .done ()

/-- Replaces a file by writing a temporary one and moving it there. -/
def install (writing moving : ε) (temporary path : ι) (contents : β) : Program ι β ε Unit := do
  act writing (.write temporary contents)
  act moving (.rename temporary path)

-- Running

variable [DecidableEq ι]

def exec : Program ι β ε α → World ι β → Except ε α × World ι β
  | .done a, w => (.ok a, w)
  | .fail e, w => (.error e, w)
  | .perform operation next, w => exec (next (operation.perform w).1) (operation.perform w).2

section Exec

variable {w w' : World ι β} {x : Program ι β ε α} {f : α → Program ι β ε γ}

@[simp] theorem exec_pure (a : α) (w : World ι β) :
    exec (pure a : Program ι β ε α) w = (.ok a, w) := rfl

@[simp] theorem exec_throw (e : ε) (w : World ι β) :
    exec (throw e : Program ι β ε α) w = (.error e, w) := rfl

theorem exec_bind_ok {a : α} (h : exec x w = (.ok a, w')) : exec (x >>= f) w = exec (f a) w' := by
  change exec (x.bind f) w = _
  induction x generalizing w with
  | done b =>
    cases h
    rfl
  | fail e => cases h
  | perform operation next ih => exact ih _ h

theorem exec_bind_error {e : ε} (h : exec x w = (.error e, w')) :
    exec (x >>= f) w = (.error e, w') := by
  change exec (x.bind f) w = _
  induction x generalizing w with
  | done b => cases h
  | fail e' =>
    cases h
    rfl
  | perform operation next ih => exact ih _ h

theorem exec_bind_eq_ok {c : γ} : exec (x >>= f) w = (.ok c, w') ↔
    ∃ a v, exec x w = (.ok a, v) ∧ exec (f a) v = (.ok c, w') := by
  rcases h : exec x w with ⟨result, v⟩
  cases result with
  | ok a =>
    rw [exec_bind_ok h]
    simp
  | error e =>
    rw [exec_bind_error h]
    simp

theorem exec_bind_eq_error {e : ε} : exec (x >>= f) w = (.error e, w') ↔
    exec x w = (.error e, w') ∨
      ∃ a v, exec x w = (.ok a, v) ∧ exec (f a) v = (.error e, w') := by
  rcases h : exec x w with ⟨result, v⟩
  cases result with
  | ok a =>
    rw [exec_bind_ok h]
    simp
  | error e' =>
    rw [exec_bind_error h]
    simp

theorem exec_bind_cases {result : Except ε γ} (h : exec (x >>= f) w = (result, w')) :
    (∃ e, exec x w = (.error e, w') ∧ result = .error e) ∨
      ∃ a v, exec x w = (.ok a, v) ∧ exec (f a) v = (result, w') := by
  cases result with
  | ok c => exact Or.inr (exec_bind_eq_ok.mp h)
  | error e =>
    rcases exec_bind_eq_error.mp h with hx | hf
    · exact Or.inl ⟨e, hx, rfl⟩
    · exact Or.inr hf

theorem exec_tryCatch_ok {handler : ε → Program ι β ε α} {a : α} (h : exec x w = (.ok a, w')) :
    exec (tryCatch x handler) w = (.ok a, w') := by
  change exec (x.tryCatch handler) w = _
  induction x generalizing w with
  | done b => exact h
  | fail e => cases h
  | perform operation next ih => exact ih _ h

theorem exec_tryCatch_error {handler : ε → Program ι β ε α} {e : ε}
    (h : exec x w = (.error e, w')) : exec (tryCatch x handler) w = exec (handler e) w' := by
  change exec (x.tryCatch handler) w = _
  induction x generalizing w with
  | done b => cases h
  | fail e' =>
    cases h
    rfl
  | perform operation next ih => exact ih _ h

theorem exec_tryCatch_cases {handler : ε → Program ι β ε α} {result : Except ε α}
    (h : exec (tryCatch x handler) w = (result, w')) :
    (∃ a, exec x w = (.ok a, w') ∧ result = .ok a) ∨
      ∃ e v, exec x w = (.error e, v) ∧ exec (handler e) v = (result, w') := by
  rcases hx : exec x w with ⟨ok, v⟩
  cases ok with
  | ok a =>
    rw [exec_tryCatch_ok hx] at h
    cases h
    exact Or.inl ⟨a, rfl, rfl⟩
  | error e =>
    rw [exec_tryCatch_error hx] at h
    exact Or.inr ⟨e, v, rfl, h⟩

theorem exec_forM_cons_eq_ok {k : κ} {ks : List κ} {f : κ → Program ι β ε Unit} :
    exec ((k :: ks).forM f) w = (.ok (), w') ↔
      ∃ v, exec (f k) w = (.ok (), v) ∧ exec (ks.forM f) v = (.ok (), w') := by
  simp only [List.forM_eq_forM, List.forM_cons, exec_bind_eq_ok]
  constructor
  · rintro ⟨⟨⟩, v, hk, hks⟩
    exact ⟨v, hk, hks⟩
  · rintro ⟨v, hk, hks⟩
    exact ⟨(), v, hk, hks⟩

end Exec

section ExecOperations

variable {w w' : World ι β} {error : ε} {path : ι}

theorem exec_read_eq_ok {contents : Option β}
    (h : exec (read error path) w = (.ok contents, w')) :
    contents = w.files path ∧ w'.files = w.files := by
  unfold read exec Operation.perform at h
  cases hnext : w.next with
  | succeeds =>
    simp only [hnext, Operation.report] at h
    cases h
    exact ⟨rfl, rfl⟩
  | fails left =>
    simp only [hnext] at h
    cases h

theorem exec_act_eq_ok {operation : Operation ι β}
    (h : exec (act error operation) w = (.ok (), w')) :
    (operation.report w.files).isSome ∧ w'.files = operation.succeed w.files := by
  unfold act exec Operation.perform at h
  cases hnext : w.next with
  | succeeds =>
    simp only [hnext] at h
    cases hreport : operation.report w.files with
    | none =>
      simp only [hreport] at h
      cases h
    | some report =>
      simp only [hreport] at h
      cases h
      exact ⟨rfl, rfl⟩
  | fails left =>
    simp only [hnext] at h
    cases h

theorem next_of_exec_act {operation : Operation ι β}
    (h : exec (act error operation) w = (.ok (), w')) : w.next = .succeeds := by
  cases hnext : w.next with
  | succeeds => rfl
  | fails left =>
    simp only [act, exec, Operation.perform, hnext] at h
    cases h

theorem exec_act_eq_error {operation : Operation ι β} {e : ε}
    (h : exec (act error operation) w = (.error e, w')) :
    (∃ left, w.next = .fails left ∧ w'.files = operation.fail w.files left) ∨
      operation.report w.files = none ∧ w'.files = operation.succeed w.files := by
  unfold act exec Operation.perform at h
  cases hnext : w.next with
  | succeeds =>
    simp only [hnext] at h
    cases hreport : operation.report w.files with
    | none =>
      simp only [hreport] at h
      cases h
      exact Or.inr ⟨rfl, rfl⟩
    | some report =>
      simp only [hreport] at h
      cases h
  | fails left =>
    simp only [hnext] at h
    cases h
    exact Or.inl ⟨left, rfl, rfl⟩

theorem exec_remove_eq_ok (h : exec (act error (.remove path)) w = (.ok (), w')) :
    w'.files path = none := by
  rw [(exec_act_eq_ok h).2]
  exact Function.update_self ..

theorem exec_install_eq_ok {writing moving : ε} {temporary : ι} {contents : β}
    (h : exec (install writing moving temporary path contents) w = (.ok (), w')) :
    w'.files path = some contents := by
  obtain ⟨⟨⟩, v, hwrite, hmove⟩ := exec_bind_eq_ok.mp h
  have hsource : v.files temporary = some contents := by
    rw [(exec_act_eq_ok hwrite).2]
    exact Function.update_self ..
  rw [(exec_act_eq_ok hmove).2]
  simp only [Operation.succeed, hsource]
  exact Function.update_self ..

end ExecOperations

theorem exec_read_calm (error : ε) (path : ι) {w : World ι β} (hcalm : w.outcomes = []) :
    exec (read error path) w =
      (.ok (w.files path), ⟨w.files, [], w.trace ++ [.reads path]⟩) := by
  simp [read, exec, Operation.perform, World.next, hcalm, Operation.report, Operation.succeed,
    Operation.accesses]

theorem exec_act_calm (error : ε) (operation : Operation ι β) {w : World ι β}
    (hcalm : w.outcomes = []) (h : (operation.report w.files).isSome) : ∃ w',
      exec (act error operation) w = (.ok (), w') ∧ w'.outcomes = [] ∧
        w'.files = operation.succeed w.files := by
  obtain ⟨report, hreport⟩ := Option.isSome_iff_exists.mp h
  refine ⟨⟨operation.succeed w.files, [], w.trace ++ operation.accesses⟩, ?_, rfl, rfl⟩
  simp [act, exec, Operation.perform, World.next, hcalm, hreport]

/-- No operation the program performs is a bad one in the world it meets. -/
def Avoids (bad : Operation ι β → World ι β → Prop) : Program ι β ε α → World ι β → Prop
  | .done _, _ => True
  | .fail _, _ => True
  | .perform operation next, w =>
    ¬ bad operation w ∧ Avoids bad (next (operation.perform w).1) (operation.perform w).2

section Avoids

variable {bad : Operation ι β → World ι β → Prop} {x : Program ι β ε α} {w : World ι β}

theorem avoids_act {error : ε} {operation : Operation ι β}
    (h : Avoids bad (act error operation) w) : ¬ bad operation w := h.1

theorem Avoids.of_bind {f : α → Program ι β ε γ} (h : Avoids bad (x >>= f) w) :
    Avoids bad x w ∧ ∀ a w', exec x w = (.ok a, w') → Avoids bad (f a) w' := by
  change Avoids bad (x.bind f) w at h
  induction x generalizing w with
  | done a =>
    refine ⟨trivial, fun b w' hexec => ?_⟩
    cases hexec
    exact h
  | fail e =>
    refine ⟨trivial, fun b w' hexec => ?_⟩
    cases hexec
  | perform operation next ih =>
    obtain ⟨hnext, hrest⟩ := ih _ h.2
    exact ⟨⟨h.1, hnext⟩, hrest⟩

theorem Avoids.of_tryCatch {handler : ε → Program ι β ε α}
    (h : Avoids bad (tryCatch x handler) w) :
    Avoids bad x w ∧ ∀ e w', exec x w = (.error e, w') → Avoids bad (handler e) w' := by
  change Avoids bad (x.tryCatch handler) w at h
  induction x generalizing w with
  | done a =>
    refine ⟨trivial, fun e w' hexec => ?_⟩
    cases hexec
  | fail e =>
    refine ⟨trivial, fun e' w' hexec => ?_⟩
    cases hexec
    exact h
  | perform operation next ih =>
    obtain ⟨hnext, hrest⟩ := ih _ h.2
    exact ⟨⟨h.1, hnext⟩, hrest⟩

theorem Avoids.or {bad' : Operation ι β → World ι β → Prop} (h : Avoids bad x w)
    (h' : Avoids bad' x w) : Avoids (fun operation v => bad operation v ∨ bad' operation v) x w := by
  induction x generalizing w with
  | done a => trivial
  | fail e => trivial
  | perform operation next ih => exact ⟨not_or.mpr ⟨h.1, h'.1⟩, ih _ h.2 h'.2⟩

theorem Avoids.mono {bad' : Operation ι β → World ι β → Prop} (h : Avoids bad' x w)
    (hbad : ∀ operation v, bad operation v → bad' operation v) : Avoids bad x w := by
  induction x generalizing w with
  | done a => trivial
  | fail e => trivial
  | perform operation next ih => exact ⟨fun hb => h.1 (hbad _ _ hb), ih _ h.2⟩

theorem avoids_bind_iff {f : α → Program ι β ε γ} : Avoids bad (x >>= f) w ↔
    Avoids bad x w ∧ ∀ a w', exec x w = (.ok a, w') → Avoids bad (f a) w' := by
  refine ⟨Avoids.of_bind, ?_⟩
  rintro ⟨hx, hf⟩
  change Avoids bad (x.bind f) w
  induction x generalizing w with
  | done a => exact hf a w rfl
  | fail e => trivial
  | perform operation next ih => exact ⟨hx.1, ih _ hx.2 hf⟩

theorem avoids_bind_of_error {f : α → Program ι β ε γ} {e : ε} {w' : World ι β}
    (h : exec x w = (.error e, w')) : Avoids bad (x >>= f) w ↔ Avoids bad x w := by
  rw [avoids_bind_iff]
  refine and_iff_left fun a v hok => ?_
  rw [h] at hok
  cases hok

theorem avoids_bind_of_ok {f : α → Program ι β ε γ} {a : α} {w' : World ι β}
    (h : exec x w = (.ok a, w')) :
    Avoids bad (x >>= f) w ↔ Avoids bad x w ∧ Avoids bad (f a) w' := by
  rw [avoids_bind_iff]
  refine and_congr_right fun _ => ⟨fun hf => hf a w' h, fun hf b v hok => ?_⟩
  rw [h] at hok
  cases hok
  exact hf

theorem avoids_tryCatch_iff {handler : ε → Program ι β ε α} :
    Avoids bad (tryCatch x handler) w ↔
      Avoids bad x w ∧ ∀ e w', exec x w = (.error e, w') → Avoids bad (handler e) w' := by
  refine ⟨Avoids.of_tryCatch, ?_⟩
  rintro ⟨hx, hhandler⟩
  change Avoids bad (x.tryCatch handler) w
  induction x generalizing w with
  | done a => trivial
  | fail e => exact hhandler e w rfl
  | perform operation next ih => exact ⟨hx.1, ih _ hx.2 hhandler⟩

theorem avoids_tryCatch_of_error {handler : ε → Program ι β ε α} {e : ε} {w' : World ι β}
    (h : exec x w = (.error e, w')) :
    Avoids bad (tryCatch x handler) w ↔ Avoids bad x w ∧ Avoids bad (handler e) w' := by
  rw [avoids_tryCatch_iff]
  refine and_congr_right fun _ => ⟨fun hhandler => hhandler e w' h, fun hhandler e' v hfail => ?_⟩
  rw [h] at hfail
  cases hfail
  exact hhandler

theorem avoids_act_iff {error : ε} {operation : Operation ι β} :
    Avoids bad (act error operation) w ↔ ¬ bad operation w := by
  refine ⟨avoids_act, fun h => ⟨h, ?_⟩⟩
  cases (operation.perform w).1 with
  | none => trivial
  | some report => trivial

theorem avoids_of_calm (hbad : ∀ operation v, bad operation v → v.next ≠ .succeeds)
    (hcalm : w.outcomes = []) : Avoids bad x w := by
  induction x generalizing w with
  | done a => trivial
  | fail e => trivial
  | perform operation next ih =>
    refine ⟨fun h => hbad operation w h (by rw [World.next, hcalm]; rfl), ih _ ?_⟩
    unfold Operation.perform World.next
    rw [hcalm]
    rfl

end Avoids

-- Programs that cannot fail

/-- The program succeeds, whatever happens to its operations. -/
def NeverFails (x : Program ι β ε α) : Prop := ∀ w, ∃ a w', exec x w = (.ok a, w')

namespace NeverFails

theorem pure (a : α) : NeverFails (Pure.pure a : Program ι β ε α) := fun w => ⟨a, w, rfl⟩

theorem bind {x : Program ι β ε α} {f : α → Program ι β ε γ} (hx : NeverFails x)
    (hf : ∀ a, NeverFails (f a)) : NeverFails (x >>= f) := by
  intro w
  obtain ⟨a, v, ha⟩ := hx w
  obtain ⟨c, w', hc⟩ := hf a v
  exact ⟨c, w', exec_bind_eq_ok.mpr ⟨a, v, ha, hc⟩⟩

theorem tryCatch {x : Program ι β ε α} {handler : ε → Program ι β ε α}
    (hhandler : ∀ e, NeverFails (handler e)) : NeverFails (MonadExcept.tryCatch x handler) := by
  intro w
  rcases hx : exec x w with ⟨result, v⟩
  cases result with
  | ok a => exact ⟨a, v, exec_tryCatch_ok hx⟩
  | error e =>
    rw [exec_tryCatch_error hx]
    exact hhandler e v

theorem foldlM {ks : List κ} {f : α → κ → Program ι β ε α} (h : ∀ a k, NeverFails (f a k)) (a : α) :
    NeverFails (ks.foldlM f a) := by
  induction ks generalizing a with
  | nil => exact NeverFails.pure a
  | cons k ks ih => exact (h a k).bind fun b => ih b

end NeverFails

-- Guarantees

/-- The worlds before and after the program are related, however it ends. -/
def Guarantees (R : World ι β → World ι β → Prop) (x : Program ι β ε α) : Prop :=
  ∀ w, R w (exec x w).2

namespace Guarantees

variable {R : World ι β → World ι β → Prop} {x : Program ι β ε α}

theorem of_exec {w w' : World ι β} {result : Except ε α} (h : Guarantees R x)
    (hx : exec x w = (result, w')) : R w w' := by
  have := h w
  rwa [hx] at this

theorem mono {S : World ι β → World ι β → Prop} (h : Guarantees R x)
    (hRS : ∀ w w', R w w' → S w w') : Guarantees S x :=
  fun w => hRS _ _ (h w)

theorem isThere {path : ι} (h : ∀ w, R w ((Operation.look path).perform w).2) :
    Guarantees R (isThere path : Program ι β ε Bool) := h

variable [IsPreorder (World ι β) R]

theorem pure (a : α) : Guarantees R (Pure.pure a : Program ι β ε α) := fun w => refl w

theorem throw (e : ε) : Guarantees R (MonadExcept.throw e : Program ι β ε α) := fun w => refl w

theorem read {error : ε} {path : ι}
    (h : ∀ w, R w ((Operation.read path).perform w).2) :
    Guarantees R (read error path : Program ι β ε (Option β)) := by
  intro w
  refine IsTrans.trans _ _ _ (h w) ?_
  simp only [FileStore.read, exec]
  split <;> exact refl _

theorem act {error : ε} {operation : Operation ι β} (h : ∀ w, R w (operation.perform w).2) :
    Guarantees R (act error operation : Program ι β ε Unit) := by
  intro w
  refine IsTrans.trans _ _ _ (h w) ?_
  simp only [FileStore.act, exec]
  split <;> exact refl _

theorem bind {f : α → Program ι β ε γ} (hx : Guarantees R x) (hf : ∀ a, Guarantees R (f a)) :
    Guarantees R (x >>= f) := by
  intro w
  rcases h : exec x w with ⟨result, v⟩
  have hv := hx.of_exec h
  cases result with
  | ok a =>
    rw [exec_bind_ok h]
    exact IsTrans.trans _ _ _ hv (hf a v)
  | error e =>
    rw [exec_bind_error h]
    exact hv

theorem map {f : α → γ} (hx : Guarantees R x) : Guarantees R (f <$> x) := by
  rw [map_eq_pure_bind]
  exact hx.bind fun _ => Guarantees.pure _

theorem tryCatch {handler : ε → Program ι β ε α} (hx : Guarantees R x)
    (hhandler : ∀ e, Guarantees R (handler e)) : Guarantees R (MonadExcept.tryCatch x handler) := by
  intro w
  rcases h : exec x w with ⟨result, v⟩
  have hv := hx.of_exec h
  cases result with
  | ok a =>
    rw [exec_tryCatch_ok h]
    exact hv
  | error e =>
    rw [exec_tryCatch_error h]
    exact IsTrans.trans _ _ _ hv (hhandler e v)

theorem forM {ks : List κ} {f : κ → Program ι β ε Unit} (h : ∀ k ∈ ks, Guarantees R (f k)) :
    Guarantees R (ks.forM f) := by
  induction ks with
  | nil => exact Guarantees.pure ()
  | cons k ks ih =>
    rw [List.forM_eq_forM, List.forM_cons]
    refine (h k List.mem_cons_self).bind fun _ => ?_
    exact ih fun k' hk' => h k' (List.mem_cons_of_mem _ hk')

theorem mapM {ks : List κ} {f : κ → Program ι β ε α} (h : ∀ k ∈ ks, Guarantees R (f k)) :
    Guarantees R (ks.mapM f) := by
  induction ks with
  | nil => exact Guarantees.pure []
  | cons k ks ih =>
    rw [List.mapM_cons]
    refine (h k List.mem_cons_self).bind fun _ => ?_
    refine (ih fun k' hk' => h k' (List.mem_cons_of_mem _ hk')).bind fun _ => ?_
    exact Guarantees.pure _

theorem foldlM {ks : List κ} {f : α → κ → Program ι β ε α} (h : ∀ a k, Guarantees R (f a k))
    (a : α) : Guarantees R (ks.foldlM f a) := by
  induction ks generalizing a with
  | nil => exact Guarantees.pure a
  | cons k ks ih => exact (h a k).bind fun b => ih b

end Guarantees

-- Files left alone

/-- The worlds agree on the files outside a set. -/
def AgreeOutside (S : Set ι) (w w' : World ι β) : Prop := ∀ p ∉ S, w'.files p = w.files p

instance (S : Set ι) : IsPreorder (World ι β) (AgreeOutside S) where
  refl _ _ _ := rfl
  trans _ _ _ h h' p hp := (h' p hp).trans (h p hp)

/-- The program changes no file outside the set. -/
abbrev Touches (S : Set ι) (x : Program ι β ε α) : Prop := Guarantees (AgreeOutside S) x

theorem agreeOutside_perform {S : Set ι} {operation : Operation ι β}
    (hS : ∀ p, Access.changes p ∈ operation.accesses → p ∈ S) (w : World ι β) :
    AgreeOutside S w (operation.perform w).2 := by
  intro p hp
  have hsucceed : operation.succeed w.files p = w.files p := by
    cases operation with
    | write path contents =>
      exact Function.update_of_ne (fun h => hp (hS p (by simp [Operation.accesses, h]))) ..
    | remove path =>
      exact Function.update_of_ne (fun h => hp (hS p (by simp [Operation.accesses, h]))) ..
    | clear path =>
      exact Function.update_of_ne (fun h => hp (hS p (by simp [Operation.accesses, h]))) ..
    | rename source target =>
      have hsource : p ≠ source := fun h => hp (hS p (by simp [Operation.accesses, h]))
      have htarget : p ≠ target := fun h => hp (hS p (by simp [Operation.accesses, h]))
      simp only [Operation.succeed]
      cases w.files source with
      | none => rfl
      | some contents =>
        exact (Function.update_of_ne htarget ..).trans (Function.update_of_ne hsource ..)
    | read path => rfl
    | look path => rfl
    | step => rfl
  have hfail : ∀ left, operation.fail w.files left p = w.files p := by
    intro left
    cases operation with
    | write path contents =>
      exact Function.update_of_ne (fun h => hp (hS p (by simp [Operation.accesses, h]))) ..
    | clear path =>
      exact Function.update_of_ne (fun h => hp (hS p (by simp [Operation.accesses, h]))) ..
    | _ => rfl
  unfold Operation.perform
  cases w.next with
  | succeeds => exact hsucceed
  | fails left => exact hfail left

namespace Touches

variable {S T : Set ι} {x : Program ι β ε α}

theorem subset (h : Touches S x) (hST : S ⊆ T) : Touches T x :=
  h.mono fun _ _ hw p hp => hw p fun hS => hp (hST hS)

theorem read (error : ε) (path : ι) : Touches S (read error path : Program ι β ε (Option β)) :=
  Guarantees.read (agreeOutside_perform (by simp [Operation.accesses]))

theorem isThere (path : ι) : Touches S (isThere path : Program ι β ε Bool) :=
  Guarantees.isThere (agreeOutside_perform (by simp [Operation.accesses]))

theorem step (error : ε) : Touches S (act error .step : Program ι β ε Unit) :=
  Guarantees.act (agreeOutside_perform (by simp [Operation.accesses]))

theorem remove (error : ε) {path : ι} (h : path ∈ S) :
    Touches S (act error (.remove path) : Program ι β ε Unit) :=
  Guarantees.act (agreeOutside_perform (by simpa [Operation.accesses] using h))

theorem install (writing moving : ε) {temporary path : ι} (contents : β) (ht : temporary ∈ S)
    (hp : path ∈ S) : Touches S (install writing moving temporary path contents) := by
  have hwrite : Touches S (act writing (.write temporary contents)) :=
    Guarantees.act (agreeOutside_perform (by simpa [Operation.accesses] using ht))
  have hrename : Touches S (act moving (.rename temporary path) : Program ι β ε Unit) :=
    Guarantees.act (agreeOutside_perform (by simp [Operation.accesses, ht, hp]))
  exact hwrite.bind fun _ => hrename

theorem files_eq (h : Touches ∅ x) {w w' : World ι β} {result : Except ε α}
    (hx : exec x w = (result, w')) : w'.files = w.files :=
  funext fun p => h.of_exec hx p (Set.notMem_empty p)

end Touches

-- Accesses

/-- Every new access of the second world is as it should be. -/
def NewAccesses (Ok : Access ι → Prop) (w w' : World ι β) : Prop :=
  ∀ a ∈ w'.trace, a ∈ w.trace ∨ Ok a

instance (Ok : Access ι → Prop) : IsPreorder (World ι β) (NewAccesses Ok) where
  refl _ _ ha := Or.inl ha
  trans _ _ _ h h' a ha := by
    rcases h' a ha with ha | hok
    · exact h a ha
    · exact Or.inr hok

abbrev Accesses (Ok : Access ι → Prop) (x : Program ι β ε α) : Prop :=
  Guarantees (NewAccesses Ok) x

theorem newAccesses_perform {Ok : Access ι → Prop} {operation : Operation ι β}
    (h : ∀ a ∈ operation.accesses, Ok a) (w : World ι β) :
    NewAccesses Ok w (operation.perform w).2 := by
  intro a ha
  have htrace : (operation.perform w).2.trace = w.trace ++ operation.accesses := by
    unfold Operation.perform
    cases w.next <;> rfl
  rw [htrace, List.mem_append] at ha
  exact ha.imp id (h a)

namespace Accesses

variable {Ok : Access ι → Prop}

theorem read (error : ε) {path : ι} (h : Ok (.reads path)) :
    Accesses Ok (read error path : Program ι β ε (Option β)) :=
  Guarantees.read (newAccesses_perform (by simpa [Operation.accesses] using h))

theorem isThere {path : ι} (h : Ok (.reads path)) :
    Accesses Ok (isThere path : Program ι β ε Bool) :=
  Guarantees.isThere (newAccesses_perform (by simpa [Operation.accesses] using h))

theorem act (error : ε) {operation : Operation ι β} (h : ∀ a ∈ operation.accesses, Ok a) :
    Accesses Ok (act error operation : Program ι β ε Unit) :=
  Guarantees.act (newAccesses_perform h)

theorem of_trace_nil {x : Program ι β ε α} (h : Accesses Ok x) {w : World ι β}
    (hw : w.trace = []) : ∀ a ∈ (exec x w).2.trace, Ok a := by
  intro a ha
  rcases h w a ha with ha | hok
  · rw [hw] at ha
    cases ha
  · exact hok

end Accesses

theorem mem_trace_exec {x : Program ι β ε α} {w : World ι β} {a : Access ι}
    (h : a ∈ w.trace) : a ∈ (exec x w).2.trace := by
  induction x generalizing w with
  | done b => exact h
  | fail e => exact h
  | perform operation next ih =>
    refine ih _ ?_
    unfold Operation.perform
    cases w.next <;> exact List.mem_append_left _ h

theorem mem_trace_bind {x : Program ι β ε α} {f : α → Program ι β ε γ} {w : World ι β}
    {a : Access ι} (h : a ∈ (exec x w).2.trace) : a ∈ (exec (x >>= f) w).2.trace := by
  rcases hx : exec x w with ⟨result, v⟩
  rw [hx] at h
  cases result with
  | ok b =>
    rw [exec_bind_ok hx]
    exact mem_trace_exec h
  | error e =>
    rw [exec_bind_error hx]
    exact h

theorem mem_trace_map {x : Program ι β ε α} {f : α → γ} {w : World ι β} {a : Access ι}
    (h : a ∈ (exec x w).2.trace) : a ∈ (exec (f <$> x) w).2.trace := by
  rw [map_eq_pure_bind]
  exact mem_trace_bind h

theorem mem_trace_tryCatch {x : Program ι β ε α} {handler : ε → Program ι β ε α} {w : World ι β}
    {a : Access ι} (h : a ∈ (exec x w).2.trace) : a ∈ (exec (tryCatch x handler) w).2.trace := by
  rcases hx : exec x w with ⟨result, v⟩
  rw [hx] at h
  cases result with
  | ok b =>
    rw [exec_tryCatch_ok hx]
    exact h
  | error e =>
    rw [exec_tryCatch_error hx]
    exact mem_trace_exec h

theorem mem_trace_read (error : ε) (path : ι) (w : World ι β) :
    .reads path ∈ (exec (read error path : Program ι β ε (Option β)) w).2.trace := by
  refine mem_trace_exec (w := ((Operation.read path).perform w).2) ?_
  unfold Operation.perform
  cases w.next <;> exact List.mem_append_right _ (List.mem_singleton_self _)

-- Failures that change nothing

/-- When the program fails, no file outside the set has changed. -/
def KeepsOnError (S : Set ι) (x : Program ι β ε α) : Prop :=
  ∀ w w' e, exec x w = (.error e, w') → AgreeOutside S w w'

namespace KeepsOnError

variable {S : Set ι} {x : Program ι β ε α}

theorem of_exec (h : KeepsOnError S x) {w w' : World ι β} {e : ε}
    (hx : exec x w = (.error e, w')) : AgreeOutside S w w' := h w w' e hx

theorem bind {f : α → Program ι β ε γ} (hx : Touches S x) (hf : ∀ a, KeepsOnError S (f a)) :
    KeepsOnError S (x >>= f) := by
  intro w w' e h
  rcases exec_bind_eq_error.mp h with hfail | ⟨a, v, ha, hrest⟩
  · exact hx.of_exec hfail
  · exact IsTrans.trans _ _ _ (hx.of_exec ha) ((hf a).of_exec hrest)

theorem map {f : α → γ} (hx : KeepsOnError S x) : KeepsOnError S (f <$> x) := by
  intro w w' e h
  rw [map_eq_pure_bind] at h
  rcases exec_bind_eq_error.mp h with hfail | ⟨a, v, -, hpure⟩
  · exact hx.of_exec hfail
  · cases hpure

theorem install (writing moving : ε) (temporary path : ι) (contents : β) :
    KeepsOnError {temporary} (install writing moving temporary path contents) := by
  have hwrite : Touches {temporary} (act writing (.write temporary contents)) :=
    Guarantees.act (agreeOutside_perform (by simp [Operation.accesses]))
  refine .bind hwrite fun _ => ?_
  intro w w' e h p _
  -- the rename failed, or there was nothing to move
  unfold act exec Operation.perform at h
  cases hnext : w.next with
  | succeeds =>
    simp only [hnext, Operation.report, Operation.succeed] at h
    cases hsource : w.files temporary with
    | none =>
      simp only [hsource] at h
      cases h
      rfl
    | some contents =>
      simp only [hsource] at h
      cases h
  | fails left =>
    simp only [hnext, Operation.fail] at h
    cases h
    rfl

end KeepsOnError

-- Loops over files

theorem exec_mapM_eq_ok {ks : List κ} {f : κ → Program ι β ε α} {as : List α}
    (hreads : ∀ k ∈ ks, Touches ∅ (f k)) {w w' : World ι β}
    (h : exec (ks.mapM f) w = (.ok as, w')) :
    List.Forall₂ (fun k a => ∃ v v', v.files = w.files ∧ exec (f k) v = (.ok a, v')) ks as := by
  induction ks generalizing w as with
  | nil =>
    cases h
    exact .nil
  | cons k ks ih =>
    simp only [List.mapM_cons, exec_bind_eq_ok] at h
    obtain ⟨a, v, hk, bs, u, hks, hpure⟩ := h
    cases hpure
    have hv := (hreads k List.mem_cons_self).files_eq hk
    refine .cons ⟨w, v, rfl, hk⟩ ?_
    have hrest := ih (fun k' hk' => hreads k' (List.mem_cons_of_mem _ hk')) hks
    rwa [hv] at hrest

/-- **A loop in which every turn rewrites a file of its own**: what a turn
establishes between the file before and after it holds of the whole loop. -/
theorem forM_updates (target : κ → ι) (Updated : κ → Option β → Option β → Prop) {ks : List κ}
    {T : Set ι} {turn : κ → Program ι β ε Unit}
    (htouch : ∀ k ∈ ks, Touches (insert (target k) T) (turn k))
    (hfresh : ∀ k ∈ ks, target k ∉ T) (hnodup : (ks.map target).Nodup)
    (hturn : ∀ k ∈ ks, ∀ w w', exec (turn k) w = (.ok (), w') →
      Updated k (w.files (target k)) (w'.files (target k)))
    {w w' : World ι β} (h : exec (ks.forM turn) w = (.ok (), w')) :
    ∀ k ∈ ks, Updated k (w.files (target k)) (w'.files (target k)) := by
  induction ks generalizing w with
  | nil => simp
  | cons k ks ih =>
    obtain ⟨v, hk, hks⟩ := exec_forM_cons_eq_ok.mp h
    simp only [List.mem_cons, forall_eq_or_imp] at htouch hfresh hturn ⊢
    rw [List.map_cons, List.nodup_cons] at hnodup
    have hrest := ih htouch.2 hfresh.2 hnodup.2 hturn.2 hks
    refine ⟨?_, fun k' hk' => ?_⟩
    · -- the later turns leave the file of the first alone
      have hlater : Touches ({p | p ∈ ks.map target} ∪ T) (ks.forM turn) := by
        refine Guarantees.forM fun k' hk' => (htouch.2 k' hk').subset ?_
        rintro p (rfl | hp)
        · exact Or.inl (List.mem_map_of_mem hk')
        · exact Or.inr hp
      have hkeep : w'.files (target k) = v.files (target k) := by
        refine hlater.of_exec hks _ ?_
        rintro (hmem | hp)
        · exact hnodup.1 hmem
        · exact hfresh.1 hp
      rw [hkeep]
      exact hturn.1 w v hk
    · -- the first turn left the files of the later ones alone
      have hkeep : v.files (target k') = w.files (target k') := by
        refine htouch.1.of_exec hk _ ?_
        rintro (heq | hp)
        · exact hnodup.1 (List.mem_map.mpr ⟨k', hk', heq⟩)
        · exact hfresh.2 k' hk' hp
      rw [← hkeep]
      exact hrest k' hk'

end FileStore
