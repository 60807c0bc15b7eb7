import JMan.Lib.FileStore

/-!
# Interrupted runs

What a process leaves in the store when it ends somewhere in the run of a
program: between two operations, in the midst of one, or after the last.

* `LeftBy` — the files left; `LeftBefore` — by a run that did not get past
  certain operations.
* `LeftBefore.of_bind`, `LeftBefore.of_tryCatch` — in which part of a program a
  run ended.
* `Runs` — a triple with a condition of its own for the files left, with the rules
  for sequences, handlers and looks.
* `Only` — a condition on every operation a program can come to, with the rule
  for what such operations keep (`Only.keeps`).
* `Within` — no operation of a program changes a file outside a set, so that no
  end of a run does; `Only.carried` — none brings new contents into a set.
-/

namespace FileStore

variable {ι β ε α γ κ : Type} [DecidableEq ι]

-- Where a run ends

/-- The files left by a run that completed no bad operation. -/
def LeftBefore (bad : Operation ι β → World ι β → Prop) :
    Program ι β ε α → World ι β → (ι → Option β) → Prop
  | .done _, w, files => files = w.files
  | .fail _, w, files => files = w.files
  | .perform operation next, w, files =>
    files = w.files ∨ (∃ left, files = operation.fail w.files left) ∨
      ¬ bad operation w ∧ LeftBefore bad (next (operation.perform w).1) (operation.perform w).2 files

abbrev LeftBy (x : Program ι β ε α) (w : World ι β) (files : ι → Option β) : Prop :=
  LeftBefore (fun _ _ => False) x w files

section LeftBefore

variable {bad bad' : Operation ι β → World ι β → Prop} {x : Program ι β ε α} {w : World ι β}
  {files : ι → Option β}

theorem leftBefore_start (bad : Operation ι β → World ι β → Prop) (x : Program ι β ε α)
    (w : World ι β) : LeftBefore bad x w w.files := by
  cases x with
  | done a => rfl
  | fail e => rfl
  | perform operation next => exact Or.inl rfl

theorem leftBy_exec (x : Program ι β ε α) (w : World ι β) : LeftBy x w (exec x w).2.files := by
  induction x generalizing w with
  | done a => rfl
  | fail e => rfl
  | perform operation next ih => exact Or.inr (Or.inr ⟨id, ih _ _⟩)

theorem LeftBefore.mono (hbad : ∀ operation v, bad operation v → bad' operation v)
    (h : LeftBefore bad' x w files) : LeftBefore bad x w files := by
  induction x generalizing w with
  | done a => exact h
  | fail e => exact h
  | perform operation next ih =>
    rcases h with h | h | ⟨hgood, h⟩
    · exact Or.inl h
    · exact Or.inr (Or.inl h)
    · exact Or.inr (Or.inr ⟨fun hb => hgood (hbad _ _ hb), ih _ h⟩)

theorem LeftBefore.leftBy (h : LeftBefore bad x w files) : LeftBy x w files :=
  h.mono fun _ _ hfalse => hfalse.elim

theorem LeftBefore.of_bind {f : α → Program ι β ε γ} (h : LeftBefore bad (x >>= f) w files) :
    LeftBefore bad x w files ∨
      ∃ a v, exec x w = (.ok a, v) ∧ Avoids bad x w ∧ LeftBefore bad (f a) v files := by
  change LeftBefore bad (x.bind f) w files at h
  induction x generalizing w with
  | done a => exact Or.inr ⟨a, w, rfl, trivial, h⟩
  | fail e => exact Or.inl h
  | perform operation next ih =>
    rcases h with h | h | ⟨hgood, h⟩
    · exact Or.inl (Or.inl h)
    · exact Or.inl (Or.inr (Or.inl h))
    · rcases ih _ h with hfirst | ⟨a, v, hexec, havoids, hsecond⟩
      · exact Or.inl (Or.inr (Or.inr ⟨hgood, hfirst⟩))
      · exact Or.inr ⟨a, v, hexec, ⟨hgood, havoids⟩, hsecond⟩

theorem LeftBefore.of_tryCatch {handler : ε → Program ι β ε α}
    (h : LeftBefore bad (tryCatch x handler) w files) :
    LeftBefore bad x w files ∨
      ∃ e v, exec x w = (.error e, v) ∧ Avoids bad x w ∧ LeftBefore bad (handler e) v files := by
  change LeftBefore bad (x.tryCatch handler) w files at h
  induction x generalizing w with
  | done a => exact Or.inl h
  | fail e => exact Or.inr ⟨e, w, rfl, trivial, h⟩
  | perform operation next ih =>
    rcases h with h | h | ⟨hgood, h⟩
    · exact Or.inl (Or.inl h)
    · exact Or.inl (Or.inr (Or.inl h))
    · rcases ih _ h with hfirst | ⟨a, v, hexec, havoids, hsecond⟩
      · exact Or.inl (Or.inr (Or.inr ⟨hgood, hfirst⟩))
      · exact Or.inr ⟨a, v, hexec, ⟨hgood, havoids⟩, hsecond⟩

theorem leftBy_bind_left {f : α → Program ι β ε γ} (h : LeftBy x w files) :
    LeftBy (x >>= f) w files := by
  change LeftBy (x.bind f) w files
  induction x generalizing w with
  | done a =>
    obtain rfl : files = w.files := h
    exact leftBefore_start _ _ _
  | fail e => exact h
  | perform operation next ih =>
    rcases h with h | h | ⟨hgood, h⟩
    · exact Or.inl h
    · exact Or.inr (Or.inl h)
    · exact Or.inr (Or.inr ⟨hgood, ih _ h⟩)

theorem leftBy_bind_right {f : α → Program ι β ε γ} {a : α} {v : World ι β}
    (hx : exec x w = (.ok a, v)) (h : LeftBy (f a) v files) : LeftBy (x >>= f) w files := by
  change LeftBy (x.bind f) w files
  induction x generalizing w with
  | done b =>
    cases hx
    exact h
  | fail e => cases hx
  | perform operation next ih => exact Or.inr (Or.inr ⟨id, ih _ hx⟩)

theorem leftBy_forM {f : κ → Program ι β ε Unit} {before after : List κ} {k : κ} {v : World ι β}
    (hbefore : exec (before.forM f) w = (.ok (), v)) (h : LeftBy (f k) v files) :
    LeftBy ((before ++ k :: after).forM f) w files := by
  induction before generalizing w with
  | nil =>
    cases hbefore
    exact leftBy_bind_left h
  | cons first before ih =>
    obtain ⟨u, hfirst, hrest⟩ := exec_forM_cons_eq_ok.mp hbefore
    exact leftBy_bind_right hfirst (ih hrest)

theorem LeftBefore.of_act {error : ε} {operation : Operation ι β}
    (h : LeftBefore bad (act error operation) w files) :
    files = w.files ∨ (∃ left, files = operation.fail w.files left) ∨
      ¬ bad operation w ∧ files = (operation.perform w).2.files := by
  rcases h with h | h | ⟨hgood, h⟩
  · exact Or.inl h
  · exact Or.inr (Or.inl h)
  · refine Or.inr (Or.inr ⟨hgood, ?_⟩)
    cases hreport : (operation.perform w).1 with
    | some report =>
      rw [hreport] at h
      exact h
    | none =>
      rw [hreport] at h
      exact h

theorem leftBefore_of_avoids (h : Avoids bad x w) (hleft : LeftBy x w files) :
    LeftBefore bad x w files := by
  induction x generalizing w with
  | done a => exact hleft
  | fail e => exact hleft
  | perform operation next ih =>
    rcases hleft with hleft | hleft | ⟨-, hleft⟩
    · exact Or.inl hleft
    · exact Or.inr (Or.inl hleft)
    · exact Or.inr (Or.inr ⟨h.1, ih _ h.2 hleft⟩)

theorem exists_of_not_avoids (h : ¬ Avoids bad x w) :
    ∃ operation v, bad operation v ∧ LeftBy x w (operation.perform v).2.files := by
  induction x generalizing w with
  | done a => exact absurd trivial h
  | fail e => exact absurd trivial h
  | perform operation next ih =>
    by_cases hbad : bad operation w
    · exact ⟨operation, w, hbad, Or.inr (Or.inr ⟨id, leftBefore_start _ _ _⟩)⟩
    · obtain ⟨later, v, hlater, hleft⟩ := ih _ fun hrest => h ⟨hbad, hrest⟩
      exact ⟨later, v, hlater, Or.inr (Or.inr ⟨id, hleft⟩)⟩

end LeftBefore

-- Looks that answer

def lookFails (operation : Operation ι β) (w : World ι β) : Prop :=
  (∃ path, operation = .look path) ∧ ∃ left, w.next = .fails left

def looked (path : ι) (w : World ι β) : World ι β := ((Operation.look path).perform w).2

@[simp] theorem files_looked (path : ι) (w : World ι β) : (looked path w).files = w.files := by
  unfold looked Operation.perform
  cases w.next <;> rfl

theorem perform_look {w : World ι β} {path : ι} (h : ¬ lookFails (.look path) w) :
    ((Operation.look path).perform w).1 = some (w.files path) := by
  unfold Operation.perform
  cases hnext : w.next with
  | succeeds => rfl
  | fails left => exact absurd ⟨⟨path, rfl⟩, left, hnext⟩ h

theorem exec_isThere {w : World ι β} {path : ι} (h : ¬ lookFails (.look path) w) :
    exec (isThere path : Program ι β ε Bool) w =
      (.ok (w.files path).isSome, looked path w) := by
  show exec (.done _) (looked path w) = _
  rw [perform_look h]
  rfl

-- Renames

section Rename

variable {files : ι → Option β} {source target path : ι}

theorem rename_none (h : files source = none) :
    (Operation.rename source target).succeed files = files := by
  rw [Operation.succeed, h]

theorem rename_target (h : (files source).isSome) :
    (Operation.rename source target).succeed files target = files source := by
  obtain ⟨contents, hcontents⟩ := Option.isSome_iff_exists.mp h
  rw [Operation.succeed, hcontents]
  exact Function.update_self ..

theorem rename_source (h : (files source).isSome) (hne : source ≠ target) :
    (Operation.rename source target).succeed files source = none := by
  obtain ⟨contents, hcontents⟩ := Option.isSome_iff_exists.mp h
  rw [Operation.succeed, hcontents]
  exact (Function.update_of_ne hne ..).trans (Function.update_self ..)

theorem rename_other (hsource : path ≠ source) (htarget : path ≠ target) :
    (Operation.rename source target).succeed files path = files path := by
  rw [Operation.succeed]
  cases files source with
  | none => rfl
  | some contents =>
    exact (Function.update_of_ne htarget ..).trans (Function.update_of_ne hsource ..)

end Rename

-- Triples

/-- A run of a program in a world: what holds of the files it leaves before a bad
operation, and, if there is none, of the files when it fails and of its result. -/
structure Runs (bad : Operation ι β → World ι β → Prop) (During Failing : (ι → Option β) → Prop)
    (Done : α → World ι β → Prop) (x : Program ι β ε α) (w : World ι β) : Prop where
  during : ∀ files, LeftBefore bad x w files → During files
  failing : ∀ e w', exec x w = (.error e, w') → Avoids bad x w → Failing w'.files
  done : ∀ a w', exec x w = (.ok a, w') → Avoids bad x w → Done a w'

namespace Runs

variable {bad : Operation ι β → World ι β → Prop} {During Failing Failing' : (ι → Option β) → Prop}
  {Done : α → World ι β → Prop} {Then : γ → World ι β → Prop} {x : Program ι β ε α} {w : World ι β}

theorem pure {a : α} (hduring : During w.files) (hdone : Done a w) :
    Runs bad During Failing Done (Pure.pure a : Program ι β ε α) w where
  during files h := by
    obtain rfl : files = w.files := h
    exact hduring
  failing e w' h := by cases h
  done b w' h _ := by
    cases h
    exact hdone

theorem throw {e : ε} (hduring : During w.files) (hfailing : Failing w.files) :
    Runs bad During Failing Done (MonadExcept.throw e : Program ι β ε α) w where
  during files h := by
    obtain rfl : files = w.files := h
    exact hduring
  failing e' w' h _ := by
    cases h
    exact hfailing
  done b w' h := by cases h

theorem act {Done : Unit → World ι β → Prop} {error : ε} {operation : Operation ι β}
    (hstart : During w.files)
    (hfails : ∀ left, During (operation.fail w.files left) ∧ Failing (operation.fail w.files left))
    (hnothing : operation.report w.files = none →
      During (operation.succeed w.files) ∧ Failing (operation.succeed w.files))
    (hsucceeds : w.next = .succeeds → ¬ bad operation w → (operation.report w.files).isSome →
      During (operation.succeed w.files) ∧
        ∀ v, v.files = operation.succeed w.files → Done () v) :
    Runs bad During Failing Done (act error operation) w where
  during files h := by
    rcases h.of_act with rfl | ⟨left, rfl⟩ | ⟨hgood, rfl⟩
    · exact hstart
    · exact (hfails left).1
    · unfold Operation.perform
      cases hnext : w.next with
      | fails left => exact (hfails left).1
      | succeeds =>
        cases hreport : operation.report w.files with
        | none => exact (hnothing hreport).1
        | some report => exact (hsucceeds hnext hgood (by rw [hreport]; rfl)).1
  failing e w' h _ := by
    rcases exec_act_eq_error h with ⟨left, -, hfiles⟩ | ⟨hreport, hfiles⟩
    · rw [hfiles]
      exact (hfails left).2
    · rw [hfiles]
      exact (hnothing hreport).2
  done a w' h havoids := by
    obtain ⟨hreport, hfiles⟩ := exec_act_eq_ok h
    exact (hsucceeds (next_of_exec_act h) (avoids_act havoids) hreport).2 w' hfiles

theorem attempt {Done : Unit → World ι β → Prop} {operation : Operation ι β}
    (hstart : During w.files)
    (hfails : ∀ left, During (operation.fail w.files left) ∧
      ∀ v, v.files = operation.fail w.files left → Done () v)
    (hsucceeds : ¬ bad operation w → During (operation.succeed w.files) ∧
      ∀ v, v.files = operation.succeed w.files → Done () v) :
    Runs bad During Failing Done (attempt operation : Program ι β ε Unit) w where
  during files h := by
    rcases h with h | ⟨left, h⟩ | ⟨hgood, h⟩
    · exact h ▸ hstart
    · exact h ▸ (hfails left).1
    · obtain rfl : files = _ := h
      unfold Operation.perform
      cases w.next with
      | succeeds => exact (hsucceeds hgood).1
      | fails left => exact (hfails left).1
  failing e w' h := by cases h
  done a w' h havoids := by
    obtain rfl : (operation.perform w).2 = w' := (Prod.mk.inj h).2
    unfold Operation.perform
    cases w.next with
    | succeeds => exact (hsucceeds havoids.1).2 _ rfl
    | fails left => exact (hfails left).2 _ rfl

theorem conseq {During' : (ι → Option β) → Prop} {Done' : α → World ι β → Prop}
    (h : Runs bad During Failing Done x w) (hduring : ∀ files, During files → During' files)
    (hfailing : ∀ files, Failing files → Failing' files) (hdone : ∀ a v, Done a v → Done' a v) :
    Runs bad During' Failing' Done' x w where
  during files hleft := hduring files (h.during files hleft)
  failing e w' hexec havoids := hfailing w'.files (h.failing e w' hexec havoids)
  done a w' hexec havoids := hdone a w' (h.done a w' hexec havoids)

theorem bind {f : α → Program ι β ε γ} (hx : Runs bad During Failing Done x w)
    (hf : ∀ a v, Done a v → Runs bad During Failing Then (f a) v) :
    Runs bad During Failing Then (x >>= f) w where
  during files h := by
    rcases h.of_bind with hleft | ⟨a, v, hexec, havoids, hleft⟩
    · exact hx.during files hleft
    · exact (hf a v (hx.done a v hexec havoids)).during files hleft
  failing e w' h havoids := by
    obtain ⟨hfirst, hsecond⟩ := avoids_bind_iff.mp havoids
    rcases exec_bind_eq_error.mp h with hfail | ⟨a, v, hexec, hfail⟩
    · exact hx.failing e w' hfail hfirst
    · exact (hf a v (hx.done a v hexec hfirst)).failing e w' hfail (hsecond a v hexec)
  done c w' h havoids := by
    obtain ⟨hfirst, hsecond⟩ := avoids_bind_iff.mp havoids
    obtain ⟨a, v, hexec, hrest⟩ := exec_bind_eq_ok.mp h
    exact (hf a v (hx.done a v hexec hfirst)).done c w' hrest (hsecond a v hexec)

theorem tryCatch {handler : ε → Program ι β ε α} (hx : Runs bad During Failing' Done x w)
    (hhandler : ∀ e v, Failing' v.files → Runs bad During Failing Done (handler e) v) :
    Runs bad During Failing Done (MonadExcept.tryCatch x handler) w where
  during files h := by
    rcases h.of_tryCatch with hleft | ⟨e, v, hexec, havoids, hleft⟩
    · exact hx.during files hleft
    · exact (hhandler e v (hx.failing e v hexec havoids)).during files hleft
  failing e w' h havoids := by
    obtain ⟨hfirst, hsecond⟩ := avoids_tryCatch_iff.mp havoids
    rcases exec_tryCatch_cases h with ⟨a, -, hok⟩ | ⟨e', v, hexec, hfail⟩
    · cases hok
    · exact (hhandler e' v (hx.failing e' v hexec hfirst)).failing e w' hfail (hsecond e' v hexec)
  done a w' h havoids := by
    obtain ⟨hfirst, hsecond⟩ := avoids_tryCatch_iff.mp havoids
    rcases exec_tryCatch_cases h with ⟨b, hok, hresult⟩ | ⟨e, v, hexec, hrest⟩
    · cases hresult
      exact hx.done a w' hok hfirst
    · exact (hhandler e v (hx.failing e v hexec hfirst)).done a w' hrest (hsecond e v hexec)

theorem isThere_bind {path : ι} {f : Bool → Program ι β ε α}
    (hlooks : ∀ operation v, lookFails operation v → bad operation v) (hstart : During w.files)
    (hf : Runs bad During Failing Done (f (w.files path).isSome) (looked path w)) :
    Runs bad During Failing Done (FileStore.isThere path >>= f) w := by
  have hanswer : ¬ bad (.look path) w →
      ((Operation.look path).perform w).1 = some (w.files path) := fun hgood =>
    perform_look fun hfails => hgood (hlooks _ _ hfails)
  have hexec : ¬ bad (.look path) w →
      exec (FileStore.isThere path >>= f) w = exec (f (w.files path).isSome) (looked path w) := by
    intro hgood
    show exec (f _) (looked path w) = _
    rw [hanswer hgood]
    rfl
  have havoids : Avoids bad (FileStore.isThere path >>= f) w → ¬ bad (.look path) w ∧
      Avoids bad (f (w.files path).isSome) (looked path w) := by
    rintro ⟨hgood, hrest⟩
    rw [hanswer hgood] at hrest
    exact ⟨hgood, hrest⟩
  constructor
  · rintro files (hleft | ⟨left, hleft⟩ | ⟨hgood, hleft⟩)
    · exact hleft ▸ hstart
    · exact hleft ▸ hstart
    · rw [hanswer hgood] at hleft
      exact hf.during files hleft
  · intro e w' h hall
    obtain ⟨hgood, hrest⟩ := havoids hall
    rw [hexec hgood] at h
    exact hf.failing e w' h hrest
  · intro a w' h hall
    obtain ⟨hgood, hrest⟩ := havoids hall
    rw [hexec hgood] at h
    exact hf.done a w' h hrest

theorem rename (bad : Operation ι β → World ι β → Prop) (error : ε) (source target : ι)
    (w : World ι β) : Runs bad
      (fun files => files = w.files ∨ (w.next = .succeeds ∧ ¬ bad (.rename source target) w ∧
        (w.files source).isSome) ∧ files = (Operation.rename source target).succeed w.files)
      (fun files => files = w.files)
      (fun _ v => (w.next = .succeeds ∧ ¬ bad (.rename source target) w ∧
        (w.files source).isSome) ∧ v.files = (Operation.rename source target).succeed w.files)
      (FileStore.act error (.rename source target)) w := by
  refine .act (Or.inl rfl) (fun _ => ⟨Or.inl rfl, rfl⟩) (fun hreport => ?_)
    fun hnext hgood hreport => ?_
  · have hsource : w.files source = none := Option.map_eq_none_iff.mp hreport
    rw [rename_none hsource]
    exact ⟨Or.inl rfl, rfl⟩
  · rw [Operation.report, Option.isSome_map] at hreport
    exact ⟨Or.inr ⟨⟨hnext, hgood, hreport⟩, rfl⟩, fun v hv => ⟨⟨hnext, hgood, hreport⟩, hv⟩⟩

end Runs

-- The operations a program can come to

/-- Every operation the program can come to is as it should be. -/
def Only (Ok : Operation ι β → Prop) : Program ι β ε α → Prop
  | .done _ => True
  | .fail _ => True
  | .perform operation next => Ok operation ∧ ∀ report, Only Ok (next report)

namespace Only

variable {Ok Ok' : Operation ι β → Prop} {x : Program ι β ε α}

/-- **What every operation keeps, succeeding or not, every end of a run keeps.** -/
theorem keeps {I : (ι → Option β) → Prop} (h : Only Ok x)
    (hsucceed : ∀ operation files, Ok operation → I files → I (operation.succeed files))
    (hfail : ∀ operation files left, Ok operation → I files → I (operation.fail files left))
    {w : World ι β} {files : ι → Option β} (hleft : LeftBy x w files) (hw : I w.files) :
    I files := by
  induction x generalizing w with
  | done a => exact hleft ▸ hw
  | fail e => exact hleft ▸ hw
  | perform operation next ih =>
    have hperform : I (operation.perform w).2.files := by
      unfold Operation.perform
      cases w.next with
      | succeeds => exact hsucceed operation w.files h.1 hw
      | fails left => exact hfail operation w.files left h.1 hw
    rcases hleft with rfl | ⟨left, rfl⟩ | ⟨-, hleft⟩
    · exact hw
    · exact hfail operation w.files left h.1 hw
    · exact ih _ (h.2 _) hleft hperform

theorem avoids {bad : Operation ι β → World ι β → Prop} (h : Only Ok x)
    (hbad : ∀ operation v, Ok operation → ¬ bad operation v) (w : World ι β) : Avoids bad x w := by
  induction x generalizing w with
  | done a => trivial
  | fail e => trivial
  | perform operation next ih => exact ⟨hbad operation w h.1, ih _ (h.2 _) _⟩

section Steps

omit [DecidableEq ι]

theorem mono (h : Only Ok x) (hOk : ∀ operation, Ok operation → Ok' operation) : Only Ok' x := by
  induction x with
  | done a => trivial
  | fail e => trivial
  | perform operation next ih => exact ⟨hOk operation h.1, fun report => ih _ (h.2 report)⟩

theorem act {error : ε} {operation : Operation ι β} (h : Ok operation) :
    Only Ok (FileStore.act error operation) := by
  refine ⟨h, fun report => ?_⟩
  cases report <;> trivial

theorem attempt {operation : Operation ι β} (h : Ok operation) :
    Only Ok (FileStore.attempt operation : Program ι β ε Unit) := ⟨h, fun _ => trivial⟩

theorem isThere {path : ι} (h : Ok (.look path)) :
    Only Ok (FileStore.isThere path : Program ι β ε Bool) := ⟨h, fun _ => trivial⟩

theorem bind {f : α → Program ι β ε γ} (hx : Only Ok x) (hf : ∀ a, Only Ok (f a)) :
    Only Ok (x >>= f) := by
  change Only Ok (x.bind f)
  induction x with
  | done a => exact hf a
  | fail e => trivial
  | perform operation next ih => exact ⟨hx.1, fun report => ih _ (hx.2 report)⟩

theorem tryCatch {handler : ε → Program ι β ε α} (hx : Only Ok x)
    (hhandler : ∀ e, Only Ok (handler e)) : Only Ok (MonadExcept.tryCatch x handler) := by
  change Only Ok (x.tryCatch handler)
  induction x with
  | done a => trivial
  | fail e => exact hhandler e
  | perform operation next ih => exact ⟨hx.1, fun report => ih _ (hx.2 report)⟩

theorem foldlM {f : γ → κ → Program ι β ε γ} {ks : List κ} (h : ∀ a k, Only Ok (f a k)) (a : γ) :
    Only Ok (ks.foldlM f a) := by
  induction ks generalizing a with
  | nil => trivial
  | cons k ks ih => exact (h a k).bind fun b => ih b

end Steps

end Only

/-- Every operation the program can come to changes only paths of the set. -/
abbrev Within (S : Set ι) (x : Program ι β ε α) : Prop :=
  Only (fun operation => ∀ p, Access.changes p ∈ operation.accesses → p ∈ S) x

namespace Within

variable {S T : Set ι} {x : Program ι β ε α}

theorem leftBy (h : Within S x) {w : World ι β} {files : ι → Option β} (hleft : LeftBy x w files)
    {p : ι} (hp : p ∉ S) : files p = w.files p := by
  refine h.keeps (I := fun files => files p = w.files p) (fun operation files hS hfiles => ?_)
    (fun operation files left hS hfiles => ?_) hleft rfl
  · exact (agreeOutside_perform hS ⟨files, [], []⟩ p hp).trans hfiles
  · exact (agreeOutside_perform hS ⟨files, [.fails left], []⟩ p hp).trans hfiles

theorem exec (h : Within S x) {w w' : World ι β} {result : Except ε α}
    (hx : FileStore.exec x w = (result, w')) {p : ι} (hp : p ∉ S) : w'.files p = w.files p := by
  have hleft := h.leftBy (leftBy_exec x w) hp
  rw [hx] at hleft
  exact hleft

omit [DecidableEq ι] in
theorem isThere (path : ι) : Within S (FileStore.isThere path : Program ι β ε Bool) :=
  Only.isThere fun p hp => by simp [Operation.accesses] at hp

end Within

-- Contents that are carried around

/-- The operation brings nothing new to the paths of the set. -/
def Operation.carries (T : Set ι) : Operation ι β → Prop
  | .write path _ => path ∉ T
  | .clear path => path ∉ T
  | .rename source target => target ∈ T → source ∈ T
  | _ => True

theorem Only.carried {T : Set ι} {P : β → Prop} {x : Program ι β ε α}
    (h : Only (Operation.carries T) x) {w : World ι β} {files : ι → Option β}
    (hleft : LeftBy x w files) (hw : ∀ p ∈ T, ∀ contents, w.files p = some contents → P contents) :
    ∀ p ∈ T, ∀ contents, files p = some contents → P contents := by
  refine h.keeps (I := fun files => ∀ p ∈ T, ∀ contents, files p = some contents → P contents)
    (fun operation files hcarries hfiles p hp contents hcontents => ?_)
    (fun operation files left hcarries hfiles p hp contents hcontents => ?_) hleft hw
  · cases operation with
    | write path written =>
      have hne : p ≠ path := fun heq => hcarries (heq ▸ hp)
      exact hfiles p hp contents ((Function.update_of_ne hne ..).symm.trans hcontents)
    | clear path =>
      have hne : p ≠ path := fun heq => hcarries (heq ▸ hp)
      exact hfiles p hp contents ((Function.update_of_ne hne ..).symm.trans hcontents)
    | remove path =>
      rcases eq_or_ne p path with rfl | hne
      · rw [Operation.succeed, Function.update_self] at hcontents
        cases hcontents
      · exact hfiles p hp contents ((Function.update_of_ne hne ..).symm.trans hcontents)
    | rename source target =>
      cases hsource : files source with
      | none =>
        rw [rename_none hsource] at hcontents
        exact hfiles p hp contents hcontents
      | some moved =>
        have hsome : (files source).isSome := by
          rw [hsource]
          rfl
        rcases eq_or_ne p target with rfl | htarget
        · rw [rename_target hsome] at hcontents
          exact hfiles source (hcarries hp) contents hcontents
        rcases eq_or_ne p source with rfl | hne
        · rw [rename_source hsome htarget] at hcontents
          cases hcontents
        · rw [rename_other hne htarget] at hcontents
          exact hfiles p hp contents hcontents
    | read path => exact hfiles p hp contents hcontents
    | look path => exact hfiles p hp contents hcontents
    | step => exact hfiles p hp contents hcontents
  · cases operation with
    | write path written =>
      have hne : p ≠ path := fun heq => hcarries (heq ▸ hp)
      exact hfiles p hp contents ((Function.update_of_ne hne ..).symm.trans hcontents)
    | clear path =>
      have hne : p ≠ path := fun heq => hcarries (heq ▸ hp)
      exact hfiles p hp contents ((Function.update_of_ne hne ..).symm.trans hcontents)
    | _ => exact hfiles p hp contents hcontents

end FileStore
