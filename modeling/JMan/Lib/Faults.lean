import JMan.Lib.FileStore

/-!
# Which operation fails

Programs that stop at the first operation that fails, and the number of operations
they take when none does. What happens to a run is then told by the place of its
first fault, counted from the start of the run.

* `Takes` — the program takes `n` operations and stops at the first that fails.
* `Takes.bind` — sequences add up.
-/

namespace FileStore

variable {ι β ε α γ : Type}

/-- The operation after `k` others succeeds. -/
def World.SucceedsAt (w : World ι β) (k : Nat) : Prop := (w.outcomes.drop k).headD .succeeds = .succeeds

/-- The first `n` operations after `k` others succeed. -/
def World.CalmFrom (w : World ι β) (k n : Nat) : Prop := ∀ i < n, w.SucceedsAt (k + i)

/-- The first fault after `k` operations is `i` operations later. -/
def World.FaultAt (w : World ι β) (k i : Nat) : Prop := w.CalmFrom k i ∧ ¬ w.SucceedsAt (k + i)

section Outcomes

variable {w v : World ι β} {k n m : Nat}

instance : Decidable (w.SucceedsAt k) :=
  match h : (w.outcomes.drop k).headD .succeeds with
  | .succeeds => isTrue h
  | .fails left => isFalse fun hsucceeds => by
    rw [World.SucceedsAt, h] at hsucceeds
    cases hsucceeds

instance : Decidable (w.CalmFrom k n) := inferInstanceAs (Decidable (∀ i, i < n → _))

theorem succeedsAt_of_drop (h : v.outcomes = w.outcomes.drop k) (i : Nat) :
    v.SucceedsAt i ↔ w.SucceedsAt (k + i) := by
  rw [World.SucceedsAt, World.SucceedsAt, h, List.drop_drop]

theorem succeedsAt_zero : w.SucceedsAt 0 ↔ w.next = .succeeds := Iff.rfl

theorem calmFrom_of_drop (h : v.outcomes = w.outcomes.drop k) (i n : Nat) :
    v.CalmFrom i n ↔ w.CalmFrom (k + i) n := by
  refine forall₂_congr fun j _ => ?_
  rw [succeedsAt_of_drop h, Nat.add_assoc]

theorem calmFrom_add : w.CalmFrom k (n + m) ↔ w.CalmFrom k n ∧ w.CalmFrom (k + n) m := by
  constructor
  · refine fun h => ⟨fun i hi => h i (by omega), fun i hi => ?_⟩
    have hlater := h (n + i) (by omega)
    rwa [← Nat.add_assoc] at hlater
  · rintro ⟨hfirst, hlater⟩ i hi
    obtain hlt | hle := Nat.lt_or_ge i n
    · exact hfirst i hlt
    · have hrest := hlater (i - n) (by omega)
      rwa [Nat.add_assoc, Nat.add_sub_cancel' hle] at hrest

theorem World.FaultAt.not_calm {i : Nat} (h : w.FaultAt k i) (hi : i < n) : ¬ w.CalmFrom k n :=
  fun hcalm => h.2 (hcalm i hi)

theorem World.FaultAt.unique {i j : Nat} (hi : w.FaultAt k i) (hj : w.FaultAt k j) : i = j := by
  obtain hlt | heq | hlt := Nat.lt_trichotomy i j
  · exact absurd (hj.1 i hlt) hi.2
  · exact heq
  · exact absurd (hi.1 j hlt) hj.2

end Outcomes

variable [DecidableEq ι]

/-- The program takes `n` operations, and stops at the first that fails. -/
def Takes (n : Nat) (x : Program ι β ε α) (w : World ι β) : Prop :=
  (∃ a w', exec x w = (.ok a, w') ∧ w.CalmFrom 0 n ∧ w'.outcomes = w.outcomes.drop n) ∨
    ∃ i < n, w.FaultAt 0 i ∧ ∃ e w', exec x w = (.error e, w') ∧ w'.outcomes = w.outcomes.drop (i + 1)

section Takes

variable {n m : Nat} {x : Program ι β ε α} {w w' : World ι β}

theorem Takes.calm {a : α} (h : Takes n x w) (hx : exec x w = (.ok a, w')) :
    w.CalmFrom 0 n ∧ w'.outcomes = w.outcomes.drop n := by
  obtain ⟨b, v, hv, hcalm, hdrop⟩ | ⟨i, -, -, e, v, hv, -⟩ := h
  · cases hv.symm.trans hx
    exact ⟨hcalm, hdrop⟩
  · cases hv.symm.trans hx

theorem Takes.fault {e : ε} (h : Takes n x w) (hx : exec x w = (.error e, w')) :
    ∃ i < n, w.FaultAt 0 i ∧ w'.outcomes = w.outcomes.drop (i + 1) := by
  obtain ⟨b, v, hv, -, -⟩ | ⟨i, hi, hfault, e', v, hv, hdrop⟩ := h
  · cases hv.symm.trans hx
  · cases hv.symm.trans hx
    exact ⟨i, hi, hfault, hdrop⟩

theorem takes_act (error : ε) {operation : Operation ι β} (h : (operation.report w.files).isSome) :
    Takes 1 (act error operation) w := by
  obtain ⟨report, hreport⟩ := Option.isSome_iff_exists.mp h
  cases hnext : w.next with
  | succeeds =>
    refine .inl ⟨(), ⟨operation.succeed w.files, w.outcomes.tail, w.trace ++ operation.accesses⟩, ?_, ?_, ?_⟩
    · simp [act, exec, Operation.perform, hnext, hreport]
    · intro i hi
      obtain rfl := Nat.lt_one_iff.mp hi
      exact hnext
    · exact List.drop_one.symm
  | fails left =>
    refine .inr ⟨0, Nat.one_pos, ⟨fun i hi => absurd hi (Nat.not_lt_zero i), fun hsucceeds => ?_⟩, error,
      ⟨operation.fail w.files left, w.outcomes.tail, w.trace ++ operation.accesses⟩, ?_, ?_⟩
    · cases hnext.symm.trans hsucceeds
    · simp [act, exec, Operation.perform, hnext]
    · exact List.drop_one.symm

theorem takes_read (error : ε) (path : ι) (w : World ι β) :
    Takes 1 (read error path : Program ι β ε (Option β)) w := by
  cases hnext : w.next with
  | succeeds =>
    refine .inl ⟨w.files path, ⟨w.files, w.outcomes.tail, w.trace ++ [.reads path]⟩, ?_, ?_, ?_⟩
    · simp [read, exec, Operation.perform, hnext, Operation.report, Operation.succeed, Operation.accesses]
    · intro i hi
      obtain rfl := Nat.lt_one_iff.mp hi
      exact hnext
    · exact List.drop_one.symm
  | fails left =>
    refine .inr ⟨0, Nat.one_pos, ⟨fun i hi => absurd hi (Nat.not_lt_zero i), fun hsucceeds => ?_⟩, error,
      ⟨w.files, w.outcomes.tail, w.trace ++ [.reads path]⟩, ?_, ?_⟩
    · cases hnext.symm.trans hsucceeds
    · simp [read, exec, Operation.perform, hnext, Operation.fail, Operation.accesses]
    · exact List.drop_one.symm

/-- **Sequences add up.** -/
theorem Takes.bind {f : α → Program ι β ε γ} (hx : Takes n x w)
    (hf : ∀ a w', exec x w = (.ok a, w') → Takes m (f a) w') : Takes (n + m) (x >>= f) w := by
  obtain ⟨a, v, hv, hcalm, hdrop⟩ | ⟨i, hi, hfault, e, v, hv, hdrop⟩ := hx
  · obtain ⟨b, u, hu, hrest, hleft⟩ | ⟨i, hi, ⟨hbefore, hfault⟩, e, u, hu, hleft⟩ := hf a v hv
    · refine .inl ⟨b, u, (exec_bind_ok hv).trans hu, ?_, ?_⟩
      · rw [calmFrom_of_drop hdrop, Nat.add_comm] at hrest
        exact calmFrom_add.mpr ⟨hcalm, hrest⟩
      · rw [hleft, hdrop, List.drop_drop]
    · refine .inr ⟨n + i, Nat.add_lt_add_left hi n, ⟨?_, ?_⟩, e, u, (exec_bind_ok hv).trans hu, ?_⟩
      · rw [calmFrom_of_drop hdrop, Nat.add_comm] at hbefore
        exact calmFrom_add.mpr ⟨hcalm, hbefore⟩
      · rw [succeedsAt_of_drop hdrop] at hfault
        rw [Nat.zero_add] at hfault ⊢
        exact hfault
      · rw [hleft, hdrop, List.drop_drop, Nat.add_assoc]
  · exact .inr ⟨i, Nat.lt_add_right m hi, hfault, e, v, exec_bind_error hv, hdrop⟩

theorem takes_install (writing moving : ε) (temporary path : ι) (contents : β) (w : World ι β) :
    Takes 2 (install writing moving temporary path contents) w := by
  refine (takes_act writing rfl).bind fun a v hv => takes_act moving ?_
  have hsource : v.files temporary = some contents := by
    rw [(exec_act_eq_ok hv).2]
    exact Function.update_self ..
  rw [Operation.report, hsource]
  rfl

end Takes

end FileStore
