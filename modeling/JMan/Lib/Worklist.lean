import Mathlib.Data.List.Shortlex
import JMan.Lib.Loop

/-!
# First-in-first-out worklists

A worklist algorithm keeps a core state and a queue. It takes the first item
of the queue and visits it; the visit may fail, and otherwise changes the core
and says what happens to the queue: nothing (`skip`), another item takes the
visited one's place (`replace`), or new items join at the end (`push`).

The second half of the module gives every item its *place*: the path of
child indices from the roots. The placed worklist runs in lockstep with the
plain one (`placed_returns`) and records its visits, and its order is the
breadth-first one: visits happen in shortlex order of the places
(`Ordered`), and what is visited is exactly what was offered (`Tracked`).
-/

namespace Worklist

variable {κ α ε : Type*}

inductive Move (α : Type*) where
  | skip
  | replace (item : α)
  | push (items : List α)

/-- A worklist algorithm: the visit of one item, and the housekeeping done
whenever new items have joined the queue. -/
structure Machine (κ α ε : Type*) where
  visit : κ → α → Except ε (κ × Move α)
  settle : κ → List α → κ

structure State (κ α : Type*) where
  core : κ
  queue : List α

/-- One iteration: `while let Some(item) = queue.pop_front()`. -/
def Machine.step (m : Machine κ α ε) (s : State κ α) :
    Loop.Outcome (State κ α) (Except ε κ) :=
  match s.queue with
  | [] => .stop (.ok s.core)
  | item :: rest =>
    match m.visit s.core item with
    | .error e => .stop (.error e)
    | .ok (core, .skip) => .next ⟨core, rest⟩
    | .ok (core, .replace other) => .next ⟨core, other :: rest⟩
    | .ok (core, .push items) => .next ⟨m.settle core (rest ++ items), rest ++ items⟩

/-! ## Places -/

/-- The path of child indices that leads to an item; a root has one index. -/
abbrev Place := List Nat

/-- Breadth-first order: nearer first, and at one depth in declaration order. -/
def Before (p q : Place) : Prop := List.Shortlex (· < ·) p q

theorem before_iff {p q : Place} :
    Before p q ↔ p.length < q.length ∨ p.length = q.length ∧ List.Lex (· < ·) p q :=
  List.shortlex_def

theorem Before.length_le {p q : Place} (h : Before p q) : p.length ≤ q.length := by
  rcases before_iff.mp h with h | h <;> omega

theorem Before.trans {p q r : Place} (h : Before p q) (h' : Before q r) : Before p r := by
  rw [before_iff] at *
  rcases h with h | ⟨hl, hlex⟩ <;> rcases h' with h' | ⟨hl', hlex'⟩
  · exact Or.inl (by omega)
  · exact Or.inl (by omega)
  · exact Or.inl (by omega)
  · exact Or.inr ⟨by omega, List.lt_trans (α := Nat) hlex hlex'⟩

theorem Before.irrefl (p : Place) : ¬ Before p p :=
  irrefl_of (List.Shortlex (· < ·)) p

theorem Before.asymm {p q : Place} (h : Before p q) : ¬ Before q p :=
  asymm_of (List.Shortlex (· < ·)) h

theorem Before.ne {p q : Place} (h : Before p q) : p ≠ q := by
  rintro rfl
  exact Before.irrefl p h

theorem Before.total (p q : Place) : Before p q ∨ p = q ∨ Before q p :=
  trichotomous_of (List.Shortlex (· < ·)) p q

theorem before_wellFounded : WellFounded Before := List.Shortlex.wf Nat.lt_wfRel.wf

theorem before_child (p : Place) (i : Nat) : Before p (p ++ [i]) :=
  before_iff.mpr (Or.inl (by simp))

theorem before_sibling (p : Place) {i j : Nat} (h : i < j) : Before (p ++ [i]) (p ++ [j]) :=
  List.Shortlex.append_left ((List.shortlex_singleton_iff i j).mpr h) p

private theorem lex_append {p q : Place} (hl : p.length = q.length) (s t : Place)
    (h : List.Lex (· < ·) p q) : List.Lex (· < ·) (p ++ s) (q ++ t) := by
  induction h with
  | nil => simp at hl
  | cons _ ih => exact .cons (ih (by simpa using hl))
  | rel h => exact .rel h

theorem before_cousin {p q : Place} (h : Before p q) (i j : Nat) :
    Before (p ++ [i]) (q ++ [j]) := by
  rw [before_iff] at *
  simp only [List.length_append, List.length_singleton]
  rcases h with h | ⟨hl, hlex⟩
  · exact Or.inl (by omega)
  · exact Or.inr ⟨by omega, lex_append hl [i] [j] hlex⟩

/-- The items of a list, placed as the children of `p`. -/
def childrenAt (p : Place) (items : List α) : List (Place × α) :=
  items.mapIdx fun j item => (p ++ [j], item)

theorem mem_childrenAt {p q : Place} {items : List α} {a : α} :
    (q, a) ∈ childrenAt p items ↔ ∃ j, items[j]? = some a ∧ q = p ++ [j] := by
  rw [childrenAt, List.mem_iff_getElem?]
  simp only [List.getElem?_mapIdx, Option.map_eq_some_iff, Prod.mk.injEq]
  constructor
  · rintro ⟨j, b, hb, rfl, rfl⟩
    exact ⟨j, hb, rfl⟩
  · rintro ⟨j, hj, rfl⟩
    exact ⟨j, a, hj, rfl, rfl⟩

@[simp] theorem map_snd_childrenAt (p : Place) (items : List α) :
    (childrenAt p items).map Prod.snd = items := by
  refine List.ext_getElem? fun i => ?_
  rw [childrenAt, List.getElem?_map, List.getElem?_mapIdx]
  cases items[i]? <;> rfl

theorem childrenAt_sorted (p : Place) (items : List α) :
    (childrenAt p items).Pairwise fun x y => Before x.1 y.1 := by
  rw [List.pairwise_iff_getElem]
  intro i j hi hj hij
  simp only [childrenAt, List.getElem_mapIdx]
  exact before_sibling p hij

/-! ## The placed worklist -/

/-- A visit: where, of what, the core before and after it, and its move. -/
structure Visit (κ α : Type*) where
  place : Place
  item : α
  before : κ
  after : κ
  move : Move α

structure Placed (κ α : Type*) where
  core : κ
  queue : List (Place × α)
  history : List (Visit κ α)

def Placed.erase (s : Placed κ α) : State κ α := ⟨s.core, s.queue.map Prod.snd⟩

def Placed.start (core : κ) (roots : List α) : Placed κ α := ⟨core, childrenAt [] roots, []⟩

@[simp] theorem Placed.erase_start (core : κ) (roots : List α) :
    (Placed.start core roots).erase = ⟨core, roots⟩ := by
  simp [Placed.start, Placed.erase]

/-- The queue after a move made at place `p`. A replacement keeps the place. -/
def Move.enqueue (p : Place) (rest : List (Place × α)) : Move α → List (Place × α)
  | .skip => rest
  | .replace other => (p, other) :: rest
  | .push items => rest ++ childrenAt p items

def Machine.settled (m : Machine κ α ε) (core : κ) (queue : List (Place × α)) : Move α → κ
  | .push _ => m.settle core (queue.map Prod.snd)
  | _ => core

def Machine.placedStep (m : Machine κ α ε) (s : Placed κ α) :
    Loop.Outcome (Placed κ α) (Except ε (Placed κ α)) :=
  match s.queue with
  | [] => .stop (.ok s)
  | (p, item) :: rest =>
    match m.visit s.core item with
    | .error e => .stop (.error e)
    | .ok (core, move) =>
      .next { core := m.settled core (move.enqueue p rest) move
              queue := move.enqueue p rest
              history := s.history ++ [⟨p, item, s.core, core, move⟩] }

theorem placedStep_next {m : Machine κ α ε} {s t : Placed κ α} (h : m.placedStep s = .next t) :
    ∃ v rest, s.queue = (v.place, v.item) :: rest ∧ v.before = s.core ∧
      m.visit v.before v.item = .ok (v.after, v.move) ∧
      t.core = m.settled v.after (v.move.enqueue v.place rest) v.move ∧
      t.queue = v.move.enqueue v.place rest ∧ t.history = s.history ++ [v] := by
  unfold Machine.placedStep at h
  split at h
  · cases h
  · next p item rest hq =>
    split at h
    · cases h
    · next core move hv =>
      cases h
      exact ⟨⟨p, item, s.core, core, move⟩, rest, hq, rfl, hv, rfl, rfl, rfl⟩

theorem placedStep_visit {m : Machine κ α ε} {s t : Placed κ α} {v : Visit κ α}
    (h : m.placedStep s = .next t) (hhist : t.history = s.history ++ [v]) :
    v.before = s.core ∧ m.visit v.before v.item = .ok (v.after, v.move) ∧
      ∃ rest, s.queue = (v.place, v.item) :: rest ∧ t.queue = v.move.enqueue v.place rest := by
  obtain ⟨w, rest, hq, hb, hv, -, hqueue, hhist'⟩ := placedStep_next h
  obtain ⟨-, hw⟩ := List.append_inj' (hhist.symm.trans hhist') rfl
  cases hw
  exact ⟨hb, hv, rest, hq, hqueue⟩

/-! ## The placed worklist runs in lockstep with the plain one -/

theorem step_erase_of_placedStep {m : Machine κ α ε} {s t : Placed κ α}
    (h : m.placedStep s = .next t) : m.step s.erase = .next t.erase := by
  obtain ⟨v, rest, hq, hb, hv, hcore, hqueue, -⟩ := placedStep_next h
  rw [hb] at hv
  cases hmv : v.move <;>
    simp [Machine.step, Placed.erase, hq, hv, hcore, hqueue, hmv, Move.enqueue, Machine.settled]

theorem placedStep_of_step_erase {m : Machine κ α ε} {s : Placed κ α} {u : State κ α}
    (h : m.step s.erase = .next u) : ∃ t, m.placedStep s = .next t ∧ t.erase = u := by
  cases hst : m.placedStep s with
  | next t =>
    have := step_erase_of_placedStep hst
    rw [h] at this
    cases this
    exact ⟨t, rfl, rfl⟩
  | stop r =>
    unfold Machine.placedStep at hst
    split at hst
    · next hq => simp [Machine.step, Placed.erase, hq] at h
    · next p item rest hq =>
      split at hst
      · next e hv => simp [Machine.step, Placed.erase, hq, hv] at h
      · cases hst

theorem placed_reaches {m : Machine κ α ε} {s : Placed κ α} {u : State κ α}
    (h : Loop.Reaches m.step s.erase u) : ∃ t, Loop.Reaches m.placedStep s t ∧ t.erase = u := by
  induction h with
  | refl => exact ⟨s, Loop.Reaches.refl _, rfl⟩
  | tail _ hst ih =>
    obtain ⟨t, ht, rfl⟩ := ih
    obtain ⟨t', hst', rfl⟩ := placedStep_of_step_erase hst
    exact ⟨t', ht.tail hst', rfl⟩

theorem reaches_erase {m : Machine κ α ε} {s t : Placed κ α}
    (h : Loop.Reaches m.placedStep s t) : Loop.Reaches m.step s.erase t.erase := by
  induction h with
  | refl => exact Loop.Reaches.refl _
  | tail _ hst ih => exact ih.tail (step_erase_of_placedStep hst)

theorem step_eq_ok {m : Machine κ α ε} {s : State κ α} {core : κ}
    (h : m.step s = .stop (.ok core)) : s.queue = [] ∧ core = s.core := by
  unfold Machine.step at h
  split at h
  · next hq =>
    cases h
    exact ⟨hq, rfl⟩
  · split at h <;> cases h

theorem placed_returns {m : Machine κ α ε} {s : Placed κ α} {core : κ}
    (h : Loop.Returns m.step s.erase (.ok core)) :
    ∃ t, Loop.Reaches m.placedStep s t ∧ t.queue = [] ∧ t.core = core := by
  obtain ⟨u, hu, hstop⟩ := h
  obtain ⟨hq, rfl⟩ := step_eq_ok hstop
  obtain ⟨t, ht, rfl⟩ := placed_reaches hu
  exact ⟨t, ht, by simpa [Placed.erase] using hq, rfl⟩

/-- **Invariant rule for the core of a run that ends.** -/
theorem core_invariant {m : Machine κ α ε} {Inv : κ → Prop}
    (hvisit : ∀ core item core' move, Inv core → m.visit core item = .ok (core', move) → Inv core')
    (hsettle : ∀ core queue, Inv core → Inv (m.settle core queue)) {s : State κ α} {core : κ}
    (h : Loop.Returns m.step s (.ok core)) (hs : Inv s.core) : Inv core := by
  obtain ⟨t, hreach, hstop⟩ := h
  obtain ⟨-, rfl⟩ := step_eq_ok hstop
  have hstep : ∀ a b : State κ α, Inv a.core → m.step a = .next b → Inv b.core := by
    intro a b ha hab
    unfold Machine.step at hab
    split at hab
    · cases hab
    · next item rest hqueue =>
      split at hab
      · cases hab
      · next core' hv =>
        cases hab
        exact hvisit _ _ _ _ ha hv
      · next core' other hv =>
        cases hab
        exact hvisit _ _ _ _ ha hv
      · next core' items hv =>
        cases hab
        exact hsettle _ _ (hvisit _ _ _ _ ha hv)
  exact @Loop.Reaches.invariant _ _ m.step _ _ (fun a => Inv a.core) hstep hreach hs

/-! ## Two machines on one run -/

section Agree

variable {m m' : Machine κ α ε}

theorem placedStep_agree (hsettle : m'.settle = m.settle) {s t : Placed κ α} {v : Visit κ α}
    (h : m.placedStep s = .next t) (hhist : t.history = s.history ++ [v])
    (hv : m'.visit v.before v.item = .ok (v.after, v.move)) : m'.placedStep s = .next t := by
  obtain ⟨hb, hvm, rest, hq, -⟩ := placedStep_visit h hhist
  rw [hb] at hv hvm
  rw [← h]
  unfold Machine.placedStep
  simp only [hq, hv, hvm]
  cases v.move <;> simp [Machine.settled, hsettle]

theorem placed_agrees {s t : Placed κ α} (h : Loop.Reaches m.placedStep s t)
    (hvisit : ∀ v ∈ t.history, m'.visit v.before v.item = .ok (v.after, v.move))
    (hsettle : m'.settle = m.settle) :
    Loop.Reaches m'.placedStep s t := by
  induction h with
  | refl => exact Loop.Reaches.refl _
  | tail _ hst ih =>
    obtain ⟨v, -, -, -, -, -, -, hhist⟩ := placedStep_next hst
    exact (ih fun w hw => hvisit w (by simp [hhist, hw])).tail
      (placedStep_agree hsettle hst hhist (hvisit v (by simp [hhist])))

/-- **Agreement.** When every visit of a run either goes the same with another
machine or fails, the other machine makes the same run or fails. -/
theorem placed_agrees_or_fails {s t : Placed κ α} (h : Loop.Reaches m.placedStep s t)
    (hvisit : ∀ v ∈ t.history, m'.visit v.before v.item = .ok (v.after, v.move) ∨
      ∃ e, m'.visit v.before v.item = .error e)
    (hsettle : m'.settle = m.settle) :
    (Loop.Reaches m'.placedStep s t ∧ ∀ v ∈ t.history, v ∈ s.history ∨
      m'.visit v.before v.item = .ok (v.after, v.move)) ∨
    ∃ e, Loop.Returns m'.placedStep s (.error e) := by
  induction h with
  | refl => exact Or.inl ⟨Loop.Reaches.refl _, fun v hv => Or.inl hv⟩
  | @tail b c _ hst ih =>
    obtain ⟨v, rest, hq, hb, -, -, -, hhist⟩ := placedStep_next hst
    have hsub : b.history ⊆ c.history := by simp [hhist]
    rcases ih fun w hw => hvisit w (hsub hw) with ⟨hreach, hagree⟩ | hfails
    · rcases hvisit v (by simp [hhist]) with hv | ⟨e, hv⟩
      · left
        refine ⟨hreach.tail (placedStep_agree hsettle hst hhist hv), fun w hw => ?_⟩
        rw [hhist, List.mem_append, List.mem_singleton] at hw
        rcases hw with hw | rfl
        · exact hagree w hw
        · exact Or.inr hv
      · right
        refine ⟨e, b, hreach, ?_⟩
        rw [hb] at hv
        simp only [Machine.placedStep, hq, hv]
    · exact Or.inr hfails

end Agree

theorem returns_of_placed {m : Machine κ α ε} {s t : Placed κ α}
    (h : Loop.Reaches m.placedStep s t) (hq : t.queue = []) :
    Loop.Returns m.step s.erase (.ok t.core) :=
  ⟨t.erase, reaches_erase h, by simp [Machine.step, Placed.erase, hq]⟩

theorem returns_error_of_placed {m : Machine κ α ε} {s : Placed κ α} {e : ε}
    (h : Loop.Returns m.placedStep s (.error e)) : Loop.Returns m.step s.erase (.error e) := by
  obtain ⟨t, ht, hstop⟩ := h
  refine ⟨t.erase, reaches_erase ht, ?_⟩
  unfold Machine.placedStep at hstop
  split at hstop
  · cases hstop
  · next p item rest hq =>
    split at hstop
    · next e' hv =>
      cases hstop
      simp [Machine.step, Placed.erase, hq, hv]
    · cases hstop

/-! ## Termination -/

theorem returns_erase {m : Machine κ α ε} {s : Placed κ α} {r : Except ε (Placed κ α)}
    (h : Loop.Returns m.placedStep s r) : ∃ r', Loop.Returns m.step s.erase r' := by
  obtain ⟨t, ht, hstop⟩ := h
  cases hst : m.step t.erase with
  | stop r' => exact ⟨r', _, reaches_erase ht, hst⟩
  | next u =>
    obtain ⟨t', ht', -⟩ := placedStep_of_step_erase hst
    rw [hstop] at ht'
    cases ht'

/-- The order of the heads of two queues. -/
private def HeadLt (lt : α → α → Prop) (x y : Option α) : Prop :=
  ∃ a b, x = some a ∧ y = some b ∧ lt a b

private theorem wellFounded_headLt {lt : α → α → Prop} (hwf : WellFounded lt) :
    WellFounded (HeadLt lt) := by
  refine ⟨fun y => ?_⟩
  cases y with
  | none =>
    refine ⟨_, fun x hx => ?_⟩
    obtain ⟨a, b, -, hb, -⟩ := hx
    cases hb
  | some b =>
    induction b using hwf.induction with
    | _ b ih =>
      refine ⟨_, fun x hx => ?_⟩
      obtain ⟨a, b', rfl, hb, hlt⟩ := hx
      cases hb
      exact ih a hlt

/-- **Termination of worklists.** A worklist ends when some count of the core
never grows and drops with every push, and replacements descend. -/
theorem Machine.terminates {m : Machine κ α ε} {Inv : Placed κ α → Prop} (remaining : κ → Nat)
    {lt : α → α → Prop} (hwf : WellFounded lt)
    (hInv : ∀ s t, Inv s → m.placedStep s = .next t → Inv t)
    (hskip : ∀ s t v, Inv s → m.placedStep s = .next t → t.history = s.history ++ [v] →
      v.move = .skip → remaining t.core ≤ remaining s.core)
    (hreplace : ∀ s t v other, Inv s → m.placedStep s = .next t → t.history = s.history ++ [v] →
      v.move = .replace other → remaining t.core ≤ remaining s.core ∧ lt other v.item)
    (hpush : ∀ s t v items, Inv s → m.placedStep s = .next t → t.history = s.history ++ [v] →
      v.move = .push items → remaining t.core < remaining s.core)
    {s : Placed κ α} (hs : Inv s) : ∃ r, Loop.Returns m.step s.erase r := by
  let μ : Placed κ α → Nat × Nat × Option α := fun s =>
    (remaining s.core, s.queue.length, s.queue.head?.map Prod.snd)
  -- a push lowers the count, a skip shortens the queue, a replacement lowers its head
  let lex : Nat × Nat × Option α → Nat × Nat × Option α → Prop :=
    Prod.Lex (· < ·) (Prod.Lex (· < ·) (HeadLt lt))
  have hlex : WellFounded lex :=
    Nat.lt_wfRel.wf.prod_lex (Nat.lt_wfRel.wf.prod_lex (wellFounded_headLt hwf))
  have hdec : ∀ a b, Inv a → m.placedStep a = .next b → lex (μ b) (μ a) := by
    intro a b ha hab
    obtain ⟨v, rest, hq, -, -, -, hqueue, hhist⟩ := placedStep_next hab
    cases hmv : v.move with
    | skip =>
      rw [hmv] at hqueue
      rcases (hskip a b v ha hab hhist hmv).lt_or_eq with hlt | heq
      · exact Prod.Lex.left _ _ hlt
      · simp only [μ, heq, hq]
        exact Prod.Lex.right _ (Prod.Lex.left _ _ (by simp [hqueue, Move.enqueue]))
    | replace other =>
      rw [hmv] at hqueue
      obtain ⟨hle, hlt⟩ := hreplace a b v other ha hab hhist hmv
      rcases hle.lt_or_eq with hcore | heq
      · exact Prod.Lex.left _ _ hcore
      · simp only [μ, heq, hq, hqueue, Move.enqueue]
        exact Prod.Lex.right _ (Prod.Lex.right _ ⟨other, v.item, rfl, rfl, hlt⟩)
    | push items => exact Prod.Lex.left _ _ (hpush a b v items ha hab hhist hmv)
  obtain ⟨r, hr⟩ := Loop.exists_returns_of_measure hlex μ hInv hdec hs
  exact returns_erase hr

/-! ## Order -/

/-- `v` is visited no later than place `p`; at `p` itself only when `v` was
replaced there. -/
def Visit.UpTo (v : Visit κ α) (p : Place) : Prop :=
  Before v.place p ∨ v.place = p ∧ ∃ other, v.move = .replace other

/-- The breadth-first order of a placed worklist. -/
structure Ordered (s : Placed κ α) : Prop where
  queue_sorted : s.queue.Pairwise fun x y => Before x.1 y.1
  parent_before : ∀ x ∈ s.queue, ∀ y ∈ s.queue, Before x.1.dropLast y.1
  history_before : ∀ v ∈ s.history, ∀ x ∈ s.queue, v.UpTo x.1
  history_sorted : s.history.Pairwise fun v w => v.UpTo w.place

theorem Ordered.start (core : κ) (roots : List α) : Ordered (Placed.start core roots) where
  queue_sorted := childrenAt_sorted [] roots
  parent_before := by
    rintro ⟨p, a⟩ hx ⟨q, b⟩ hy
    obtain ⟨i, -, rfl⟩ := mem_childrenAt.mp hx
    obtain ⟨j, -, rfl⟩ := mem_childrenAt.mp hy
    simpa using before_child [] j
  history_before := by simp [Placed.start]
  history_sorted := by simp [Placed.start]

theorem Ordered.enqueue {p : Place} {a : α} {rest : List (Place × α)} (move : Move α)
    (hsorted : ((p, a) :: rest).Pairwise fun x y => Before x.1 y.1)
    (hparent : ∀ x ∈ (p, a) :: rest, ∀ y ∈ (p, a) :: rest, Before x.1.dropLast y.1) :
    (move.enqueue p rest).Pairwise (fun x y => Before x.1 y.1) ∧
      (∀ x ∈ move.enqueue p rest, ∀ y ∈ move.enqueue p rest, Before x.1.dropLast y.1) ∧
      (∀ x ∈ move.enqueue p rest, Before p x.1 ∨ p = x.1 ∧ ∃ other, move = .replace other) := by
  obtain ⟨hhead, hrest⟩ := List.pairwise_cons.mp hsorted
  cases move with
  | skip =>
    refine ⟨hrest, fun x hx y hy => ?_, fun x hx => Or.inl (hhead x hx)⟩
    exact hparent x (List.mem_cons_of_mem _ hx) y (List.mem_cons_of_mem _ hy)
  | replace other =>
    refine ⟨List.pairwise_cons.mpr ⟨hhead, hrest⟩, fun x hx y hy => ?_, fun x hx => ?_⟩
    · have key : ∀ z ∈ (p, other) :: rest, ∃ w ∈ (p, a) :: rest, w.1 = z.1 := by
        intro z hz
        rcases List.mem_cons.mp hz with rfl | hz
        · exact ⟨(p, a), List.mem_cons_self .., rfl⟩
        · exact ⟨z, List.mem_cons_of_mem _ hz, rfl⟩
      obtain ⟨x', hx', hxe⟩ := key x hx
      obtain ⟨y', hy', hye⟩ := key y hy
      rw [← hxe, ← hye]
      exact hparent x' hx' y' hy'
    · rcases List.mem_cons.mp hx with rfl | hx
      · exact Or.inr ⟨rfl, other, rfl⟩
      · exact Or.inl (hhead x hx)
  | push items =>
    -- a pushed child comes after every place whose parent was visited before
    have hchild : ∀ x ∈ rest, ∀ j, Before x.1 (p ++ [j]) := by
      intro x hx j
      have hpar : Before x.1.dropLast p :=
        hparent x (List.mem_cons_of_mem _ hx) _ (List.mem_cons_self ..)
      rcases List.eq_nil_or_concat' x.1 with hnil | ⟨q, i, hq⟩
      · exact absurd (hhead x hx) (by rw [hnil]; exact List.not_shortlex_nil_right)
      · rw [hq] at hpar ⊢
        rw [List.dropLast_concat] at hpar
        exact before_cousin hpar i j
    refine ⟨List.pairwise_append.mpr ⟨hrest, childrenAt_sorted p items, ?_⟩, ?_, ?_⟩
    · rintro x hx ⟨q, b⟩ hy
      obtain ⟨j, -, rfl⟩ := mem_childrenAt.mp hy
      exact hchild x hx j
    · rintro ⟨q, b⟩ hx ⟨r, c⟩ hy
      have hpr : Before p r := by
        rcases List.mem_append.mp hy with hy | hy
        · exact hhead _ hy
        · obtain ⟨j, -, rfl⟩ := mem_childrenAt.mp hy
          exact before_child p j
      rcases List.mem_append.mp hx with hx | hx
      · exact (hparent _ (List.mem_cons_of_mem _ hx) _ (List.mem_cons_self ..)).trans hpr
      · obtain ⟨i, -, rfl⟩ := mem_childrenAt.mp hx
        simpa using hpr
    · rintro ⟨q, b⟩ hx
      rcases List.mem_append.mp hx with hx | hx
      · exact Or.inl (hhead _ hx)
      · obtain ⟨i, -, rfl⟩ := mem_childrenAt.mp hx
        exact Or.inl (before_child p i)

theorem Visit.UpTo.trans_before {v : Visit κ α} {p q : Place} (h : v.UpTo p) (hpq : Before p q) :
    v.UpTo q := by
  rcases h with h | ⟨rfl, -⟩
  · exact Or.inl (h.trans hpq)
  · exact Or.inl hpq

theorem Ordered.step {m : Machine κ α ε} {s t : Placed κ α} (hs : Ordered s)
    (h : m.placedStep s = .next t) : Ordered t := by
  obtain ⟨v, rest, hq, -, -, -, hqueue, hhist⟩ := placedStep_next h
  have hsorted := hs.queue_sorted
  have hparent := hs.parent_before
  have hbefore := hs.history_before
  rw [hq] at hsorted hparent hbefore
  obtain ⟨hsorted', hparent', hafter⟩ := Ordered.enqueue v.move hsorted hparent
  have hhead : ∀ w ∈ s.history, w.UpTo v.place := fun w hw =>
    hbefore w hw _ (List.mem_cons_self ..)
  refine ⟨hqueue ▸ hsorted', hqueue ▸ hparent', ?_, ?_⟩
  · rw [hhist, hqueue]
    intro w hw x hx
    rcases List.mem_append.mp hw with hw | hw
    · rcases hafter x hx with hpx | ⟨hpx, -⟩
      · exact (hhead w hw).trans_before hpx
      · exact hpx ▸ hhead w hw
    · rw [List.mem_singleton] at hw
      exact hw ▸ hafter x hx
  · rw [hhist]
    refine List.pairwise_append.mpr ⟨hs.history_sorted, List.pairwise_singleton _ _, ?_⟩
    intro w hw w' hw'
    rw [List.mem_singleton] at hw'
    exact hw' ▸ hhead w hw

/-! ## What is visited -/

/-- The items the algorithm puts on its queue: roots and pushed children. -/
inductive Offered (roots : List α) (history : List (Visit κ α)) : Place → α → Prop where
  | root {i : Nat} {a : α} (h : roots[i]? = some a) : Offered roots history [i] a
  | child {v : Visit κ α} {items : List α} {j : Nat} {a : α} (hv : v ∈ history)
      (hpush : v.move = .push items) (ha : items[j]? = some a) :
      Offered roots history (v.place ++ [j]) a

inductive Entered (roots : List α) (history : List (Visit κ α)) : Place → α → Prop where
  | offered {p : Place} {a : α} (h : Offered roots history p a) : Entered roots history p a
  | replaced {v : Visit κ α} {a : α} (hv : v ∈ history) (hrep : v.move = .replace a) :
      Entered roots history v.place a

theorem Offered.mono {roots : List α} {H H' : List (Visit κ α)} (hsub : H ⊆ H') {p : Place} {a : α}
    (h : Offered roots H p a) : Offered roots H' p a := by
  cases h with
  | root h => exact .root h
  | child hv hpush ha => exact .child (hsub hv) hpush ha

/-- Some visit of `a` replaces it by `b`. -/
def Machine.Replaces (m : Machine κ α ε) (a b : α) : Prop :=
  ∃ before after, m.visit before a = .ok (after, .replace b)

/-- `a` is what became, by replacements, of the item offered at `p`. -/
def Traced (m : Machine κ α ε) (roots : List α) (history : List (Visit κ α)) (p : Place) (a : α) :
    Prop :=
  ∃ b, Offered roots history p b ∧ Relation.ReflTransGen m.Replaces b a

theorem Traced.mono {m : Machine κ α ε} {roots : List α} {H H' : List (Visit κ α)} (hsub : H ⊆ H')
    {p : Place} {a : α} (h : Traced m roots H p a) : Traced m roots H' p a := by
  obtain ⟨b, hb, hba⟩ := h
  exact ⟨b, hb.mono hsub, hba⟩

/-- Only offered items and their replacements are queued or visited, and every
item that entered is visited or waits in the queue. -/
structure Tracked (m : Machine κ α ε) (roots : List α) (s : Placed κ α) : Prop where
  visited : ∀ v ∈ s.history, m.visit v.before v.item = .ok (v.after, v.move)
  traced : ∀ v ∈ s.history, Traced m roots s.history v.place v.item
  queued : ∀ x ∈ s.queue, Traced m roots s.history x.1 x.2
  complete : ∀ p a, Entered roots s.history p a →
    (p, a) ∈ s.queue ∨ ∃ v ∈ s.history, v.place = p ∧ v.item = a

theorem Tracked.start (m : Machine κ α ε) (core : κ) (roots : List α) :
    Tracked m roots (Placed.start core roots) where
  visited := by simp [Placed.start]
  traced := by simp [Placed.start]
  queued := by
    rintro ⟨p, a⟩ hx
    obtain ⟨i, hi, rfl⟩ := mem_childrenAt.mp hx
    exact ⟨a, .root hi, Relation.ReflTransGen.refl⟩
  complete := by
    intro p a h
    left
    cases h with
    | offered h =>
      cases h with
      | @root i _ hi => exact mem_childrenAt.mpr ⟨i, hi, rfl⟩
      | child hv => simp [Placed.start] at hv
    | replaced hv => simp [Placed.start] at hv

theorem Tracked.step {m : Machine κ α ε} {roots : List α} {s t : Placed κ α}
    (hs : Tracked m roots s) (h : m.placedStep s = .next t) : Tracked m roots t := by
  obtain ⟨v, rest, hq, hb, hv, -, hqueue, hhist⟩ := placedStep_next h
  have hsub : s.history ⊆ t.history := by simp [hhist]
  have hvt : v ∈ t.history := by simp [hhist]
  have hcases : ∀ w ∈ t.history, w ∈ s.history ∨ w = v := by simp [hhist]
  refine ⟨fun w hw => ?_, fun w hw => ?_, ?_, ?_⟩
  · rcases hcases w hw with hw | rfl
    · exact hs.visited w hw
    · exact hv
  · rcases hcases w hw with hw | rfl
    · exact (hs.traced w hw).mono hsub
    · exact (hs.queued (w.place, w.item) (by rw [hq]; exact List.mem_cons_self ..)).mono hsub
  · rintro ⟨p, a⟩ hx
    have hold : (p, a) ∈ rest → Traced m roots t.history p a := fun hr =>
      (hs.queued _ (by rw [hq]; exact List.mem_cons_of_mem _ hr)).mono hsub
    rw [hqueue] at hx
    cases hmv : v.move with
    | skip =>
      rw [hmv] at hx
      exact hold hx
    | replace other =>
      rw [hmv] at hx
      rcases List.mem_cons.mp hx with hx | hx
      · cases hx
        obtain ⟨b, hb, hbv⟩ :=
          (hs.queued (v.place, v.item) (by rw [hq]; exact List.mem_cons_self ..)).mono hsub
        exact ⟨b, hb, hbv.tail ⟨v.before, v.after, hmv ▸ hv⟩⟩
      · exact hold hx
    | push items =>
      rw [hmv] at hx
      rcases List.mem_append.mp hx with hx | hx
      · exact hold hx
      · obtain ⟨j, hj, rfl⟩ := mem_childrenAt.mp hx
        exact ⟨a, .child hvt hmv hj, Relation.ReflTransGen.refl⟩
  · intro p a hent
    -- either it had entered before, or this visit made it enter
    have hcase : Entered roots s.history p a ∨ (p, a) ∈ v.move.enqueue v.place rest := by
      cases hent with
      | offered h =>
        cases h with
        | root hi => exact Or.inl (.offered (.root hi))
        | child hw hpush ha =>
          rcases hcases _ hw with hw | rfl
          · exact Or.inl (.offered (.child hw hpush ha))
          · right
            rw [hpush]
            exact List.mem_append_right _ (mem_childrenAt.mpr ⟨_, ha, rfl⟩)
      | replaced hw hrep =>
        rcases hcases _ hw with hw | rfl
        · exact Or.inl (.replaced hw hrep)
        · right
          rw [hrep]
          exact List.mem_cons_self ..
    rcases hcase with hold | hnew
    · rcases hs.complete p a hold with hmem | ⟨w, hw, hwp, hwa⟩
      · rw [hq] at hmem
        rcases List.mem_cons.mp hmem with heq | hrest
        · cases heq
          exact Or.inr ⟨v, hvt, rfl, rfl⟩
        · left
          rw [hqueue]
          cases v.move with
          | skip => exact hrest
          | replace other => exact List.mem_cons_of_mem _ hrest
          | push items => exact List.mem_append_left _ hrest
      · exact Or.inr ⟨w, hsub hw, hwp, hwa⟩
    · exact Or.inl (hqueue ▸ hnew)

/-! ## Facts about a visit and the visits before it -/

/-- `P` holds of every visit and the visits made before it. -/
def Stepwise (P : List (Visit κ α) → Visit κ α → Prop) (history : List (Visit κ α)) : Prop :=
  ∀ earlier v later, history = earlier ++ v :: later → P earlier v

theorem stepwise_nil (P : List (Visit κ α) → Visit κ α → Prop) : Stepwise P [] := by
  intro earlier v later h
  simp at h

theorem stepwise_concat {P : List (Visit κ α) → Visit κ α → Prop} {history : List (Visit κ α)}
    {v : Visit κ α} (h : Stepwise P history) (hv : P history v) : Stepwise P (history ++ [v]) := by
  intro earlier w later heq
  rcases List.eq_nil_or_concat' later with rfl | ⟨later', u, rfl⟩
  · obtain ⟨rfl, heq'⟩ := List.append_inj' heq rfl
    cases heq'
    exact hv
  · rw [← List.cons_append, ← List.append_assoc] at heq
    obtain ⟨heq', -⟩ := List.append_inj' heq rfl
    exact h earlier w later' heq'

end Worklist
