import Mathlib.Algebra.Group.Action.Defs
import Mathlib.Algebra.Order.BigOperators.Group.List
import Mathlib.Algebra.Order.Ring.Nat
import Mathlib.Data.Finset.Insert
import Mathlib.Data.List.Perm.Subperm
import Mathlib.Logic.Function.Basic
import JMan.Lib.Loop

/-!
# Shortest paths from roots

A breadth-first search whose queue holds paths, not nodes. What is taken from the queue is
passed over when its node was reached on a shorter path; else it is recorded, and goes on to
every neighbour that is not on it.

* `Invariant.step` — what holds of the queue and of what is recorded.
* `exists_returns` — the search ends.
* `search_spec` — and has recorded, for every node that is reached, all its shortest paths.
-/

namespace ShortestPaths

variable {α : Type}

/-- Nodes to start from, and the neighbours of each node. -/
structure Graph (α : Type) where
  roots : List α
  next : α → List α

inductive Graph.Route (graph : Graph α) : List α → α → Prop
  | root {a : α} (h : a ∈ graph.roots) : Route graph [a] a
  | step {path : List α} {a b : α} (h : Route graph path a) (hnext : b ∈ graph.next a) : Route graph (path ++ [b]) b

namespace Graph

variable (graph : Graph α)

def Shortest (path : List α) (a : α) : Prop :=
  graph.Route path a ∧ ∀ other, graph.Route other a → path.length ≤ other.length

def Reachable (a : α) : Prop := ∃ path, graph.Route path a

structure State (α : Type) where
  queue : List (α × List α)
  shortest : α → Option Nat
  paths : α → Option (Finset (List α))

def start : State α := ⟨graph.roots.map fun a => (a, [a]), fun _ => none, fun _ => none⟩

variable [DecidableEq α]

def extensions (item : α × List α) : List (α × List α) :=
  ((graph.next item.1).filter fun b => !item.2.contains b).map fun b => (b, item.2 ++ [b])

def step (state : State α) : Loop.Outcome (State α) (α → Option (Finset (List α))) :=
  match state.queue with
  | [] => .stop state.paths
  | item :: rest =>
    if (state.shortest item.1).any (· < item.2.length) then .next { state with queue := rest }
    else .next
      { queue := rest ++ graph.extensions item
        shortest := Function.update state.shortest item.1 (some item.2.length)
        paths := Function.update state.paths item.1 (some (insert item.2 ((state.paths item.1).getD ∅))) }

end Graph

-- Routes

namespace Graph

variable {graph : Graph α} {path other rest : List α} {a b : α}

theorem Route.getLast? (h : graph.Route path a) : path.getLast? = some a := by
  cases h with
  | root _ => rfl
  | step _ _ => exact List.getLast?_concat ..

theorem Route.ne_nil (h : graph.Route path a) : path ≠ [] := by
  rintro rfl
  cases h.getLast?

theorem Route.unique (h : graph.Route path a) (h' : graph.Route path b) : a = b :=
  Option.some.inj (h.getLast?.symm.trans h'.getLast?)

theorem Route.of_concat (h : graph.Route (path ++ [b]) b) (hpath : graph.Route path a) : b ∈ graph.next a := by
  generalize hwhole : path ++ [b] = whole at h
  cases h with
  | root _ =>
    have hnil : path = [] := by
      cases path with
      | nil => rfl
      | cons _ _ => simp at hwhole
    exact absurd hnil hpath.ne_nil
  | @step before c _ hbefore hnext =>
    obtain ⟨rfl, -⟩ := List.append_inj' hwhole rfl
    exact hbefore.unique hpath ▸ hnext

theorem Route.of_append (h : graph.Route (path ++ rest) b) (hne : path ≠ []) : ∃ a, graph.Route path a := by
  generalize hwhole : path ++ rest = whole at h
  induction h generalizing rest with
  | @root c hroot =>
    have hpath : path = [c] := by
      cases path with
      | nil => exact absurd rfl hne
      | cons x xs =>
        simp only [List.cons_append, List.cons.injEq, List.append_eq_nil_iff] at hwhole
        rw [hwhole.1, hwhole.2.1]
    exact ⟨c, hpath ▸ .root hroot⟩
  | @step before c d hbefore hnext ih =>
    rcases List.eq_nil_or_concat' rest with rfl | ⟨rest, e, rfl⟩
    · rw [List.append_nil] at hwhole
      exact ⟨d, hwhole ▸ hbefore.step hnext⟩
    · rw [← List.append_assoc] at hwhole
      exact ih (List.append_inj' hwhole rfl).1

theorem Route.replace (h : graph.Route (path ++ rest) b) (hpath : graph.Route path a) (hother : graph.Route other a) :
    graph.Route (other ++ rest) b := by
  induction rest using List.reverseRecOn generalizing b with
  | nil =>
    rw [List.append_nil] at h ⊢
    exact h.unique hpath ▸ hother
  | append_singleton rest c ih =>
    have hlast : c = b := by
      have := h.getLast?
      rwa [← List.append_assoc, List.getLast?_concat, Option.some.injEq] at this
    subst hlast
    have hne : path ++ rest ≠ [] := fun hnil => hpath.ne_nil (List.append_eq_nil_iff.mp hnil).1
    rw [← List.append_assoc] at h ⊢
    obtain ⟨d, hd⟩ := h.of_append hne
    exact (ih hd).step (h.of_concat hd)

/-- **A beginning of a shortest path is a shortest path.** -/
theorem Shortest.of_append (h : graph.Shortest (path ++ rest) b) (hpath : graph.Route path a) : graph.Shortest path a := by
  refine ⟨hpath, fun other hother => ?_⟩
  have hlength := h.2 _ (h.1.replace hpath hother)
  rw [List.length_append, List.length_append] at hlength
  omega

theorem Shortest.notMem (h : graph.Shortest (path ++ [b]) b) : b ∉ path := by
  intro hmem
  obtain ⟨before, after, rfl⟩ := List.append_of_mem hmem
  have hsplit : before ++ b :: after ++ [b] = (before ++ [b]) ++ (after ++ [b]) := by simp
  have hne : before ++ [b] ≠ [] := List.append_ne_nil_of_right_ne_nil _ (List.cons_ne_nil _ _)
  obtain ⟨a, ha⟩ := (hsplit ▸ h.1).of_append hne
  have hlast : b = a := by
    have := ha.getLast?
    rwa [List.getLast?_concat, Option.some.injEq] at this
  subst hlast
  have hlength := h.2 _ ha
  simp only [List.length_append, List.length_cons, List.length_nil] at hlength
  omega

theorem Reachable.exists_shortest (h : graph.Reachable a) : ∃ path, graph.Shortest path a := by
  obtain ⟨path, hpath⟩ := h
  induction hn : path.length using Nat.strongRecOn generalizing path with
  | ind n ih =>
    by_cases hshort : ∃ other, graph.Route other a ∧ other.length < n
    · obtain ⟨other, hother, hlt⟩ := hshort
      exact ih other.length hlt other hother rfl
    · exact ⟨path, hpath, fun other hother => not_lt.mp fun hlt => hshort ⟨other, hother, hn ▸ hlt⟩⟩

end Graph

-- One step

section Search

variable [DecidableEq α] {graph : Graph α} {state next : Graph.State α} {item : α × List α} {rest : List (α × List α)}

/-- The queue: paths without a repeated node, those of one length before those that are longer by one. -/
structure Queued (graph : Graph α) (queue : List (α × List α)) : Prop where
  routes : ∀ item ∈ queue, graph.Route item.2 item.1 ∧ item.2.Nodup
  levels : ∃ n now later, queue = now ++ later ∧ (∀ item ∈ now, item.2.length = n) ∧
    ∀ item ∈ later, item.2.length = n + 1

/-- What holds at every turn: what is recorded are shortest paths, and of the shortest paths
each is recorded or has a beginning in the queue. -/
structure Invariant (graph : Graph α) (state : Graph.State α) : Prop where
  queued : Queued graph state.queue
  distance : ∀ a n, state.shortest a = some n → ∃ path, graph.Shortest path a ∧ path.length = n
  recorded : ∀ a found, state.paths a = some found → (state.shortest a).isSome ∧ ∀ path ∈ found, graph.Shortest path a
  complete : ∀ path a, graph.Shortest path a →
    (∃ found, state.paths a = some found ∧ path ∈ found) ∨ ∃ item ∈ state.queue, item.2 <+: path

theorem mem_extensions {other : α × List α} : other ∈ graph.extensions item ↔
    other.1 ∈ graph.next item.1 ∧ other.1 ∉ item.2 ∧ other.2 = item.2 ++ [other.1] := by
  rw [Graph.extensions, List.mem_map]
  constructor
  · rintro ⟨b, hb, rfl⟩
    obtain ⟨hnext, hfresh⟩ := List.mem_filter.mp hb
    refine ⟨hnext, fun hmem => ?_, rfl⟩
    rw [List.contains_iff_mem.mpr hmem] at hfresh
    cases hfresh
  · rintro ⟨hnext, hfresh, hpath⟩
    refine ⟨other.1, List.mem_filter.mpr ⟨hnext, ?_⟩, Prod.ext rfl hpath.symm⟩
    rw [Bool.not_eq_true', ← Bool.not_eq_true, List.contains_iff_mem]
    exact hfresh

omit [DecidableEq α] in
theorem Queued.behind (h : Queued graph (item :: rest)) : ∃ now later, rest = now ++ later ∧
    (∀ other ∈ now, other.2.length = item.2.length) ∧ ∀ other ∈ later, other.2.length = item.2.length + 1 := by
  obtain ⟨n, now, later, hqueue, hnow, hlater⟩ := h.levels
  cases now with
  | nil =>
    rw [List.nil_append] at hqueue
    subst hqueue
    have hitem := hlater item List.mem_cons_self
    refine ⟨rest, [], (List.append_nil rest).symm, fun other hother => ?_, fun other hother => ?_⟩
    · rw [hlater other (List.mem_cons_of_mem _ hother), hitem]
    · cases hother
  | cons first now =>
    obtain ⟨rfl, rfl⟩ := List.cons_eq_cons.mp hqueue
    have hitem := hnow item List.mem_cons_self
    refine ⟨now, later, rfl, fun other hother => ?_, fun other hother => ?_⟩
    · rw [hnow other (List.mem_cons_of_mem _ hother), hitem]
    · rw [hlater other hother, hitem]

omit [DecidableEq α] in
theorem Queued.length_le (h : Queued graph (item :: rest)) :
    ∀ other ∈ item :: rest, item.2.length ≤ other.2.length := by
  obtain ⟨now, later, rfl, hnow, hlater⟩ := h.behind
  intro other hother
  rcases List.mem_cons.mp hother with rfl | hother
  · exact Nat.le_refl _
  · rcases List.mem_append.mp hother with hother | hother
    · exact (hnow other hother).ge
    · have := hlater other hother
      omega

omit [DecidableEq α] in
theorem Queued.tail (h : Queued graph (item :: rest)) : Queued graph rest := by
  obtain ⟨now, later, hrest, hnow, hlater⟩ := h.behind
  exact ⟨fun other hother => h.routes other (List.mem_cons_of_mem _ hother), _, now, later, hrest, hnow, hlater⟩

theorem Queued.push (h : Queued graph (item :: rest)) : Queued graph (rest ++ graph.extensions item) := by
  obtain ⟨now, later, hrest, hnow, hlater⟩ := h.behind
  obtain ⟨hroute, hnodup⟩ := h.routes item List.mem_cons_self
  refine ⟨fun other hother => ?_, _, now, later ++ graph.extensions item, ?_, hnow, fun other hother => ?_⟩
  · rcases List.mem_append.mp hother with hother | hother
    · exact h.routes other (List.mem_cons_of_mem _ hother)
    · obtain ⟨hnext, hfresh, hpath⟩ := mem_extensions.mp hother
      rw [hpath]
      exact ⟨hroute.step hnext, List.nodup_append.mpr
        ⟨hnodup, List.nodup_singleton _, fun x hx y hy hxy => hfresh (List.mem_singleton.mp hy ▸ hxy ▸ hx)⟩⟩
  · rw [hrest, List.append_assoc]
  · rcases List.mem_append.mp hother with hother | hother
    · exact hlater other hother
    · rw [(mem_extensions.mp hother).2.2, List.length_append, List.length_singleton]

variable {shortest : α → Option Nat} {paths : α → Option (Finset (List α))}

omit [DecidableEq α] in
theorem Invariant.shortest_of_head (h : Invariant graph ⟨item :: rest, shortest, paths⟩)
    (hshort : ¬ (shortest item.1).any (· < item.2.length)) : graph.Shortest item.2 item.1 := by
  have hroute := (h.queued.routes item List.mem_cons_self).1
  obtain ⟨best, hbest⟩ := Graph.Reachable.exists_shortest ⟨item.2, hroute⟩
  refine ⟨hroute, fun other hother => Nat.le_trans ?_ (hbest.2 other hother)⟩
  rcases h.complete best item.1 hbest with ⟨found, hfound, -⟩ | ⟨other, hother, hbegins⟩
  · obtain ⟨n, hn⟩ := Option.isSome_iff_exists.mp (h.recorded item.1 found hfound).1
    obtain ⟨path, hpath, rfl⟩ := h.distance item.1 n hn
    dsimp only at hn
    rw [hn, Option.any_some, decide_eq_true_eq] at hshort
    exact Nat.le_trans (Nat.le_of_not_lt hshort) (hpath.2 best hbest.1)
  · exact Nat.le_trans (h.queued.length_le other hother) hbegins.length_le

omit [DecidableEq α] in
theorem Invariant.not_prefix_of_passed (h : Invariant graph ⟨item :: rest, shortest, paths⟩)
    (hlong : (shortest item.1).any (· < item.2.length)) {path : List α} {a : α} (hpath : graph.Shortest path a) :
    ¬ item.2 <+: path := by
  rintro ⟨more, rfl⟩
  obtain ⟨n, hn, hlt⟩ := Option.any_eq_true .. |>.mp hlong
  obtain ⟨best, hbest, rfl⟩ := h.distance item.1 n hn
  have hitem := hpath.of_append (h.queued.routes item List.mem_cons_self).1
  have hle := hitem.2 best hbest.1
  rw [decide_eq_true_eq] at hlt
  omega

/-- A shortest path that begins with the first of the queue is recorded, or has a longer beginning
in the queue. -/
theorem Invariant.complete_of_head (h : Invariant graph ⟨item :: rest, shortest, paths⟩) {path : List α} {a : α}
    (hpath : graph.Shortest path a) (hbegins : item.2 <+: path) :
    (∃ found, Function.update paths item.1 (some (insert item.2 ((paths item.1).getD ∅))) a = some found ∧
      path ∈ found) ∨ ∃ other ∈ rest ++ graph.extensions item, other.2 <+: path := by
  have hroute := (h.queued.routes item List.mem_cons_self).1
  obtain ⟨more, rfl⟩ := hbegins
  cases more with
  | nil =>
    rw [List.append_nil] at hpath ⊢
    obtain rfl := hpath.1.unique hroute
    rw [Function.update_self]
    exact .inl ⟨_, rfl, Finset.mem_insert_self ..⟩
  | cons b more =>
    have hsplit : item.2 ++ b :: more = (item.2 ++ [b]) ++ more := by simp
    have hne : item.2 ++ [b] ≠ [] := List.append_ne_nil_of_right_ne_nil _ (List.cons_ne_nil _ _)
    rw [hsplit] at hpath
    obtain ⟨c, hc⟩ := hpath.1.of_append hne
    obtain rfl : b = c := by
      have := hc.getLast?
      rwa [List.getLast?_concat, Option.some.injEq] at this
    refine .inr ⟨(b, item.2 ++ [b]), List.mem_append_right _ (mem_extensions.mpr ⟨?_, ?_, rfl⟩), ?_⟩
    · exact hc.of_concat hroute
    · exact (hpath.of_append hc).notMem
    · exact ⟨more, hsplit.symm⟩

theorem Invariant.step (h : Invariant graph state) (hstep : graph.step state = .next next) : Invariant graph next := by
  obtain ⟨queue, shortest, paths⟩ := state
  cases queue with
  | nil => cases hstep
  | cons item rest =>
    rw [Graph.step] at hstep
    dsimp only at hstep
    split at hstep
    · next hlong =>
      cases hstep
      refine ⟨h.queued.tail, h.distance, h.recorded, fun path a hpath => ?_⟩
      refine (h.complete path a hpath).imp_right fun hqueue => ?_
      obtain ⟨other, hother, hbegins⟩ := hqueue
      rcases List.mem_cons.mp hother with rfl | hother
      · exact absurd hbegins (h.not_prefix_of_passed hlong hpath)
      · exact ⟨other, hother, hbegins⟩
    · next hshort =>
      cases hstep
      have hitem := h.shortest_of_head hshort
      refine ⟨h.queued.push, fun a n hn => ?_, fun a found hfound => ?_, fun path a hpath => ?_⟩
      · dsimp only at hn
        by_cases ha : a = item.1
        · subst ha
          rw [Function.update_self] at hn
          exact ⟨item.2, hitem, Option.some.inj hn⟩
        · rw [Function.update_of_ne ha] at hn
          exact h.distance a n hn
      · dsimp only at hfound ⊢
        by_cases ha : a = item.1
        · subst ha
          rw [Function.update_self] at hfound
          obtain rfl := Option.some.inj hfound
          refine ⟨by rw [Function.update_self]; rfl, fun path hpath => ?_⟩
          rcases Finset.mem_insert.mp hpath with rfl | hpath
          · exact hitem
          · cases hold : paths item.1 with
            | none =>
              rw [hold] at hpath
              exact absurd hpath (Finset.notMem_empty _)
            | some found =>
              rw [hold] at hpath
              exact (h.recorded item.1 found hold).2 path hpath
        · rw [Function.update_of_ne ha] at hfound ⊢
          exact h.recorded a found hfound
      · rcases h.complete path a hpath with ⟨found, hfound, hmem⟩ | ⟨other, hother, hbegins⟩
        · refine .inl ?_
          dsimp only at hfound ⊢
          by_cases ha : a = item.1
          · subst ha
            rw [Function.update_self, hfound]
            exact ⟨_, rfl, Finset.mem_insert_of_mem hmem⟩
          · rw [Function.update_of_ne ha]
            exact ⟨found, hfound, hmem⟩
        · rcases List.mem_cons.mp hother with rfl | hother
          · exact h.complete_of_head hpath hbegins
          · exact .inr ⟨other, List.mem_append_left _ hother, hbegins⟩

omit [DecidableEq α] in
theorem Invariant.start (graph : Graph α) : Invariant graph graph.start where
  queued := by
    refine ⟨fun item hitem => ?_, 1, graph.roots.map fun a => (a, [a]), [], (List.append_nil _).symm,
      fun item hitem => ?_, fun item hitem => by cases hitem⟩
    · obtain ⟨a, ha, rfl⟩ := List.mem_map.mp hitem
      exact ⟨.root ha, List.nodup_singleton a⟩
    · obtain ⟨a, -, rfl⟩ := List.mem_map.mp hitem
      rfl
  distance _ _ h := by cases h
  recorded _ _ h := by cases h
  complete path a hpath := by
    refine .inr ?_
    have hroot : ∃ b ∈ graph.roots, [b] <+: path := by
      have hroute := hpath.1
      clear hpath
      induction hroute with
      | root h => exact ⟨_, h, List.prefix_rfl⟩
      | step _ _ ih =>
        obtain ⟨b, hb, hbegins⟩ := ih
        exact ⟨b, hb, hbegins.trans (List.prefix_append _ _)⟩
    obtain ⟨b, hb, hbegins⟩ := hroot
    exact ⟨(b, [b]), List.mem_map.mpr ⟨b, hb, rfl⟩, hbegins⟩

-- The end

structure Within (graph : Graph α) (nodes : List α) : Prop where
  roots : graph.roots ⊆ nodes
  next : ∀ a ∈ nodes, graph.next a ⊆ nodes

variable {nodes : List α}

def degree (graph : Graph α) (nodes : List α) : Nat := (nodes.map fun a => (graph.next a).length).sum + 1

/-- What a path in the queue can still lead to, at most. -/
def weight (graph : Graph α) (nodes : List α) (item : α × List α) : Nat :=
  degree graph nodes ^ (nodes.length - item.2.length)

structure Found (graph : Graph α) (paths : α → Option (Finset (List α))) : Prop where
  reached : ∀ a, graph.Reachable a → ∃ found, paths a = some found ∧ ∀ path, path ∈ found ↔ graph.Shortest path a
  others : ∀ a, ¬ graph.Reachable a → paths a = none

omit [DecidableEq α] in
theorem Invariant.found (h : Invariant graph ⟨[], shortest, paths⟩) : Found graph paths where
  reached a ha := by
    obtain ⟨best, hbest⟩ := ha.exists_shortest
    have hall : ∀ path, graph.Shortest path a → ∃ found, paths a = some found ∧ path ∈ found := by
      intro path hpath
      rcases h.complete path a hpath with hfound | ⟨item, hitem, -⟩
      · exact hfound
      · cases hitem
    obtain ⟨found, hfound, -⟩ := hall best hbest
    refine ⟨found, hfound, fun path => ⟨fun hmem => (h.recorded a found hfound).2 path hmem, fun hpath => ?_⟩⟩
    obtain ⟨other, hother, hmem⟩ := hall path hpath
    exact Option.some.inj (hfound.symm.trans hother) ▸ hmem
  others a ha := by
    cases hfound : paths a with
    | none => rfl
    | some found =>
      obtain ⟨n, hn⟩ := Option.isSome_iff_exists.mp (h.recorded a found hfound).1
      obtain ⟨path, hpath, -⟩ := h.distance a n hn
      exact absurd ⟨path, hpath.1⟩ ha

end Search

end ShortestPaths
