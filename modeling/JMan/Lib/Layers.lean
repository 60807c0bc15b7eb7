import Mathlib.Data.List.Chain
import Mathlib.Data.List.Flatten
import Mathlib.Data.List.Nodup
import JMan.Lib.Acyclic
import JMan.Lib.Fallible

/-!
# Layers

Points that need other points, taken in rounds: each round takes what needs only
points already taken, until nothing is left or nothing is ready; and the
depth-first search that names a cycle among what is left.

* `rounds_ends` — how a run of rounds ends.
* `exists_ready` — without a cycle something is always ready.
* `rounds_of_acyclic` — the rounds then take all there is, layer by layer.
* `Ordered.acyclic` — what was taken is on no cycle.
* `search_finds` — where every candidate needs a candidate, the search names a
  cycle.
-/

namespace Layers

open Relation (ReflTransGen TransGen)

variable {α : Type*} {β ε : Type*}

-- Orders in which everything comes after what it needs

inductive Ordered (needs : α → List α) : List α → Prop where
  | nil : Ordered needs []
  | snoc {done : List α} {a : α} (h : Ordered needs done) (ha : ∀ b ∈ needs a, b ∈ done) :
      Ordered needs (done ++ [a])

section Ordered

variable {needs : α → List α} {done layer : List α} {a b : α}

theorem Ordered.closed (h : Ordered needs done) (ha : a ∈ done) (hb : b ∈ needs a) : b ∈ done := by
  induction h with
  | nil => cases ha
  | @snoc done c _ hc ih =>
    rcases List.mem_append.mp ha with ha | ha
    · exact List.mem_append_left _ (ih ha)
    · rw [List.mem_singleton.mp ha] at hb
      exact List.mem_append_left _ (hc b hb)

theorem Ordered.closed_reach (h : Ordered needs done) (ha : a ∈ done)
    (hb : ReflTransGen (fun a b => b ∈ needs a) a b) : b ∈ done := by
  induction hb with
  | refl => exact ha
  | tail _ hb ih => exact h.closed ih hb

theorem Ordered.acyclic (h : Ordered needs done) (ha : a ∈ done) :
    ¬ TransGen (fun a b => b ∈ needs a) a a := by
  induction h with
  | nil => cases ha
  | @snoc done c h hc ih =>
    by_cases hmem : a ∈ done
    · exact ih hmem
    · intro hcycle
      have hac : a = c := by simpa [hmem] using ha
      subst hac
      obtain ⟨b, hb, hba⟩ := TransGen.head'_iff.mp hcycle
      exact hmem (h.closed_reach (hc b hb) hba)

theorem Ordered.before {before after : List α} (h : Ordered needs (before ++ a :: after))
    (hb : b ∈ needs a) : b ∈ before := by
  generalize hdone : before ++ a :: after = done at h
  induction h generalizing after with
  | nil => simp at hdone
  | @snoc done c _ hc ih =>
    rcases List.eq_nil_or_concat after with rfl | ⟨front, last, rfl⟩
    · obtain ⟨rfl, hac⟩ := List.append_inj' hdone rfl
      rw [List.singleton_inj.mp hac] at hb
      exact hc b hb
    · have hfront : (before ++ a :: front) ++ [last] = done ++ [c] := by simpa using hdone
      exact ih (List.append_inj' hfront rfl).1

theorem Ordered.append (h : Ordered needs done) (hlayer : ∀ a ∈ layer, ∀ b ∈ needs a, b ∈ done) :
    Ordered needs (done ++ layer) := by
  induction layer generalizing done with
  | nil =>
    rw [List.append_nil]
    exact h
  | cons a layer ih =>
    have hfirst : Ordered needs (done ++ [a]) := h.snoc (hlayer a List.mem_cons_self)
    have hrest : ∀ c ∈ layer, ∀ b ∈ needs c, b ∈ done ++ [a] := fun c hc b hb =>
      List.mem_append_left _ (hlayer c (List.mem_cons_of_mem _ hc) b hb)
    rw [List.append_cons]
    exact ih hfirst hrest

end Ordered

-- Rounds

variable [DecidableEq α]

def remaining (all done : List α) : List α := all.filter (· ∉ done)

def ready (needs : α → List α) (all done : List α) : List α :=
  (remaining all done).filter fun a => ∀ b ∈ needs a, b ∈ done

theorem mem_remaining {all done : List α} {a : α} : a ∈ remaining all done ↔ a ∈ all ∧ a ∉ done := by
  simp [remaining]

theorem mem_ready {needs : α → List α} {all done : List α} {a : α} :
    a ∈ ready needs all done ↔ (a ∈ all ∧ a ∉ done) ∧ ∀ b ∈ needs a, b ∈ done := by
  simp [ready, mem_remaining]

theorem remaining_append (all done layer : List α) :
    remaining all (done ++ layer) = remaining (remaining all done) layer := by
  simp only [remaining, List.filter_filter]
  refine List.filter_congr fun a _ => ?_
  simp [Bool.and_comm]

theorem length_remaining_lt {all done layer : List α} {a : α} (ha : a ∈ remaining all done)
    (hlayer : a ∈ layer) :
    (remaining all (done ++ layer)).length < (remaining all done).length := by
  rw [remaining_append]
  refine List.length_filter_lt_length_iff_exists.mpr ⟨a, ha, ?_⟩
  simpa using hlayer

theorem length_remaining_ready_lt {needs : α → List α} {all done : List α}
    (h : ready needs all done ≠ []) :
    (remaining all (done ++ ready needs all done)).length < (remaining all done).length := by
  obtain ⟨a, ha⟩ := List.exists_mem_of_ne_nil _ h
  exact length_remaining_lt (mem_remaining.mpr (mem_ready.mp ha).1) ha

/-- Rounds, until nothing remains: `turn` is what is done with a layer, `stuck` what
is reported of what remains when nothing is ready. -/
def rounds (needs : α → List α) (all : List α) (turn : β → List α → Except ε β)
    (stuck : List α → ε) (done : List α) (b : β) : Except ε β :=
  if remaining all done = [] then .ok b
  else if _ : ready needs all done = [] then .error (stuck (remaining all done))
  else
    match turn b (ready needs all done) with
    | .error e => .error e
    | .ok b => rounds needs all turn stuck (done ++ ready needs all done) b
termination_by (remaining all done).length
decreasing_by exact length_remaining_ready_lt ‹_›

inductive Peeled (needs : α → List α) (all : List α) : List (List α) → Prop where
  | nil : Peeled needs all []
  | snoc {layers : List (List α)} (h : Peeled needs all layers)
      (hready : ready needs all layers.flatten ≠ []) :
      Peeled needs all (layers ++ [ready needs all layers.flatten])

section Peeled

variable {needs : α → List α} {all : List α} {layers : List (List α)}

omit [DecidableEq α] in
theorem flatten_snoc (layers : List (List α)) (layer : List α) :
    (layers ++ [layer]).flatten = layers.flatten ++ layer := by
  simp

theorem Peeled.subset (h : Peeled needs all layers) : layers.flatten ⊆ all := by
  induction h with
  | nil => exact List.nil_subset _
  | @snoc layers _ _ ih =>
    rw [flatten_snoc]
    exact List.append_subset.mpr ⟨ih, fun a ha => (mem_ready.mp ha).1.1⟩

theorem Peeled.nodup (h : Peeled needs all layers) (hall : all.Nodup) : layers.flatten.Nodup := by
  induction h with
  | nil => exact List.nodup_nil
  | @snoc layers _ _ ih =>
    rw [flatten_snoc]
    refine List.nodup_append'.mpr ⟨ih, (hall.filter _).filter _, fun a ha hlayer => ?_⟩
    exact (mem_ready.mp hlayer).1.2 ha

theorem Peeled.ordered (h : Peeled needs all layers) : Ordered needs layers.flatten := by
  induction h with
  | nil => exact Ordered.nil
  | @snoc layers _ _ ih =>
    rw [flatten_snoc]
    exact ih.append fun a ha => (mem_ready.mp ha).2

theorem Peeled.ne_nil (h : Peeled needs all layers) : ∀ layer ∈ layers, layer ≠ [] := by
  induction h with
  | nil =>
    intro layer hlayer
    cases hlayer
  | @snoc layers _ hready ih =>
    intro layer hlayer
    rcases List.mem_append.mp hlayer with hlayer | hlayer
    · exact ih layer hlayer
    · rw [List.mem_singleton.mp hlayer]
      exact hready

theorem Peeled.split {before after : List (List α)} {layer : List α}
    (h : Peeled needs all (before ++ layer :: after)) :
    Peeled needs all before ∧ layer = ready needs all before.flatten := by
  generalize hlayers : before ++ layer :: after = layers at h
  induction h generalizing after with
  | nil => simp at hlayers
  | @snoc layers h _ ih =>
    rcases List.eq_nil_or_concat after with rfl | ⟨front, last, rfl⟩
    · obtain ⟨rfl, hlayer⟩ := List.append_inj' hlayers rfl
      exact ⟨h, List.singleton_inj.mp hlayer⟩
    · have hfront : (before ++ layer :: front) ++ [last] =
          layers ++ [ready needs all layers.flatten] := by
        simpa using hlayers
      exact ih (List.append_inj' hfront rfl).1

theorem Peeled.earlier {before after : List (List α)} {layer : List α}
    (h : Peeled needs all (before ++ layer :: after)) {a : α} (ha : a ∈ layer) {b : α}
    (hb : b ∈ needs a) : b ∈ before.flatten := by
  rw [h.split.2] at ha
  exact (mem_ready.mp ha).2 b hb

end Peeled

/-- How a run of rounds ends: with nothing left, with nothing ready, or in a turn
that fails. -/
inductive Ends (needs : α → List α) (all : List α) (turn : β → List α → Except ε β)
    (stuck : List α → ε) (b : β) : Except ε β → Prop where
  | complete {layers : List (List α)} {b' : β} (h : Peeled needs all layers)
      (hrun : layers.foldlM turn b = .ok b') (hall : all ⊆ layers.flatten) :
      Ends needs all turn stuck b (.ok b')
  | stuck {layers : List (List α)} {b' : β} (h : Peeled needs all layers)
      (hrun : layers.foldlM turn b = .ok b') (hleft : remaining all layers.flatten ≠ [])
      (hready : ready needs all layers.flatten = []) :
      Ends needs all turn stuck b (.error (stuck (remaining all layers.flatten)))
  | failed {layers : List (List α)} {b' : β} {e : ε} (h : Peeled needs all layers)
      (hrun : layers.foldlM turn b = .ok b') (hready : ready needs all layers.flatten ≠ [])
      (hturn : turn b' (ready needs all layers.flatten) = .error e) :
      Ends needs all turn stuck b (.error e)

section Rounds

variable {needs : α → List α} {all : List α} {turn : β → List α → Except ε β}
  {stuck : List α → ε} {b b' : β}

omit [DecidableEq α] in
theorem foldlM_snoc {layers : List (List α)} {layer : List α}
    (hrun : layers.foldlM turn b = .ok b') :
    (layers ++ [layer]).foldlM turn b = turn b' layer := by
  rw [List.foldlM_append, hrun]
  show (turn b' layer >>= pure) = turn b' layer
  exact bind_pure _

theorem rounds_ends_from {layers : List (List α)} (h : Peeled needs all layers)
    (hrun : layers.foldlM turn b = .ok b') :
    Ends needs all turn stuck b (rounds needs all turn stuck layers.flatten b') := by
  generalize hn : (remaining all layers.flatten).length = n
  induction n using Nat.strong_induction_on generalizing layers b' with
  | _ n ih =>
    rw [rounds]
    split
    · next hleft =>
      refine Ends.complete h hrun fun a ha => ?_
      by_contra hmem
      have : a ∈ remaining all layers.flatten := mem_remaining.mpr ⟨ha, hmem⟩
      rw [hleft] at this
      cases this
    split
    · next hleft hready => exact Ends.stuck h hrun hleft hready
    · next hready =>
      split
      · next e hturn => exact Ends.failed h hrun hready hturn
      · next c hturn =>
        rw [← flatten_snoc]
        have hlt := length_remaining_ready_lt hready
        rw [← flatten_snoc] at hlt
        refine ih _ (hn ▸ hlt) (h.snoc hready) ?_ rfl
        rw [foldlM_snoc hrun, hturn]

/-- **How a run of rounds ends.** -/
theorem rounds_ends (needs : α → List α) (all : List α) (turn : β → List α → Except ε β)
    (stuck : List α → ε) (b : β) :
    Ends needs all turn stuck b (rounds needs all turn stuck [] b) :=
  rounds_ends_from Peeled.nil rfl

/-- **Without a cycle something is ready.** -/
theorem exists_ready {done : List α} (hclosed : ∀ a ∈ all, ∀ b ∈ needs a, b ∈ all)
    (hacyclic : ∀ a ∈ all, ¬ TransGen (fun a b => b ∈ needs a) a a)
    (hleft : remaining all done ≠ []) : ready needs all done ≠ [] := by
  intro hready
  obtain ⟨a, ha⟩ := List.exists_mem_of_ne_nil _ hleft
  have hreach : ∀ {a b}, a ∈ all → ReflTransGen (fun a b => b ∈ needs a) a b → b ∈ all := by
    intro a b ha hab
    induction hab with
    | refl => exact ha
    | tail _ hb ih => exact hclosed _ ih _ hb
  have hall := (mem_remaining.mp ha).1
  have hacc : Acc (fun y x => y ∈ needs x) a := by
    refine Acyclic.acc_of_finite (r := fun a b => b ∈ needs a) ?_ ?_
    · exact Set.Finite.subset (List.finite_toSet all) fun b hb => hreach hall hb
    · intro hcycle
      obtain ⟨b, hab, hbb⟩ := hcycle
      exact hacyclic b (hreach hall hab) hbb
  -- what remains needs something that remains, and so on without end
  clear hall
  induction hacc with
  | intro a _ ih =>
    obtain ⟨hall, hdone⟩ := mem_remaining.mp ha
    have hnot : a ∉ ready needs all done := by
      rw [hready]
      exact List.not_mem_nil
    obtain ⟨b, hb, hbdone⟩ : ∃ b ∈ needs a, b ∉ done := by
      by_contra hnone
      push Not at hnone
      exact hnot (mem_ready.mpr ⟨⟨hall, hdone⟩, hnone⟩)
    exact ih b hb (mem_remaining.mpr ⟨hclosed a hall b hb, hbdone⟩)

/-- **Without a cycle the layers are the same whatever is done with them**, and the
rounds take them one after the other. -/
theorem rounds_of_acyclic (hclosed : ∀ a ∈ all, ∀ b ∈ needs a, b ∈ all)
    (hacyclic : ∀ a ∈ all, ¬ TransGen (fun a b => b ∈ needs a) a a) :
    ∃ layers, Peeled needs all layers ∧ all ⊆ layers.flatten ∧
      ∀ {β ε : Type} (turn : β → List α → Except ε β) (stuck : List α → ε) (b : β),
        rounds needs all turn stuck [] b = layers.foldlM turn b := by
  have key : ∀ n, ∀ layers, Peeled needs all layers → (remaining all layers.flatten).length = n →
      ∃ after, Peeled needs all (layers ++ after) ∧ all ⊆ (layers ++ after).flatten ∧
        ∀ {β ε : Type} (turn : β → List α → Except ε β) (stuck : List α → ε) (b : β),
          rounds needs all turn stuck layers.flatten b = after.foldlM turn b := by
    intro n
    induction n using Nat.strong_induction_on with
    | _ n ih =>
      intro layers h hn
      by_cases hleft : remaining all layers.flatten = []
      · refine ⟨[], by rwa [List.append_nil], fun a ha => ?_, fun {β ε} turn stuck b => ?_⟩
        · rw [List.append_nil]
          by_contra hmem
          have : a ∈ remaining all layers.flatten := mem_remaining.mpr ⟨ha, hmem⟩
          rw [hleft] at this
          cases this
        · rw [rounds, if_pos hleft]
          rfl
      · have hready := exists_ready hclosed hacyclic hleft
        have hlt := length_remaining_ready_lt hready
        rw [← flatten_snoc, hn] at hlt
        obtain ⟨after, hpeeled, hall, hrun⟩ := ih _ hlt _ (h.snoc hready) rfl
        rw [List.append_assoc] at hpeeled hall
        refine ⟨_, hpeeled, hall, fun {β ε} turn stuck b => ?_⟩
        rw [rounds, if_neg hleft, dif_neg hready, List.singleton_append, List.foldlM_cons]
        rw [flatten_snoc] at hrun
        cases hturn : turn b (ready needs all layers.flatten) with
        | error e => rfl
        | ok b' => exact hrun turn stuck b'
  obtain ⟨after, hpeeled, hall, hrun⟩ := key _ [] Peeled.nil rfl
  exact ⟨after, hpeeled, hall, hrun⟩

end Rounds

-- The search for a cycle

/-- Each point needs the next, and the last is the first. -/
def IsCycle (needs : α → List α) (cycle : List α) : Prop :=
  ∃ a path, cycle = a :: (path ++ [a]) ∧ cycle.IsChain fun a b => b ∈ needs a

theorem length_remaining_push_lt {candidates stack : List α} {a : α} (ha : a ∈ candidates)
    (hnew : a ∉ stack) :
    (remaining candidates (stack ++ [a])).length < (remaining candidates stack).length :=
  length_remaining_lt (mem_remaining.mpr ⟨ha, hnew⟩) List.mem_cons_self

mutual

/-- The depth-first search below a point: the cycle it closes, as an error, or what
is complete once nothing below the point leads into a cycle. -/
def visit (needs : α → List α) (candidates complete stack : List α) (a : α)
    (_ha : a ∈ candidates) : Except (List α) (List α) :=
  if _ : a ∈ stack then .error (stack.drop (stack.idxOf a) ++ [a])
  else if a ∈ complete then .ok complete
  else
    match visitAll needs candidates complete (stack ++ [a]) (needs a) with
    | .error cycle => .error cycle
    | .ok complete => .ok (complete ++ [a])
termination_by ((remaining candidates stack).length, 0)
decreasing_by exact Prod.Lex.left _ _ (length_remaining_push_lt _ha ‹_›)

/-- The search below each point of a list that is a candidate. -/
def visitAll (needs : α → List α) (candidates complete stack : List α) :
    List α → Except (List α) (List α)
  | [] => .ok complete
  | b :: rest =>
    if hb : b ∈ candidates then
      match visit needs candidates complete stack b hb with
      | .error cycle => .error cycle
      | .ok complete => visitAll needs candidates complete stack rest
    else visitAll needs candidates complete stack rest
termination_by points => ((remaining candidates stack).length, points.length)
decreasing_by
  · exact Prod.Lex.right _ (Nat.succ_pos _)
  · exact Prod.Lex.right _ (Nat.lt_succ_self _)
  · exact Prod.Lex.right _ (Nat.lt_succ_self _)

end

section Search

variable {needs : α → List α} {candidates complete stack points : List α} {a b : α}

def within (needs : α → List α) (candidates : List α) (a : α) : List α :=
  (needs a).filter (· ∈ candidates)

theorem mem_within : b ∈ within needs candidates a ↔ b ∈ needs a ∧ b ∈ candidates := by
  simp [within]

/-- The stack is a path, and what was needed leads on to the next point. -/
def Path (needs : α → List α) (stack : List α) : Prop := stack.IsChain fun a b => b ∈ needs a

omit [DecidableEq α] in
theorem Path.push (h : Path needs (stack ++ [a])) (hb : b ∈ needs a) :
    Path needs (stack ++ [a] ++ [b]) := by
  rw [List.append_assoc]
  exact List.isChain_split.mpr ⟨h, List.isChain_pair.mpr hb⟩

theorem Path.isCycle (h : Path needs (stack ++ [a])) (ha : a ∈ stack) :
    IsCycle needs (stack.drop (stack.idxOf a) ++ [a]) := by
  have hlt : stack.idxOf a < stack.length := List.idxOf_lt_length_of_mem ha
  have hdrop : stack.drop (stack.idxOf a) = a :: stack.drop (stack.idxOf a + 1) := by
    rw [List.drop_eq_getElem_cons hlt, List.getElem_idxOf hlt]
  refine ⟨a, stack.drop (stack.idxOf a + 1), ?_, ?_⟩
  · rw [hdrop]
    rfl
  · refine List.IsChain.suffix h ⟨stack.take (stack.idxOf a), ?_⟩
    rw [← List.append_assoc, List.take_append_drop]

structure Completes (needs : α → List α) (candidates complete points after : List α) : Prop where
  ordered : Ordered (within needs candidates) after
  kept : complete ⊆ after
  reached : ∀ b ∈ points, b ∈ candidates → b ∈ after

/-- Its result is right: a cycle, or what is complete now. -/
def Searched (needs : α → List α) (candidates complete points : List α)
    (result : Except (List α) (List α)) : Prop :=
  (∀ cycle, result = .error cycle → IsCycle needs cycle) ∧
    ∀ after, result = .ok after → Completes needs candidates complete points after

theorem Searched.error {cycle : List α} (h : IsCycle needs cycle) :
    Searched needs candidates complete points (.error cycle) := by
  refine ⟨fun found hfound => ?_, fun after hafter => by cases hafter⟩
  cases hfound
  exact h

theorem Searched.ok {after : List α} (h : Completes needs candidates complete points after) :
    Searched needs candidates complete points (.ok after) := by
  have hfail : ∀ cycle, Except.ok after = .error cycle → IsCycle needs cycle := by
    intro cycle hcycle
    cases hcycle
  refine ⟨hfail, fun found hfound => ?_⟩
  cases hfound
  exact h

/-- **The search is right**, below one point and below several. -/
theorem searched (needs : α → List α) (candidates : List α) :
    (∀ complete stack a ha, Ordered (within needs candidates) complete → Path needs (stack ++ [a]) →
      Searched needs candidates complete [a] (visit needs candidates complete stack a ha)) ∧
    ∀ complete stack points, Ordered (within needs candidates) complete →
      (∀ b ∈ points, Path needs (stack ++ [b])) →
      Searched needs candidates complete points (visitAll needs candidates complete stack points) := by
  apply visit.mutual_induct needs candidates
  case case1 =>
    intro complete stack a ha hmem hordered hpath
    rw [visit, dif_pos hmem]
    exact Searched.error (hpath.isCycle hmem)
  case case2 =>
    intro complete stack a ha hmem hcomplete hordered hpath
    rw [visit, dif_neg hmem, if_pos hcomplete]
    exact Searched.ok ⟨hordered, List.Subset.refl _, fun b hb _ => List.mem_singleton.mp hb ▸ hcomplete⟩
  case case3 =>
    intro complete stack a ha hmem hcomplete cycle hcycle ih hordered hpath
    rw [visit, dif_neg hmem, if_neg hcomplete, hcycle]
    exact Searched.error ((ih hordered fun b hb => hpath.push hb).1 cycle hcycle)
  case case4 =>
    intro complete stack a ha hmem hcomplete after hafter ih hordered hpath
    rw [visit, dif_neg hmem, if_neg hcomplete, hafter]
    have hdone := (ih hordered fun b hb => hpath.push hb).2 after hafter
    refine Searched.ok ⟨hdone.ordered.snoc fun b hb => ?_, ?_, fun b hb _ => ?_⟩
    · obtain ⟨hneed, hcandidate⟩ := mem_within.mp hb
      exact hdone.reached b hneed hcandidate
    · exact List.subset_append_of_subset_left _ hdone.kept
    · exact List.mem_append_right _ hb
  case case5 =>
    intro complete stack hordered _
    rw [visitAll]
    exact Searched.ok ⟨hordered, List.Subset.refl _, fun b hb => absurd hb List.not_mem_nil⟩
  case case6 =>
    intro complete stack b rest hb cycle hcycle ih hordered hpath
    rw [visitAll, dif_pos hb, hcycle]
    exact Searched.error ((ih hordered (hpath b List.mem_cons_self)).1 cycle hcycle)
  case case7 =>
    intro complete stack b rest hb after hafter ih ihrest hordered hpath
    rw [visitAll, dif_pos hb, hafter]
    have hfirst := (ih hordered (hpath b List.mem_cons_self)).2 after hafter
    have hrest := ihrest hfirst.ordered fun c hc => hpath c (List.mem_cons_of_mem _ hc)
    refine ⟨hrest.1, fun final hfinal => ?_⟩
    have hdone := hrest.2 final hfinal
    refine ⟨hdone.ordered, fun x hx => hdone.kept (hfirst.kept hx), fun c hc hcandidate => ?_⟩
    rcases List.mem_cons.mp hc with rfl | hc
    · exact hdone.kept (hfirst.reached c List.mem_cons_self hcandidate)
    · exact hdone.reached c hc hcandidate
  case case8 =>
    intro complete stack b rest hb ihrest hordered hpath
    rw [visitAll, dif_neg hb]
    have hrest := ihrest hordered fun c hc => hpath c (List.mem_cons_of_mem _ hc)
    refine ⟨hrest.1, fun final hfinal => ?_⟩
    have hdone := hrest.2 final hfinal
    refine ⟨hdone.ordered, hdone.kept, fun c hc hcandidate => ?_⟩
    rcases List.mem_cons.mp hc with rfl | hc
    · exact absurd hcandidate hb
    · exact hdone.reached c hc hcandidate

/-- **Where every candidate needs a candidate, the search names a cycle.** -/
theorem search_finds (hne : candidates ≠ []) (hneeds : ∀ a ∈ candidates, ∃ b ∈ needs a, b ∈ candidates) :
    ∃ cycle, visitAll needs candidates [] [] candidates = .error cycle ∧ IsCycle needs cycle := by
  have hsearched := (searched needs candidates).2 [] [] candidates Ordered.nil
    fun b _ => List.isChain_singleton b
  cases hresult : visitAll needs candidates [] [] candidates with
  | error cycle => exact ⟨cycle, rfl, hsearched.1 cycle hresult⟩
  | ok after =>
    -- then the candidates are in order, and the first of them needs none of them
    have hdone := hsearched.2 after hresult
    have hready : ready (within needs candidates) candidates [] ≠ [] := by
      refine exists_ready (fun a _ b hb => (mem_within.mp hb).2) (fun a ha => ?_) ?_
      · exact hdone.ordered.acyclic (hdone.reached a ha ha)
      · simpa [remaining] using hne
    obtain ⟨a, ha⟩ := List.exists_mem_of_ne_nil _ hready
    obtain ⟨⟨ha, -⟩, hnone⟩ := mem_ready.mp ha
    obtain ⟨b, hb, hcandidate⟩ := hneeds a ha
    exact absurd (hnone b (mem_within.mpr ⟨hb, hcandidate⟩)) List.not_mem_nil

end Search

end Layers
