import Mathlib.Data.List.Destutter
import Mathlib.Data.List.Sort
import Mathlib.Order.Basic

/-!
# JMan — sorting by a rank into a chain

Elements of an order are sorted by a rank that grows with them, and of equal ones that follow
each other one is kept. What comes out ascends exactly if all elements were comparable
(`isChain_ranked_iff`).
-/

namespace JMan.Chains

variable {α : Type*}

section Destutter

variable [DecidableEq α] {a b : α} {as : List α}

theorem mem_destutter'_ne : a ∈ as.destutter' (· ≠ ·) b ↔ a = b ∨ a ∈ as := by
  induction as generalizing b with
  | nil =>
    rw [List.destutter'_nil, List.mem_singleton]
    exact (or_iff_left List.not_mem_nil).symm
  | cons first as ih =>
    by_cases hne : b ≠ first
    · rw [List.destutter'_cons_pos as hne, List.mem_cons, ih, List.mem_cons]
    · rw [List.destutter'_cons_neg as hne, ih, List.mem_cons, Classical.not_not.mp hne]
      tauto

theorem mem_destutter_ne : a ∈ as.destutter (· ≠ ·) ↔ a ∈ as := by
  cases as with
  | nil => exact Iff.rfl
  | cons first as => rw [List.destutter_cons', mem_destutter'_ne, List.mem_cons]

end Destutter

variable [DecidableEq α] (rank : α → Nat)

/-- Sorted by the rank, without repetitions in a row. -/
def ranked (as : List α) : List α :=
  (as.insertionSort fun a b => rank a ≤ rank b).destutter (· ≠ ·)

variable {rank} {as : List α} {a b : α}

theorem mem_ranked : a ∈ ranked rank as ↔ a ∈ as :=
  mem_destutter_ne.trans (List.mem_insertionSort _)

theorem pairwise_ranked (as : List α) : (ranked rank as).Pairwise fun a b => rank a ≤ rank b := by
  have : Std.Total fun a b : α => rank a ≤ rank b := ⟨fun a b => Nat.le_total (rank a) (rank b)⟩
  have : IsTrans α fun a b => rank a ≤ rank b := ⟨fun _ _ _ h h' => Nat.le_trans h h'⟩
  exact (List.pairwise_insertionSort _ as).sublist (List.destutter_sublist _ _)

/-- **The sorted elements ascend exactly if any two of them are comparable.** -/
theorem isChain_ranked_iff [PartialOrder α] (hrank : ∀ a ∈ as, ∀ b ∈ as, a < b → rank a < rank b) :
    (ranked rank as).IsChain (· < ·) ↔ ∀ a ∈ as, ∀ b ∈ as, a ≤ b ∨ b ≤ a := by
  constructor
  · intro h a ha b hb
    have hpairs : (ranked rank as).Pairwise (· < ·) := List.isChain_iff_pairwise.mp h
    have : Std.Symm fun a b : α => a ≤ b ∨ b ≤ a := ⟨fun _ _ h => h.symm⟩
    have hcomparable : (ranked rank as).Pairwise fun a b => a ≤ b ∨ b ≤ a := hpairs.imp fun hlt => .inl hlt.le
    exact List.Pairwise.forall_of_forall (fun _ _ => .inl le_rfl) hcomparable (mem_ranked.mpr ha)
      (mem_ranked.mpr hb)
  · intro h
    have hne : (ranked rank as).IsChain (· ≠ ·) := List.isChain_destutter _ _
    have hle : (ranked rank as).IsChain fun a b => rank a ≤ rank b := (pairwise_ranked as).isChain
    refine List.isChain_iff_forall_rel_of_append_cons_cons.mpr fun a b before after hsplit => ?_
    have hdistinct := List.isChain_iff_forall_rel_of_append_cons_cons.mp hne hsplit
    have hranks := List.isChain_iff_forall_rel_of_append_cons_cons.mp hle hsplit
    have ha : a ∈ as := mem_ranked.mp (hsplit ▸ List.mem_append_right before List.mem_cons_self)
    have hb : b ∈ as :=
      mem_ranked.mp (hsplit ▸ List.mem_append_right before (List.mem_cons_of_mem _ List.mem_cons_self))
    rcases h a ha b hb with hab | hba
    · exact hab.lt_of_ne hdistinct
    · -- the smaller one would have the smaller rank
      exact absurd hranks (Nat.not_le_of_lt (hrank b hb a ha (hba.lt_of_ne hdistinct.symm)))

theorem getLast?_ranked (ha : a ∈ as) (hmax : ∀ b ∈ as, b ≠ a → rank b < rank a) :
    (ranked rank as).getLast? = some a := by
  have hmem : a ∈ ranked rank as := mem_ranked.mpr ha
  obtain ⟨before, last, hranked⟩ := (List.eq_nil_or_concat' (ranked rank as)).resolve_left (List.ne_nil_of_mem hmem)
  have hpairs : (ranked rank as).Pairwise fun a b => rank a ≤ rank b := pairwise_ranked as
  rw [hranked] at hmem hpairs ⊢
  rw [List.getLast?_concat]
  refine congrArg some (Classical.byContradiction fun hne => ?_)
  have hlast : last ∈ as := mem_ranked.mp (hranked ▸ List.mem_concat_self)
  have hlt := hmax last hlast hne
  have hbefore : a ∈ before := by
    rcases List.mem_append.mp hmem with h | h
    · exact h
    · exact absurd (List.mem_singleton.mp h).symm hne
  exact absurd ((List.pairwise_append.mp hpairs).2.2 a hbefore last List.mem_cons_self) (Nat.not_le_of_lt hlt)

end JMan.Chains
