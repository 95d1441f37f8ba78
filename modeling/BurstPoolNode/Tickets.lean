import Mathlib

/-!
# Tickets handed out ahead of time

Tickets are numbered in the order they are handed out, before it is known whether
there is something for them. A ticket that is granted had, at the time, fewer
tickets before it than there are items, not counting those that have been
refused. Then no more tickets are granted than there are items, whoever
decides on which ticket when (`card_granted_le`).
-/

namespace Tickets

/-- The refused tickets before the ticket `k`. -/
def before (refused : Finset ℕ) (k : ℕ) : ℕ := (refused.filter (· < k)).card

theorem before_le (refused : Finset ℕ) (k : ℕ) : before refused k ≤ k := by
  refine (Finset.card_le_card fun j hj => ?_).trans_eq (Finset.card_range k)
  exact Finset.mem_range.mpr (Finset.mem_filter.mp hj).2

theorem before_mono {refused refused' : Finset ℕ} (h : refused ⊆ refused') (k : ℕ) :
    before refused k ≤ before refused' k :=
  Finset.card_le_card (Finset.filter_subset_filter _ h)

/-- All refused tickets are before a new one. -/
theorem before_of_forall_lt {refused : Finset ℕ} {k : ℕ} (h : ∀ j ∈ refused, j < k) :
    before refused k = refused.card := by
  rw [before, Finset.filter_true_of_mem h]

/-- No more tickets are granted than there are items. -/
theorem card_granted_le {granted refused : Finset ℕ} {items : ℕ}
    (hdisj : Disjoint granted refused)
    (h : ∀ k ∈ granted, k < items + before refused k) : granted.card ≤ items := by
  obtain rfl | hne := granted.eq_empty_or_nonempty
  · exact items.zero_le
  · -- The last granted ticket has all others before it.
    have hlast := h _ (granted.max'_mem hne)
    have hsub : granted ∪ refused.filter (· < granted.max' hne) ⊆
        Finset.range (granted.max' hne + 1) := by
      intro k hk
      rw [Finset.mem_range, Nat.lt_succ_iff]
      rcases Finset.mem_union.mp hk with hk | hk
      · exact granted.le_max' k hk
      · exact (Finset.mem_filter.mp hk).2.le
    have hcard := Finset.card_le_card hsub
    rw [Finset.card_union_of_disjoint (hdisj.mono_right (Finset.filter_subset _ _)),
      Finset.card_range] at hcard
    rw [before] at hlast
    omega

end Tickets
