import Mathlib.Algebra.BigOperators.Group.List.Basic
import Mathlib.Data.List.Perm.Basic
import Mathlib.Data.List.Flatten

/-!
# Lists

Lists that change at one place, under `map`, `flatMap` and sums, and the last entries
of lists of pairs (`lookup` in the reversed list).
-/

namespace BurstPoolNode

open scoped List

variable {α β : Type*} {l : List α} {i : ℕ} {x : α}

theorem map_set_of_eq (f : α → β) {y : α} (h : l[i]? = some x) (hf : f y = f x) :
    (l.set i y).map f = l.map f := by
  obtain ⟨hi, rfl⟩ := List.getElem?_eq_some_iff.mp h
  rw [List.map_set, hf, ← List.getElem_map f (h := by simpa using hi)]
  exact List.set_getElem_self _

theorem flatMap_eraseIdx_perm (f : α → List β) (h : l[i]? = some x) :
    f x ++ (l.eraseIdx i).flatMap f ~ l.flatMap f := by
  obtain ⟨hi, rfl⟩ := List.getElem?_eq_some_iff.mp h
  simpa using (List.getElem_cons_eraseIdx_perm hi).flatMap_right f

theorem flatMap_set_perm (f : α → List β) (h : l[i]? = some x) (y : α) :
    f x ++ (l.set i y).flatMap f ~ f y ++ l.flatMap f := by
  obtain ⟨hi, -⟩ := List.getElem?_eq_some_iff.mp h
  have hset := (List.set_perm_cons_eraseIdx hi y).flatMap_right f
  calc f x ++ (l.set i y).flatMap f ~ f x ++ (f y ++ (l.eraseIdx i).flatMap f) :=
        hset.append_left _
    _ ~ f y ++ (f x ++ (l.eraseIdx i).flatMap f) := List.perm_append_comm_assoc ..
    _ ~ f y ++ l.flatMap f := (flatMap_eraseIdx_perm f h).append_left _

theorem sum_map_set {M : Type*} [AddCommMonoid M] (f : α → M) (h : l[i]? = some x) (y : α) :
    f x + ((l.set i y).map f).sum = f y + (l.map f).sum := by
  obtain ⟨hi, rfl⟩ := List.getElem?_eq_some_iff.mp h
  have hset := ((List.set_perm_cons_eraseIdx hi y).map f).sum_eq
  have hold := ((List.getElem_cons_eraseIdx_perm hi).map f).sum_eq
  rw [List.map_cons, List.sum_cons] at hset hold
  rw [hset, ← hold, add_left_comm]

/-- The last pair for a key comes before the others. -/
theorem lookup_reverse_cons {κ : Type*} [DecidableEq κ] (p : κ × β)
    (ps : List (κ × β)) (k : κ) :
    (p :: ps).reverse.lookup k = (ps.reverse.lookup k).or (if k = p.1 then some p.2 else none) := by
  rw [List.reverse_cons, List.lookup_append, List.lookup_cons, List.lookup_nil]
  split_ifs with hk
  · rw [hk, beq_self_eq_true]
  · rw [beq_false_of_ne hk]

end BurstPoolNode
