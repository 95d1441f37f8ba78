import Mathlib.Data.List.Perm.Basic

/-!
# Improvements

What is kept of the values that come in when only the least one counts: of a
list, those below the first bound and all values before them (`improvements`).
The least one kept, and the bound after all of them, do not depend on the order
(`min?_improvements`, `foldl_min_perm`).
-/

namespace BurstPoolNode

variable {α : Type*}

/-- The values below `best` and those before them. -/
def improvements [LT α] [DecidableLT α] (best : α) : List α → List α
  | [] => []
  | d :: ds => if d < best then d :: improvements d ds else improvements best ds

variable [Min α] [LE α] [Std.IsLinearOrder α] [Std.LawfulOrderMin α]

theorem min_eq_ite [LT α] [DecidableLT α] [Std.LawfulOrderLT α] (best d : α) :
    min best d = if d < best then d else best := by
  split_ifs with hd
  · exact Std.LawfulOrderLeftLeaningMin.min_eq_right _ _ (Std.not_le.mpr hd)
  · exact Std.LawfulOrderLeftLeaningMin.min_eq_left _ _ (Std.not_lt.mp hd)

theorem foldl_min_perm {ds es : List α} (h : ds.Perm es) (best : α) :
    ds.foldl min best = es.foldl min best :=
  h.foldl_eq best

theorem foldl_min_le (best : α) (ds : List α) : ds.foldl min best ≤ best := by
  rw [List.foldl_min]
  exact Std.min_le_left

theorem improvements_append [LT α] [DecidableLT α] [Std.LawfulOrderLT α] (best : α)
    (ds es : List α) : improvements best (ds ++ es) =
      improvements best ds ++ improvements (ds.foldl min best) es := by
  induction ds generalizing best with
  | nil => rfl
  | cons d ds ih =>
    rw [List.cons_append, improvements, improvements, List.foldl_cons, min_eq_ite]
    split_ifs with hd
    · rw [ih, List.cons_append]
    · rw [ih]

/-- The least of the improvements is the least value, if that is below the bound. -/
theorem min?_improvements [LT α] [DecidableLT α] [Std.LawfulOrderLT α] (best : α) (ds : List α) :
    (improvements best ds).min? =
      if ds.foldl min best < best then some (ds.foldl min best) else none := by
  induction ds generalizing best with
  | nil => rw [List.foldl_nil, if_neg Std.lt_irrefl, improvements, List.min?_nil]
  | cons d ds ih =>
    have hle := foldl_min_le d ds
    rw [improvements, List.foldl_cons, min_eq_ite best d]
    by_cases hd : d < best
    · rw [if_pos hd, if_pos hd, if_pos (Std.lt_of_le_of_lt hle hd), List.min?_cons, ih]
      -- The bound from now on is `d`, which is itself an improvement.
      split_ifs with hlt
      · rw [Option.elim_some, min_eq_ite, if_pos hlt]
      · exact congrArg some (Std.le_antisymm (Std.not_lt.mp hlt) hle)
    · rw [if_neg hd, if_neg hd, ih]

end BurstPoolNode
