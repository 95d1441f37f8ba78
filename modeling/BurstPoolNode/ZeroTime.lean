import Mathlib.Algebra.Order.Field.Basic
import Mathlib.Tactic.Linarith
import Mathlib.Tactic.FieldSimp
import Mathlib.Tactic.Ring

/-!
# Zero times

A token bucket need not store its tokens: it is enough to store its *zero
time*, the time at which, refilling at its rate, it was empty. Taking tokens
moves the zero time forward.

* `Grant δ β z t z'`: a grant at the time `t` moves the zero time from `z` to
  `z'`, by at least `δ`, not beyond `t`, and not further than `β` behind `t`
  (a bucket does not hold more than it can);
* `grant_of_tokens`: taking `c` out of `min ((t - z) * r) b` tokens is a grant
  with `δ = c / r` and `β = (b - c) / r`;
* `Grants.window_le`: however the times of the grants are ordered, those in a
  window of length `d` are at most `(d + β) / δ + 1` many, and hence take at
  most `b + r * d` tokens (`Grants.tokens_le`).
-/

namespace BurstPoolNode.ZeroTime

variable {F : Type*} [Field F] [LinearOrder F] [IsStrictOrderedRing F]

/-- A grant at the time `t`, moving the zero time from `z` to `z'`. -/
structure Grant (δ β z t z' : F) : Prop where
  advance : z + δ ≤ z'
  le_time : z' ≤ t
  slack : t - β ≤ z'

/-- Grants at the times `ts`, one after the other, moving the zero time from
    `z` to `z'`. -/
inductive Grants (δ β z : F) : List F → F → Prop
  | nil : Grants δ β z [] z
  | concat {ts : List F} {t z' z'' : F} :
      Grants δ β z ts z' → Grant δ β z' t z'' → Grants δ β z (ts ++ [t]) z''

/-- Taking `c` of the tokens refilled at the rate `r` since the zero time `z`,
    but at most `b`, is a grant. -/
theorem grant_of_tokens {r b c z t : F} (hr : 0 < r) (hc : c ≤ min ((t - z) * r) b) :
    Grant (c / r) ((b - c) / r) z t (t - (min ((t - z) * r) b - c) / r) := by
  have hz : (t - z) * r / r = t - z := mul_div_cancel_right₀ _ hr.ne'
  constructor
  · have h : (min ((t - z) * r) b - c) / r ≤ ((t - z) * r - c) / r :=
      div_le_div_of_nonneg_right (by linarith [min_le_left ((t - z) * r) b]) hr.le
    rw [sub_div ((t - z) * r), hz] at h
    linarith
  · have h : 0 ≤ (min ((t - z) * r) b - c) / r := div_nonneg (by linarith) hr.le
    linarith
  · have h : (min ((t - z) * r) b - c) / r ≤ (b - c) / r :=
      div_le_div_of_nonneg_right (by linarith [min_le_right ((t - z) * r) b]) hr.le
    linarith

namespace Grants

variable {δ β z z' : F} {ts : List F}

/-- The zero time never moves backwards. -/
theorem le (h : Grants δ β z ts z') (hδ : 0 ≤ δ) : z ≤ z' := by
  induction h with
  | nil => exact le_rfl
  | concat _ hg ih => linarith [hg.advance]

omit [IsStrictOrderedRing F] in
theorem cons {t z'' : F} (hg : Grant δ β z t z') (h : Grants δ β z' ts z'') :
    Grants δ β z (t :: ts) z'' := by
  induction h with
  | nil => exact @concat _ _ _ _ _ _ [] _ _ _ .nil hg
  | concat _ hg' ih => exact @concat _ _ _ _ _ _ (t :: _) _ _ _ ih hg'

/-- The number of times in the window `[lo, hi]`. -/
def inWindow (lo hi : F) (ts : List F) : ℕ := ts.countP fun t => lo ≤ t ∧ t ≤ hi

/-- The potential of a window: the first grant in it leaves the zero time at
    `lo - β` at least, every further one moves it by `δ`, and none beyond `hi`. -/
theorem potential (h : Grants δ β z ts z') (hδ : 0 ≤ δ) (lo hi : F) :
    inWindow lo hi ts = 0 ∨
      (lo - β + (inWindow lo hi ts - 1 : F) * δ ≤ z' ∧
        lo - β + (inWindow lo hi ts - 1 : F) * δ ≤ hi) := by
  induction h with
  | nil => exact .inl rfl
  | @concat ts t z' z'' _ hg ih =>
    obtain ⟨hadv, htime, hslack⟩ := hg
    by_cases hw : lo ≤ t ∧ t ≤ hi
    · have hcount : inWindow lo hi (ts ++ [t]) = inWindow lo hi ts + 1 := by
        simp [inWindow, hw]
      have hle : lo - β + (inWindow lo hi (ts ++ [t]) - 1 : F) * δ ≤ z'' := by
        rw [hcount]
        push_cast
        rcases ih with h0 | ⟨hz, -⟩
        · simp only [h0, Nat.cast_zero]
          linarith [hw.1]
        · linarith
      exact .inr ⟨hle, hle.trans (htime.trans hw.2)⟩
    · have hcount : inWindow lo hi (ts ++ [t]) = inWindow lo hi ts := by
        simp [inWindow, hw]
      rw [hcount]
      exact ih.imp_right fun ⟨hz, hhi⟩ => ⟨by linarith, hhi⟩

/-- The grants in a window, spaced by `δ`, fit into it and the slack. -/
theorem window_le (h : Grants δ β z ts z') (hδ : 0 ≤ δ) {lo hi : F}
    (hpos : inWindow lo hi ts ≠ 0) : (inWindow lo hi ts : F) * δ ≤ hi - lo + β + δ := by
  rcases h.potential hδ lo hi with h0 | ⟨-, hhi⟩
  · exact absurd h0 hpos
  · linarith

/-- The tokens granted in a window are at most a full bucket and what the
    window refills. -/
theorem tokens_le {r b c : F} (h : Grants (c / r) ((b - c) / r) z ts z') (hr : 0 < r)
    (hb : 0 ≤ b) (hc : 0 ≤ c) {lo hi : F} (hlh : lo ≤ hi) :
    (inWindow lo hi ts : F) * c ≤ b + r * (hi - lo) := by
  by_cases hpos : inWindow lo hi ts = 0
  · rw [hpos, Nat.cast_zero, zero_mul]
    exact add_nonneg hb (mul_nonneg hr.le (sub_nonneg.2 hlh))
  · have hw := mul_le_mul_of_nonneg_right (h.window_le (div_nonneg hc hr.le) hpos) hr.le
    calc (inWindow lo hi ts : F) * c = inWindow lo hi ts * (c / r) * r := by field_simp
      _ ≤ (hi - lo + (b - c) / r + c / r) * r := hw
      _ = b + r * (hi - lo) := by field_simp; ring

end Grants

end BurstPoolNode.ZeroTime
