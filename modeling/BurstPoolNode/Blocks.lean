import Mathlib

/-!
# Input in blocks

A machine that takes its input in blocks of `b` elements, and keeps what does not
fill a block until more arrives (`feed`). Where the input is cut into chunks
does not matter: feeding one chunk after the other is feeding them joined
(`foldl_feed`).
-/

namespace Blocks

variable {σ α : Type*} (b : ℕ) (step : σ → List α → σ)

/-- The steps on the first `n` blocks of an input. -/
def steps : ℕ → σ → List α → σ
  | 0, s, _ => s
  | n + 1, s, xs => steps n (step s (xs.take b)) (xs.drop b)

/-- The steps on all whole blocks of an input, and the rest of it. -/
def consume (s : σ) (xs : List α) : σ × List α :=
  (steps b step (xs.length / b) s xs, xs.drop (b * (xs.length / b)))

/-- Some more input, after what is kept. -/
def feed (x : σ × List α) (ys : List α) : σ × List α := consume b step x.1 (x.2 ++ ys)

variable {b step}

theorem steps_add (m n : ℕ) (s : σ) (xs : List α) :
    steps b step (m + n) s xs = steps b step n (steps b step m s xs) (xs.drop (b * m)) := by
  induction m generalizing s xs with
  | zero => rw [Nat.zero_add, steps, Nat.mul_zero, List.drop_zero]
  | succ m ih =>
    rw [Nat.succ_add, steps, steps, ih, List.drop_drop]
    congr 2
    rw [Nat.mul_succ, Nat.add_comm]

/-- What follows the blocks makes no difference. -/
theorem steps_append {n : ℕ} {xs : List α} (h : b * n ≤ xs.length) (s : σ) (ys : List α) :
    steps b step n s (xs ++ ys) = steps b step n s xs := by
  induction n generalizing s xs with
  | zero => rfl
  | succ n ih =>
    have hb : b ≤ xs.length := (Nat.le_mul_of_pos_right b n.succ_pos).trans h
    rw [steps, steps, List.take_append_of_le_length hb, List.drop_append_of_le_length hb]
    refine ih ?_ _
    rw [Nat.mul_succ] at h
    rw [List.length_drop]
    omega

theorem length_consume (s : σ) (xs : List α) : (consume b step s xs).2.length = xs.length % b := by
  rw [consume, List.length_drop, Nat.mod_eq_sub]

theorem consume_of_lt {s : σ} {xs : List α} (h : xs.length < b) :
    consume b step s xs = (s, xs) := by
  rw [consume, Nat.div_eq_of_lt h, steps, Nat.mul_zero, List.drop_zero]

/-- A block in front. -/
theorem consume_block {xs : List α} (hb : 0 < b) (h : xs.length = b) (s : σ) (ys : List α) :
    consume b step s (xs ++ ys) = consume b step (step s xs) ys := by
  subst h
  have hdiv : (xs ++ ys).length / xs.length = ys.length / xs.length + 1 := by
    rw [List.length_append, Nat.add_div_left _ hb]
  rw [consume, consume, hdiv, steps, List.take_left, List.drop_left, Nat.mul_succ,
    Nat.add_comm, ← List.drop_drop, List.drop_left]

theorem consume_append (hb : 0 < b) (s : σ) (xs ys : List α) :
    consume b step s (xs ++ ys) =
      consume b step (consume b step s xs).1 ((consume b step s xs).2 ++ ys) := by
  have hle : b * (xs.length / b) ≤ xs.length := Nat.mul_div_le ..
  have hdiv : (xs ++ ys).length / b =
      xs.length / b + (xs.drop (b * (xs.length / b)) ++ ys).length / b := by
    rw [List.length_append, List.length_append, List.length_drop, Nat.add_comm (xs.length / b),
      ← Nat.add_mul_div_left _ _ hb]
    congr 1
    omega
  have hdrop : (xs ++ ys).drop (b * (xs.length / b)) = xs.drop (b * (xs.length / b)) ++ ys :=
    List.drop_append_of_le_length hle
  rw [consume.eq_1 b step s (xs ++ ys), hdiv, steps_add, steps_append hle, hdrop, Nat.mul_add,
    ← List.drop_drop, hdrop]
  rfl

theorem feed_of_lt {x : σ × List α} (h : x.2.length < b) : feed b step x [] = x := by
  rw [feed, List.append_nil, consume_of_lt h]

theorem length_feed_lt (hb : 0 < b) (x : σ × List α) (ys : List α) :
    (feed b step x ys).2.length < b := by
  rw [feed, length_consume]
  exact Nat.mod_lt _ hb

/-- Chunk by chunk or at once. -/
theorem foldl_feed (hb : 0 < b) {x : σ × List α} (h : x.2.length < b) (chunks : List (List α)) :
    chunks.foldl (feed b step) x = feed b step x chunks.flatten := by
  induction chunks generalizing x with
  | nil => exact (feed_of_lt h).symm
  | cons ys chunks ih =>
    rw [List.foldl_cons, ih (length_feed_lt hb x ys), List.flatten_cons, feed, feed, feed,
      ← List.append_assoc, consume_append hb x.1 (x.2 ++ ys)]

end Blocks
