import Mathlib

/-!
# Buffers

A local array of `n` cells, as C leaves it: a cell holds nothing until it is
written. Reading is possible inside the array and from cells that have been
written, and writing inside the array; otherwise the result is `none`.

* `Buffer.filled`: the array whose last cells are written, the others not. A
  loop that fills an array from its end passes through these
  (`write_filled`), and reads what it wrote (`read_filled`);
* `write_write`: writes next to each other are one write.
-/

namespace BurstPoolNode

/-- An array of `n` cells, some of them not yet written. -/
structure Buffer (α : Type*) (n : ℕ) where
  cells : List (Option α)
  length_cells : cells.length = n

namespace Buffer

variable {α : Type*} {n : ℕ}

@[ext] theorem ext {b b' : Buffer α n} (h : b.cells = b'.cells) : b = b' := by
  cases b
  cases b'
  congr

/-- Nothing is written. -/
def uninit : Buffer α n := ⟨List.replicate n none, List.length_replicate⟩

/-- The `len` cells from `off` on. -/
def read (b : Buffer α n) (off len : ℕ) : Option (List α) :=
  if off + len ≤ n then ((b.cells.drop off).take len).mapM id else none

/-- Writing `xs` from `off` on. -/
def write (b : Buffer α n) (off : ℕ) (xs : List α) : Option (Buffer α n) :=
  if h : off + xs.length ≤ n then
    some ⟨b.cells.take off ++ xs.map some ++ b.cells.drop (off + xs.length), by
      simp [b.length_cells]; omega⟩
  else none

theorem mapM_id_map_some (xs : List α) : (xs.map some).mapM id = some xs := by
  induction xs with
  | nil => rfl
  | cons x xs ih => simp [List.mapM_cons, ih]

theorem eq_map_some_of_mapM_id {cells : List (Option α)} {xs : List α}
    (h : cells.mapM id = some xs) : cells = xs.map some := by
  induction cells generalizing xs with
  | nil =>
    cases h
    rfl
  | cons c cells ih =>
    rw [List.mapM_cons] at h
    obtain ⟨x, hx, h⟩ := Option.bind_eq_some_iff.mp h
    obtain ⟨xs', hxs', h⟩ := Option.bind_eq_some_iff.mp h
    cases h
    rw [List.map_cons, ← ih hxs', show c = some x from hx]

theorem length_of_read {b : Buffer α n} {off len : ℕ} {xs : List α}
    (h : b.read off len = some xs) : xs.length = len := by
  rw [read] at h
  split_ifs at h with hn
  have hxs := congrArg List.length (eq_map_some_of_mapM_id h)
  rw [List.length_take, List.length_drop, b.length_cells, List.length_map] at hxs
  omega

/-- Writing twice, the second time where the first write ends, is writing once. -/
theorem write_write (b : Buffer α n) (off : ℕ) (xs ys : List α) :
    ((b.write off xs).bind fun b => b.write (off + xs.length) ys) = b.write off (xs ++ ys) := by
  by_cases h : off + (xs ++ ys).length ≤ n
  · have hlen := b.length_cells
    rw [List.length_append] at h
    have hx : off + xs.length ≤ n := by omega
    have hxy : off + xs.length + ys.length ≤ n := by omega
    rw [write, dif_pos hx, Option.bind_some, write, dif_pos hxy, write,
      dif_pos (by rw [List.length_append]; omega)]
    have hfirst : (b.cells.take off ++ xs.map some).length = off + xs.length := by
      rw [List.length_append, List.length_take, List.length_map]
      omega
    congr 2
    rw [List.take_append_of_le_length (Nat.le_of_eq hfirst.symm),
      List.take_of_length_le (Nat.le_of_eq hfirst),
      List.drop_append, List.drop_of_length_le (by rw [hfirst]; omega), List.drop_drop, hfirst]
    simp only [List.nil_append, List.length_append, List.map_append, List.append_assoc]
    congr 4
    simp
    omega
  · rw [write.eq_1 b off (xs ++ ys), dif_neg h]
    by_cases hx : off + xs.length ≤ n
    · rw [write, dif_pos hx, Option.bind_some, write, dif_neg (by simpa [Nat.add_assoc] using h)]
    · rw [write, dif_neg hx, Option.bind_none]

/-! ## Arrays filled from their end -/

/-- The last cells hold `xs`, the others nothing. -/
def filled (xs : List α) (h : xs.length ≤ n) : Buffer α n :=
  ⟨List.replicate (n - xs.length) none ++ xs.map some, by simp; omega⟩

theorem filled_nil : (filled [] (Nat.zero_le n) : Buffer α n) = uninit := by
  ext1
  simp [filled, uninit]

theorem read_filled {xs : List α} (h : xs.length ≤ n) {off len : ℕ} (hoff : n ≤ off + xs.length)
    (hlen : off + len ≤ n) :
    (filled xs h).read off len = some ((xs.drop (off + xs.length - n)).take len) := by
  have hk : off - (n - xs.length) = off + xs.length - n := by omega
  rw [read, if_pos hlen, filled, List.drop_append, List.drop_of_length_le (by simp; omega),
    List.nil_append, List.length_replicate, hk, ← List.map_drop, ← List.map_take,
    mapM_id_map_some]

/-- With all cells written, every read inside of the array is possible. -/
theorem exists_read_filled_iff {xs : List α} (h : xs.length = n) {off len : ℕ} :
    (∃ ys, (filled xs (Nat.le_of_eq h)).read off len = some ys) ↔ off + len ≤ n := by
  refine ⟨fun ⟨ys, hys⟩ => ?_, fun hlen => ⟨_, read_filled _ (by omega) hlen⟩⟩
  rw [read] at hys
  split_ifs at hys with hlen
  exact hlen

theorem write_filled {xs ys : List α} (h : xs.length ≤ n) {off : ℕ}
    (hoff : off + ys.length + xs.length = n) :
    (filled xs h).write off ys = some (filled (ys ++ xs) (by simp; omega)) := by
  have hk : n - xs.length = off + ys.length := by omega
  rw [write, dif_pos (by omega)]
  congr 1
  ext1
  simp only [filled, hk]
  rw [List.take_append_of_le_length (by simp), List.drop_append,
    List.drop_of_length_le (by simp), List.length_replicate, Nat.sub_self, List.drop_zero,
    List.nil_append, List.take_replicate]
  simp only [List.length_append, List.map_append, List.append_assoc]
  congr 2
  omega

/-- Writing a cell of an array all of whose cells are written. -/
theorem write_filled_singleton {xs : List α} (h : xs.length = n) {i : ℕ} (hi : i < n) (x : α) :
    (filled xs (Nat.le_of_eq h)).write i [x] = some (filled (xs.set i x) (by simp [h])) := by
  subst h
  rw [write, dif_pos (by simp only [List.length_singleton]; omega)]
  congr 1
  ext1
  simp only [filled, List.length_set, Nat.sub_self, List.replicate_zero, List.nil_append]
  rw [List.map_set, List.set_eq_take_append_cons_drop, if_pos (by simpa using hi)]
  simp

end Buffer

end BurstPoolNode
