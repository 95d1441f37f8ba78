import Mathlib

/-!
# SIMD registers

Registers of `n` lanes of 32 bits, and the instructions on them, each of which
does in every lane what the operation on a single word does. An array of
registers has, in a lane, an array of words (`laneOf`).
-/

namespace Simd

/-- A register of `n` lanes. -/
abbrev Epi32 (n : ℕ) := Vector UInt32 n

variable {m n : ℕ}

def set1 (x : UInt32) : Epi32 n := Vector.replicate n x
def add (x y : Epi32 n) : Epi32 n := Vector.zipWith (· + ·) x y
def sub (x y : Epi32 n) : Epi32 n := Vector.zipWith (· - ·) x y
def xor (x y : Epi32 n) : Epi32 n := Vector.zipWith (· ^^^ ·) x y
def or (x y : Epi32 n) : Epi32 n := Vector.zipWith (· ||| ·) x y
/-- The first argument is complemented. -/
def andnot (x y : Epi32 n) : Epi32 n := Vector.zipWith (fun x y => ~~~x &&& y) x y
def slli (x : Epi32 n) (k : UInt32) : Epi32 n := x.map (· <<< k)
def srli (x : Epi32 n) (k : UInt32) : Epi32 n := x.map (· >>> k)

section Lanes

variable (x y : Epi32 n) (w : UInt32) (k : ℕ) (hk : k < n)

@[simp] theorem getElem_set1 : (set1 w : Epi32 n)[k] = w := Vector.getElem_replicate hk
@[simp] theorem getElem_add : (add x y)[k] = x[k] + y[k] := Vector.getElem_zipWith hk
@[simp] theorem getElem_sub : (sub x y)[k] = x[k] - y[k] := Vector.getElem_zipWith hk
@[simp] theorem getElem_xor : (xor x y)[k] = x[k] ^^^ y[k] := Vector.getElem_zipWith hk
@[simp] theorem getElem_or : (or x y)[k] = x[k] ||| y[k] := Vector.getElem_zipWith hk
@[simp] theorem getElem_andnot : (andnot x y)[k] = ~~~x[k] &&& y[k] := Vector.getElem_zipWith hk
@[simp] theorem getElem_slli : (slli x w)[k] = x[k] <<< w := Vector.getElem_map _ hk
@[simp] theorem getElem_srli : (srli x w)[k] = x[k] >>> w := Vector.getElem_map _ hk

end Lanes

/-- The array with the register `x` at `i`. -/
def put {α : Type*} (v : Vector α m) (i : Fin m) (x : α) : Vector α m := v.set i x i.isLt

theorem get_put {α : Type*} (v : Vector α m) (i j : Fin m) (x : α) :
    (put v i x).get j = if i = j then x else v.get j := by
  rw [Vector.get_eq_getElem, put, Vector.getElem_set]
  simp only [Fin.val_inj, Vector.get_eq_getElem]

/-- The words of an array of registers in the lane `k`. -/
def laneOf (k : Fin n) (v : Vector (Epi32 n) m) : Vector UInt32 m := v.map (·.get k)

@[simp] theorem getElem_laneOf (k : Fin n) (v : Vector (Epi32 n) m) (i : ℕ) (hi : i < m) :
    (laneOf k v)[i] = v[i][k] := Vector.getElem_map _ hi

theorem laneOf_set (k : Fin n) (v : Vector (Epi32 n) m) (i : ℕ) (hi : i < m) (x : Epi32 n) :
    laneOf k (v.set i x) = (laneOf k v).set i x[k] := by
  ext j hj
  simp only [getElem_laneOf, Vector.getElem_set]
  split_ifs
  · rfl
  · rfl

end Simd
